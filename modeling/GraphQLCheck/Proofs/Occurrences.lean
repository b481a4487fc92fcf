import GraphQLCheck.Proofs.Sets
import GraphQLCheck.Proofs.Substitution

/-!
# Where variables stand

A variable stands at a path inside a definition: through selections, a directive or an argument, and
then through the items of lists and the fields of objects. `InLiteralAt`, `InDirectivesAt` and
`InSetAt` say, rule by rule, which uses stand at which paths and what type is expected there. The
lists of uses that are taken from a literal, from directives and from a set have the uses at these
paths, each path once (`enumerates_inLiteral`, `enumerates_inDirectives`, `enumerates_usesInSet`).
-/

namespace GraphQLCheck

open Function

open scoped List

/-- Induction over a selection, all selections of its set at once. -/
theorem Selection.set_induction {P : Selection → Prop}
    (field : ∀ node span own, (∀ item ∈ own, P item) → P (.field node span own))
    (spread : ∀ node, P (.spread node))
    (inline : ∀ node span own, (∀ item ∈ own, P item) → P (.inline node span own)) :
    ∀ item, P item
  | .field node span own => field node span own fun item _ => set_induction field spread inline item
  | .spread node => spread node
  | .inline node span own =>
    inline node span own fun item _ => set_induction field spread inline item

namespace VariableUse

/-! ### Listing uses by their places -/

/-- A list has the uses that stand at certain places, each place once. -/
def Enumerates {κ : Type} (uses : List VariableUse) (At : κ → VariableUse → Prop) : Prop :=
  ∃ placed : List (κ × VariableUse), placed.map (·.2) = uses ∧ (placed.map (·.1)).Nodup ∧
    ∀ x u, (x, u) ∈ placed ↔ At x u

namespace Enumerates

variable {κ κ' α : Type} {uses others : List VariableUse} {At Other : κ → VariableUse → Prop}

theorem congr (h : Enumerates uses At) (hiff : ∀ x u, At x u ↔ Other x u) :
    Enumerates uses Other := by
  obtain ⟨placed, hmap, hnodup, hmem⟩ := h
  exact ⟨placed, hmap, hnodup, fun x u => (hmem x u).trans (hiff x u)⟩

theorem mem_iff (h : Enumerates uses At) (u : VariableUse) : u ∈ uses ↔ ∃ x, At x u := by
  obtain ⟨placed, rfl, -, hmem⟩ := h
  simp only [List.mem_map, Prod.exists, exists_eq_right, hmem]

theorem nil (h : ∀ x u, ¬ At x u) : Enumerates [] At := by
  refine ⟨[], rfl, List.nodup_nil, fun x u => ?_⟩
  simpa using h x u

theorem single (x : κ) (u : VariableUse) : Enumerates [u] fun y v => y = x ∧ v = u := by
  refine ⟨[(x, u)], rfl, List.nodup_singleton x, fun y v => ?_⟩
  simp

theorem append (h : Enumerates uses At) (h' : Enumerates others Other)
    (hapart : ∀ x u v, At x u → ¬ Other x v) :
    Enumerates (uses ++ others) fun x u => At x u ∨ Other x u := by
  obtain ⟨placed, hmap, hnodup, hmem⟩ := h
  obtain ⟨placed', hmap', hnodup', hmem'⟩ := h'
  refine ⟨placed ++ placed', by rw [List.map_append, hmap, hmap'], ?_, fun x u => ?_⟩
  · rw [List.map_append]
    refine hnodup.append hnodup' fun x hx hx' => ?_
    obtain ⟨⟨y, u⟩, hu, rfl⟩ := List.mem_map.mp hx
    obtain ⟨⟨z, v⟩, hv, (rfl : z = y)⟩ := List.mem_map.mp hx'
    exact hapart z u v ((hmem z u).mp hu) ((hmem' z v).mp hv)
  · rw [List.mem_append, hmem, hmem']

/-- The places may be seen from farther outside. -/
theorem relabel (h : Enumerates uses At) {place : κ → κ'} (hplace : Injective place) :
    Enumerates uses fun x u => ∃ y, place y = x ∧ At y u := by
  obtain ⟨placed, hmap, hnodup, hmem⟩ := h
  refine ⟨placed.map fun p => (place p.1, p.2), ?_, ?_, fun x u => ?_⟩
  · rw [List.map_map, ← hmap]
    rfl
  · have hkeys : (placed.map fun p => (place p.1, p.2)).map (·.1) =
        (placed.map (·.1)).map place := by
      rw [List.map_map, List.map_map]
      rfl
    rw [hkeys]
    exact hnodup.map hplace
  · simp only [List.mem_map, Prod.mk.injEq, Prod.exists, ← hmem]
    constructor
    · rintro ⟨y, v, hv, rfl, rfl⟩
      exact ⟨y, rfl, hv⟩
    · rintro ⟨y, rfl, hv⟩
      exact ⟨y, u, hv, rfl, rfl⟩

theorem perm (h : Enumerates uses At) (hperm : others ~ uses) : Enumerates others At := by
  obtain ⟨placed, rfl, hnodup, hmem⟩ := h
  have hcomp : (· ~ List.map Prod.snd ·) others placed := hperm
  rw [← List.eq_map_comp_perm] at hcomp
  obtain ⟨placed', heq, hplaced⟩ := hcomp
  refine ⟨placed', heq.symm, (hplaced.map _).nodup_iff.mpr hnodup, fun x u => ?_⟩
  rw [hplaced.mem_iff, hmem]

/-- Lists of uses at places that are apart can be put together. -/
theorem flatMap {list : List α} {usesOf : α → List VariableUse}
    {AtOf : α → κ → VariableUse → Prop} {place : α → κ → κ'}
    (h : ∀ a ∈ list, Enumerates (usesOf a) (AtOf a)) (hplace : ∀ a, Injective (place a))
    (hapart : list.Pairwise fun a b => ∀ x y, place a x ≠ place b y) :
    Enumerates (list.flatMap usesOf) fun x u => ∃ a ∈ list, ∃ y, place a y = x ∧ AtOf a y u := by
  induction list with
  | nil => exact nil (by simp)
  | cons a list ih =>
    obtain ⟨ha, hlist⟩ := List.forall_mem_cons.mp h
    obtain ⟨hfirst, hrest⟩ := List.pairwise_cons.mp hapart
    rw [List.flatMap_cons]
    refine ((ha.relabel (hplace a)).append (ih hlist hrest) ?_).congr fun x u => ?_
    · rintro x u v ⟨y, rfl, -⟩ ⟨b, hb, z, hz, -⟩
      exact hfirst b hb y z hz.symm
    · simp only [List.exists_mem_cons_iff]

end Enumerates

/-! ### Paths -/

/-- A step of a path into a definition, by the number of what it goes to. -/
inductive Step where
  /-- To a selection of a set. -/
  | selection (number : ℕ)
  /-- To a directive. -/
  | directive (number : ℕ)
  /-- To an argument. -/
  | argument (number : ℕ)
  /-- To an item of a list. -/
  | item (number : ℕ)
  /-- To a field of an object. -/
  | field (number : ℕ)
  deriving DecidableEq, Repr

/-- The uses in the members of a list stand at paths that start with the number of the member. -/
theorem Enumerates.branches {α : Type} {list : List α} {usesOf : α → List VariableUse}
    {AtOf : α → List Step → VariableUse → Prop} {step : ℕ → Step} (hstep : Injective step)
    (h : ∀ a ∈ list, Enumerates (usesOf a) (AtOf a)) :
    Enumerates (list.flatMap usesOf) fun path u =>
      ∃ n a rest, list[n]? = some a ∧ step n :: rest = path ∧ AtOf a rest u := by
  have hnumbered : (list.zipIdx.flatMap fun p => usesOf p.1) = list.flatMap usesOf := by
    rw [← List.flatMap_map Prod.fst usesOf, List.zipIdx_map_fst]
  have hapart : list.zipIdx.Pairwise fun p q =>
      ∀ x y : List Step, step p.2 :: x ≠ step q.2 :: y := by
    have hnodup : (list.zipIdx.map Prod.snd).Nodup := by
      rw [List.zipIdx_map_snd]
      exact List.nodup_range'
    refine (List.pairwise_map.mp hnodup).imp fun hne x y heq => ?_
    exact hne (hstep (List.cons.inj heq).1)
  have hmembers : ∀ p ∈ list.zipIdx, Enumerates (usesOf p.1) (AtOf p.1) :=
    fun p hp => h p.1 (List.mem_of_getElem? (List.mem_zipIdx_iff_getElem?.mp hp))
  have hcons (p : α × ℕ) : Injective fun rest => step p.2 :: rest :=
    fun x y heq => (List.cons.inj heq).2
  rw [← hnumbered]
  refine (flatMap hmembers hcons hapart).congr fun path u => ?_
  simp only [List.mem_zipIdx_iff_getElem?, Prod.exists]
  constructor
  · rintro ⟨a, n, hn, rest, rfl, hu⟩
    exact ⟨n, a, rest, hn, rfl, hu⟩
  · rintro ⟨n, a, rest, hn, rfl, hu⟩
    exact ⟨a, n, hn, rest, rfl, hu⟩

theorem selection_injective : Injective Step.selection := fun _ _ => Step.selection.inj

theorem directive_injective : Injective Step.directive := fun _ _ => Step.directive.inj

theorem argument_injective : Injective Step.argument := fun _ _ => Step.argument.inj

theorem item_injective : Injective Step.item := fun _ _ => Step.item.inj

theorem field_injective : Injective Step.field := fun _ _ => Step.field.inj

/-! ### Literals -/

/-- The type that is expected of the items of a list literal. If no list is expected, it is the
same type. -/
inductive ExpectedItem : Option TypeRef → Option TypeRef → Prop where
  /-- A list is expected. -/
  | list {item : TypeRef} {nullable : Bool} : ExpectedItem (some (.list item nullable)) (some item)
  /-- No list is expected. -/
  | named {name : String} {nullable : Bool} :
      ExpectedItem (some (.named name nullable)) (some (.named name nullable))
  /-- It is not known what is expected. -/
  | unknown : ExpectedItem none none

/-- The type that is expected of what is given under a name, if there are certain parameters or
fields: that of the first of this name. -/
inductive ExpectedOf (name : String) : Option (List InputValue) → Option TypeRef → Prop where
  /-- There is one of this name, and none before it. -/
  | first {before after : List InputValue} {p : InputValue} :
      p.name = name → (∀ q ∈ before, q.name ≠ name) →
      ExpectedOf name (some (before ++ p :: after)) (some p.type)
  /-- There is none of this name. -/
  | unnamed {values : List InputValue} : (∀ p ∈ values, p.name ≠ name) →
      ExpectedOf name (some values) none
  /-- It is not known what there is. -/
  | unknown : ExpectedOf name none none

/-- The type that is expected of a field of an object literal. -/
inductive ExpectedField (schema : Schema) (name : String) :
    Option TypeRef → Option TypeRef → Prop where
  /-- The expected type is defined, and has fields if it is an input object. -/
  | defined {expected : TypeRef} {t : TypeDefinition} {field? : Option TypeRef} :
      schema.type? expected.innermost = some t → ExpectedOf name t.inputFields? field? →
      ExpectedField schema name (some expected) field?
  /-- The expected type is not defined. -/
  | undefined {expected : TypeRef} : schema.type? expected.innermost = none →
      ExpectedField schema name (some expected) none
  /-- It is not known what is expected. -/
  | unknown : ExpectedField schema name none none

theorem expectedItem_iff {expected? item? : Option TypeRef} :
    ExpectedItem expected? item? ↔ item? = expected?.map itemType := by
  constructor
  · intro h
    cases h <;> rfl
  · rintro rfl
    match expected? with
    | none => exact .unknown
    | some (.named name nullable) => exact .named
    | some (.list item nullable) => exact .list

theorem expectedOf_iff {name : String} {values? : Option (List InputValue)}
    {expected? : Option TypeRef} :
    ExpectedOf name values? expected? ↔
      expected? = (values?.bind (·.find? (·.name = name))).map (·.type) := by
  constructor
  · intro h
    cases h with
    | @first before after p hname hbefore =>
      have hfind : (before ++ p :: after).find? (·.name = name) = some p :=
        List.find?_eq_some_iff_append.mpr
          ⟨decide_eq_true hname, before, after, rfl, by simpa using hbefore⟩
      rw [Option.bind_some, hfind]
      rfl
    | @unnamed values hnone =>
      have hfind : values.find? (·.name = name) = none :=
        List.find?_eq_none.mpr (by simpa using hnone)
      rw [Option.bind_some, hfind]
      rfl
    | unknown => rfl
  · rintro rfl
    cases values? with
    | none => exact .unknown
    | some values =>
      rw [Option.bind_some]
      cases hfind : values.find? (·.name = name) with
      | none => exact .unnamed (by simpa using hfind)
      | some p =>
        obtain ⟨hname, before, after, rfl, hbefore⟩ := List.find?_eq_some_iff_append.mp hfind
        exact .first (by simpa using hname) (by simpa using hbefore)

theorem expectedField_iff {schema : Schema} {name : String} {expected? field? : Option TypeRef} :
    ExpectedField schema name expected? field? ↔ field? = fieldType? schema expected? name := by
  constructor
  · intro h
    cases h with
    | defined ht hfield =>
      simp [fieldType?, ht, expectedOf_iff.mp hfield, TypeDefinition.inputField?]
    | undefined ht => simp [fieldType?, ht]
    | unknown => rfl
  · rintro rfl
    cases expected? with
    | none => exact .unknown
    | some expected =>
      cases ht : schema.type? expected.innermost with
      | none =>
        have hnone : fieldType? schema (some expected) name = none := by simp [fieldType?, ht]
        rw [hnone]
        exact .undefined ht
      | some t =>
        refine .defined ht (expectedOf_iff.mpr ?_)
        simp [fieldType?, ht, TypeDefinition.inputField?]

/-- The uses in a literal, with the type that is expected of it. -/
inductive InLiteralAt (schema : Schema) (position : Position) :
    Option TypeRef → Literal → List Step → VariableUse → Prop where
  /-- The literal is a variable. -/
  | variable {expected? : Option TypeRef} {name : String} :
      InLiteralAt schema position expected? (.atom (.var name)) [] ⟨name, expected?, position⟩
  /-- An item of a list. -/
  | item {expected? item? : Option TypeRef} {items : List Literal} {n : ℕ} {item : Literal}
      {path : List Step} {u : VariableUse} :
      items[n]? = some item → ExpectedItem expected? item? →
      InLiteralAt schema position item? item path u →
      InLiteralAt schema position expected? (.list items) (.item n :: path) u
  /-- A field of an object. -/
  | field {expected? field? : Option TypeRef} {fields : List (String × Literal)} {n : ℕ}
      {name : String} {value : Literal} {path : List Step} {u : VariableUse} :
      fields[n]? = some (name, value) → ExpectedField schema name expected? field? →
      InLiteralAt schema position field? value path u →
      InLiteralAt schema position expected? (.object fields) (.field n :: path) u

theorem enumerates_inLiteral (schema : Schema) (position : Position) (expected? : Option TypeRef)
    (v : Literal) :
    Enumerates (inLiteral schema position expected? v)
      (InLiteralAt schema position expected? v) := by
  induction v using Literal.parts_induction generalizing expected? with
  | atom a =>
    cases a with
    | var name =>
      refine (Enumerates.single [] _).congr fun path u => ⟨?_, ?_⟩
      · rintro ⟨rfl, rfl⟩
        exact .variable
      · rintro ⟨⟩
        exact ⟨rfl, rfl⟩
    | int _ | float _ | string _ | bool _ | null | enum _ =>
      exact .nil fun path u h => nomatch h
  | list items ih =>
    rw [inLiteral, inItems_eq_flatMap]
    refine (Enumerates.branches item_injective fun v hv => ih v hv _).congr fun path u => ⟨?_, ?_⟩
    · rintro ⟨n, item, rest, hitem, rfl, hu⟩
      exact .item hitem (expectedItem_iff.mpr rfl) hu
    · intro h
      cases h with
      | item hitem hexpected hu =>
        rw [expectedItem_iff.mp hexpected] at hu
        exact ⟨_, _, _, hitem, rfl, hu⟩
  | object fields ih =>
    rw [inLiteral, inFields_eq_flatMap]
    refine (Enumerates.branches field_injective fun f hf => ih f hf _).congr fun path u => ⟨?_, ?_⟩
    · rintro ⟨n, ⟨name, value⟩, rest, hfield, rfl, hu⟩
      exact .field hfield (expectedField_iff.mpr rfl) hu
    · intro h
      cases h with
      | field hfield hexpected hu =>
        rw [expectedField_iff.mp hexpected] at hu
        exact ⟨_, _, _, hfield, rfl, hu⟩

/-! ### Arguments and directives -/

/-- The uses in arguments for given parameters. -/
def InArgumentsAt (schema : Schema) (position : Position) (parameters? : Option (List InputValue))
    (list : List Argument) (path : List Step) (u : VariableUse) : Prop :=
  ∃ n a rest expected?, list[n]? = some a ∧ Step.argument n :: rest = path ∧
    ExpectedOf a.name parameters? expected? ∧ InLiteralAt schema position expected? a.value rest u

/-- The uses in directives. -/
def InDirectivesAt (schema : Schema) (list : List Directive) (path : List Step) (u : VariableUse) :
    Prop :=
  ∃ n d rest, list[n]? = some d ∧ Step.directive n :: rest = path ∧
    InArgumentsAt schema d.position ((schema.directive? d.name).map (·.parameters)) d.arguments rest
      u

theorem enumerates_inArguments (schema : Schema) (position : Position)
    {parameter? : String → Option InputValue} {parameters? : Option (List InputValue)}
    (hparameter : ∀ name, parameter? name = parameters?.bind (·.find? (·.name = name)))
    (list : List Argument) :
    Enumerates (inArguments schema position parameter? list)
      (InArgumentsAt schema position parameters? list) := by
  refine (Enumerates.branches argument_injective fun a _ =>
    enumerates_inLiteral schema position _ a.value).congr fun path u => ?_
  simp only [InArgumentsAt, expectedOf_iff, hparameter]
  constructor
  · rintro ⟨n, a, rest, ha, hpath, hu⟩
    exact ⟨n, a, rest, _, ha, hpath, rfl, hu⟩
  · rintro ⟨n, a, rest, _, ha, hpath, rfl, hu⟩
    exact ⟨n, a, rest, ha, hpath, hu⟩

theorem enumerates_inDirectives (schema : Schema) (list : List Directive) :
    Enumerates (inDirectives schema list) (InDirectivesAt schema list) := by
  refine Enumerates.branches directive_injective fun d _ => ?_
  refine enumerates_inArguments schema d.position (fun name => ?_) d.arguments
  cases schema.directive? d.name <;> rfl

theorem enumerates_inField (schema : Schema) (definition? : Option FieldDefinition)
    (node : Field) :
    Enumerates (inField schema definition? node)
      (InArgumentsAt schema node.position (definition?.map (·.parameters)) node.arguments) := by
  refine enumerates_inArguments schema node.position (fun name => ?_) node.arguments
  cases definition? <;> rfl

/-! ### Selections -/

/-- The uses in a selection from a type, apart from those in a fragment that it refers to. -/
inductive InSelectionAt (schema : Schema) :
    Option TypeDefinition → Selection → List Step → VariableUse → Prop where
  /-- In an argument of a field. -/
  | argument {parent? : Option TypeDefinition} {node : Field} {span : Span} {own : List Selection}
      {path : List Step} {u : VariableUse} :
      InArgumentsAt schema node.position
        ((parent?.bind (schema.selectedField? · node.name)).map (·.parameters)) node.arguments
        path u →
      InSelectionAt schema parent? (.field node span own) path u
  /-- In a directive. -/
  | directive {parent? : Option TypeDefinition} {item : Selection} {path : List Step}
      {u : VariableUse} :
      InDirectivesAt schema item.directives path u → InSelectionAt schema parent? item path u
  /-- In the own set of a field. -/
  | field {parent? : Option TypeDefinition} {node : Field} {span : Span} {own : List Selection}
      {n : ℕ} {item : Selection} {path : List Step} {u : VariableUse} :
      own[n]? = some item → InSelectionAt schema (node.type? schema parent?) item path u →
      InSelectionAt schema parent? (.field node span own) (.selection n :: path) u
  /-- In the set of an inline fragment. -/
  | inline {parent? : Option TypeDefinition} {node : InlineFragment} {span : Span}
      {own : List Selection} {n : ℕ} {item : Selection} {path : List Step} {u : VariableUse} :
      own[n]? = some item → InSelectionAt schema (node.type? schema parent?) item path u →
      InSelectionAt schema parent? (.inline node span own) (.selection n :: path) u

/-- The uses in the selections of a set. -/
def InSetAt (schema : Schema) (parent? : Option TypeDefinition) (items : List Selection)
    (path : List Step) (u : VariableUse) : Prop :=
  ∃ n item rest, items[n]? = some item ∧ Step.selection n :: rest = path ∧
    InSelectionAt schema parent? item rest u

mutual

/-- The uses in a selection from a type, in the order of the text. -/
def usesInSelection (schema : Schema) (parent? : Option TypeDefinition) :
    Selection → List VariableUse
  | .field node _ own =>
    inField schema (parent?.bind (schema.selectedField? · node.name)) node ++
      inDirectives schema node.directives ++ usesInSet schema (node.type? schema parent?) own
  | .spread node => inDirectives schema node.directives
  | .inline node _ own =>
    inDirectives schema node.directives ++ usesInSet schema (node.type? schema parent?) own

/-- The uses in the selections of a set, in the order of the text. -/
def usesInSet (schema : Schema) (parent? : Option TypeDefinition) :
    List Selection → List VariableUse
  | [] => []
  | item :: rest => usesInSelection schema parent? item ++ usesInSet schema parent? rest

end

theorem usesInSet_eq_flatMap (schema : Schema) (parent? : Option TypeDefinition)
    (items : List Selection) :
    usesInSet schema parent? items = items.flatMap (usesInSelection schema parent?) := by
  induction items with
  | nil => rfl
  | cons item rest ih => rw [usesInSet, ih, List.flatMap_cons]

theorem enumerates_usesInSelection (schema : Schema) (parent? : Option TypeDefinition)
    (item : Selection) :
    Enumerates (usesInSelection schema parent? item) (InSelectionAt schema parent? item) := by
  induction item using Selection.set_induction generalizing parent? with
  | field node span own ih =>
    have hset := Enumerates.branches selection_injective fun item hitem =>
      ih item hitem (node.type? schema parent?)
    rw [usesInSelection, usesInSet_eq_flatMap]
    refine (((enumerates_inField schema _ node).append
      (enumerates_inDirectives schema node.directives) ?_).append hset ?_).congr fun path u => ?_
    · rintro path u v ⟨n, a, rest, _, -, rfl, -⟩ ⟨m, d, rest', -, ⟨⟩, -⟩
    · rintro path u v (⟨n, a, rest, _, -, rfl, -⟩ | ⟨n, d, rest, -, rfl, -⟩)
        ⟨m, item, rest', -, ⟨⟩, -⟩
    · constructor
      · rintro ((hargument | hdirective) | ⟨n, item, rest, hitem, rfl, hu⟩)
        · exact .argument hargument
        · exact .directive hdirective
        · exact .field hitem hu
      · intro h
        cases h with
        | argument hargument => exact .inl (.inl hargument)
        | directive hdirective => exact .inl (.inr hdirective)
        | field hitem hu => exact .inr ⟨_, _, _, hitem, rfl, hu⟩
  | spread node =>
    rw [usesInSelection]
    refine (enumerates_inDirectives schema node.directives).congr fun path u =>
      ⟨fun h => .directive h, fun h => ?_⟩
    cases h with
    | directive hdirective => exact hdirective
  | inline node span own ih =>
    have hset := Enumerates.branches selection_injective fun item hitem =>
      ih item hitem (node.type? schema parent?)
    rw [usesInSelection, usesInSet_eq_flatMap]
    refine ((enumerates_inDirectives schema node.directives).append hset ?_).congr fun path u => ?_
    · rintro path u v ⟨n, d, rest, -, rfl, -⟩ ⟨m, item, rest', -, ⟨⟩, -⟩
    · constructor
      · rintro (hdirective | ⟨n, item, rest, hitem, rfl, hu⟩)
        · exact .directive hdirective
        · exact .inline hitem hu
      · intro h
        cases h with
        | directive hdirective => exact .inl hdirective
        | inline hitem hu => exact .inr ⟨_, _, _, hitem, rfl, hu⟩

theorem enumerates_usesInSet (schema : Schema) (parent? : Option TypeDefinition)
    (items : List Selection) :
    Enumerates (usesInSet schema parent? items) (InSetAt schema parent? items) := by
  rw [usesInSet_eq_flatMap]
  exact Enumerates.branches selection_injective fun item _ =>
    enumerates_usesInSelection schema parent? item

end VariableUse

end GraphQLCheck
