import GraphQLCheck.Coercion
import GraphQLCheck.Proofs.BuiltSchemas
import GraphQLCheck.Schema.Subtyping
import GraphQLCheck.Usage

/-!
# Values for variables

A literal is checked with its variables let through, and what a variable may stand for is checked
where it is used, against the type expected there. Here the two are put together: a literal without
faults stays so when its variables are replaced by values that have none at the types expected of
them.

## What is proved

* `faults_of_isSubtype` — a value of a type is a value of each type that it is a subtype of, if that
  is one of values that can be given.
* `faults_subst` — replacing variables by such values adds no fault. It does not matter whether the
  types that a schema mentions are known, only that the fields of an input object are told apart by
  their names (`faults_subst_of_distinct`).
* `closed_subst` — no variable is left if all were replaced by literals without variables.
-/

namespace GraphQLCheck

namespace Literal

/-! ### Literals and their parts -/

/-- Induction over a literal, all its parts at once. -/
theorem parts_induction {P : Literal → Prop} (atom : ∀ a, P (.atom a))
    (list : ∀ items, (∀ v ∈ items, P v) → P (.list items))
    (object : ∀ fields, (∀ f ∈ fields, P f.2) → P (.object fields)) (v : Literal) : P v := by
  cases v with
  | atom a => exact atom a
  | list items =>
    refine list items fun v hv => ?_
    exact parts_induction atom list object v
  | object fields =>
    refine object fields fun f hf => ?_
    have hlt : sizeOf f.2 < 1 + sizeOf fields := by
      have hsize := List.sizeOf_lt_of_mem hf
      obtain ⟨name, value⟩ := f
      simp only [Prod.mk.sizeOf_spec] at hsize ⊢
      omega
    exact parts_induction atom list object f.2

mutual

/-- Whether there is no variable in a literal. -/
def closed : Literal → Bool
  | .atom (.var _) => false
  | .atom _ => true
  | .list items => closedItems items
  | .object fields => closedFields fields

/-- Whether there is no variable in the items of a list. -/
def closedItems : List Literal → Bool
  | [] => true
  | item :: rest => item.closed && closedItems rest

/-- Whether there is no variable in the fields of an object. -/
def closedFields : List (String × Literal) → Bool
  | [] => true
  | (_, value) :: rest => value.closed && closedFields rest

end

mutual

/-- The literal with its variables replaced by the values that they are assigned. -/
def subst (assign : String → Option Literal) : Literal → Literal
  | .atom (.var name) => (assign name).getD (.atom (.var name))
  | .atom a => .atom a
  | .list items => .list (substItems assign items)
  | .object fields => .object (substFields assign fields)

/-- The items of a list with their variables replaced. -/
def substItems (assign : String → Option Literal) : List Literal → List Literal
  | [] => []
  | item :: rest => item.subst assign :: substItems assign rest

/-- The fields of an object with their variables replaced. -/
def substFields (assign : String → Option Literal) :
    List (String × Literal) → List (String × Literal)
  | [] => []
  | (name, value) :: rest => (name, value.subst assign) :: substFields assign rest

end

variable {assign : String → Option Literal}

theorem closedItems_eq_true {items : List Literal} :
    closedItems items = true ↔ ∀ v ∈ items, v.closed = true := by
  induction items with
  | nil => simp [closedItems]
  | cons item rest ih => simp [closedItems, ih]

theorem closedFields_eq_true {fields : List (String × Literal)} :
    closedFields fields = true ↔ ∀ f ∈ fields, f.2.closed = true := by
  induction fields with
  | nil => simp [closedFields]
  | cons field rest ih => simp [closedFields, ih]

theorem substItems_eq_map (assign : String → Option Literal) (items : List Literal) :
    substItems assign items = items.map (subst assign) := by
  induction items with
  | nil => rfl
  | cons item rest ih => rw [substItems, ih, List.map_cons]

theorem substFields_eq_map (assign : String → Option Literal) (fields : List (String × Literal)) :
    substFields assign fields = fields.map fun f => (f.1, f.2.subst assign) := by
  induction fields with
  | nil => rfl
  | cons field rest ih => rw [substFields, ih, List.map_cons]

/-- A field is found where it was after all values have been changed. -/
theorem lookup_map_values {α β : Type} (change : α → β) (fields : List (String × α))
    (name : String) :
    (fields.map fun f => (f.1, change f.2)).lookup name = (fields.lookup name).map change := by
  induction fields with
  | nil => rfl
  | cons field rest ih =>
    rw [List.map_cons, List.lookup_cons, List.lookup_cons]
    cases name == field.1 with
    | true => rfl
    | false => exact ih

theorem mem_of_lookup {α : Type} {fields : List (String × α)} {name : String} {value : α}
    (h : fields.lookup name = some value) : (name, value) ∈ fields := by
  obtain ⟨before, after, rfl, -⟩ := List.lookup_eq_some_iff.mp h
  exact List.mem_append_right before List.mem_cons_self

end Literal

/-! ### Checks of parts -/

namespace Coercion

variable {schema : Schema}

theorem itemFaults_eq_nil_iff {index : ℕ} {items : List Literal} {type : TypeRef} :
    itemFaults schema index items type = [] ↔ ∀ v ∈ items, faults schema v type = [] := by
  induction items generalizing index with
  | nil => simp [itemFaults]
  | cons item rest ih => simp [itemFaults, ih]

theorem fieldChecks_eq_map (schema : Schema) (fields : List (String × Literal)) :
    fieldChecks schema fields = fields.map fun f => (f.1, faults schema f.2) := by
  induction fields with
  | nil => rfl
  | cons field rest ih => rw [fieldChecks, ih, List.map_cons]

/-- A type that takes a literal with parts takes every literal. -/
theorem acceptsLeaf_of_parts {t : TypeDefinition} {v : Literal} (h : acceptsLeaf t v = true)
    (hparts : ∀ a, v ≠ .atom a) (w : Literal) : acceptsLeaf t w = true := by
  obtain ⟨name, location, body⟩ := t
  cases v with
  | atom a => exact absurd rfl (hparts a)
  | list items =>
    cases body with
    | builtin scalar => cases scalar <;> cases h
    | enum values => cases h
    | inputObject fields => cases h
    | scalar | object _ _ | interface _ _ | union _ => rfl
  | object fields =>
    cases body with
    | builtin scalar => cases scalar <;> cases h
    | enum values => cases h
    | inputObject fields => cases h
    | scalar | object _ _ | interface _ _ | union _ => rfl

end Coercion

/-! ### Subtypes -/

theorem TypeDefinition.isAbstract_of_isInput (t : TypeDefinition) (h : t.isInput = true) :
    t.isAbstract = false := by
  unfold isInput at h
  unfold isAbstract
  cases hkind : t.kind <;> rw [hkind] at h <;> first | rfl | cases h

namespace Schema

variable {schema : Schema} {name other : String} {sub sup : TypeRef}

/-- The type of a name is known and its values can be given. -/
def TakesValues (schema : Schema) (name : String) : Prop :=
  ∃ t, schema.type? name = some t ∧ t.isInput = true

/-- Types whose values can be given have no subtypes but themselves. -/
theorem TakesValues.eq_of_isSubtypeName (h : schema.TakesValues name)
    (hsub : schema.isSubtypeName other name = true) : other = name := by
  obtain ⟨t, ht, hinput⟩ := h
  by_contra hne
  rw [isSubtypeName, if_neg hne, ht] at hsub
  cases hother : schema.type? other with
  | none =>
    rw [hother] at hsub
    cases hsub
  | some u =>
    simp only [hother, decide_eq_true_eq] at hsub
    obtain ⟨-, habstract, -⟩ := hsub
    rw [t.isAbstract_of_isInput hinput] at habstract
    cases habstract

theorem TakesValues.innermost_eq (h : schema.TakesValues sup.innermost)
    (hsub : sub.isSubtype schema sup = true) : sub.innermost = sup.innermost := by
  induction sub generalizing sup with
  | named other n =>
    cases sup with
    | list item m => cases hsub
    | named name m =>
      simp only [TypeRef.isSubtype, decide_eq_true_eq] at hsub
      rcases hsub with ⟨-, rfl⟩ | ⟨-, hname⟩
      · rfl
      · exact h.eq_of_isSubtypeName hname
  | list subItem n ih =>
    cases sup with
    | named name m => cases hsub
    | list item m =>
      simp only [TypeRef.isSubtype, decide_eq_true_eq] at hsub
      rcases hsub with ⟨-, rfl⟩ | ⟨-, hitem⟩
      · rfl
      · have heq : subItem.innermost = item.innermost := ih h hitem
        exact heq

end Schema

namespace Coercion

variable {schema : Schema}

theorem nullable_of_isSubtype {sub sup : TypeRef} (hsub : sub.isSubtype schema sup = true)
    (h : sub.nullable = true) : sup.nullable = true := by
  cases sub <;> cases sup <;>
    simp only [TypeRef.isSubtype, decide_eq_true_eq, Bool.false_eq_true] at hsub
  all_goals
    simp only [TypeRef.nullable] at h ⊢
    subst h
    rcases hsub with ⟨rfl, -⟩ | ⟨hm, -⟩
    · rfl
    · simpa using hm

/-- A value of a type is a value of each type that it is a subtype of. -/
theorem faults_of_isSubtype {sub sup : TypeRef} {v : Literal}
    (h : schema.TakesValues sup.innermost) (hsub : sub.isSubtype schema sup = true)
    (hv : faults schema v sub = []) : faults schema v sup = [] := by
  have hname := h.innermost_eq hsub
  induction v using Literal.parts_induction generalizing sub sup with
  | atom a =>
    cases a with
    | var name => rfl
    | null =>
      simp only [faults] at hv ⊢
      split_ifs at hv with hnull
      rw [if_pos (nullable_of_isSubtype hsub hnull)]
    | int _ | float _ | string _ | bool _ | enum _ =>
      simp only [faults, hname] at hv ⊢
      exact hv
  | list items ih =>
    cases sub with
    | named other n =>
      cases sup with
      | named name m =>
        obtain rfl : other = name := hname
        exact hv
      | list item m => cases hsub
    | list subItem n =>
      cases sup with
      | named name m => cases hsub
      | list item m =>
        have hinner : schema.TakesValues item.innermost := h
        simp only [faults, itemFaults_eq_nil_iff] at hv ⊢
        simp only [TypeRef.isSubtype, decide_eq_true_eq] at hsub
        rcases hsub with ⟨-, rfl⟩ | ⟨-, hitem⟩
        · exact hv
        · exact fun v hmem => ih v hmem hinner hitem (hv v hmem) (hinner.innermost_eq hitem)
  | object fields ih =>
    simp only [faults, hname] at hv ⊢
    exact hv

end Coercion

/-! ### Types expected of variables -/

namespace VariableUse

variable {schema : Schema} {position : Position} {expected? : Option TypeRef}

theorem inItems_eq_flatMap (schema : Schema) (position : Position) (expected? : Option TypeRef)
    (items : List Literal) :
    inItems schema position expected? items =
      items.flatMap (inLiteral schema position expected?) := by
  induction items with
  | nil => rfl
  | cons item rest ih => rw [inItems, ih, List.flatMap_cons]

theorem inFields_eq_flatMap (schema : Schema) (position : Position) (expected? : Option TypeRef)
    (fields : List (String × Literal)) :
    inFields schema position expected? fields =
      fields.flatMap fun f => inLiteral schema position (fieldType? schema expected? f.1) f.2 := by
  induction fields with
  | nil => rfl
  | cons field rest ih => rw [inFields, ih, List.flatMap_cons]

theorem innermost_itemType (type : TypeRef) : (itemType type).innermost = type.innermost := by
  cases type <;> rfl

theorem takesValues_fieldType? (h : schema.Closed) {name : String} {type : TypeRef}
    (htype : fieldType? schema expected? name = some type) :
    schema.TakesValues type.innermost := by
  obtain ⟨t, ht, hfield⟩ := Option.bind_eq_some_iff.mp htype
  obtain ⟨expected, -, ht⟩ := Option.bind_eq_some_iff.mp ht
  obtain ⟨p, hp, rfl⟩ := Option.map_eq_some_iff.mp hfield
  obtain ⟨fields, hfields, hp⟩ := Option.bind_eq_some_iff.mp hp
  exact h.inputField (List.mem_of_find?_eq_some ht) hfields (List.mem_of_find?_eq_some hp)

/-- The types expected of the variables in a literal are of values that can be given, if that of the
literal is. -/
theorem takesValues_of_mem_inLiteral (h : schema.Closed) {v : Literal}
    (hexpected : ∀ type, expected? = some type → schema.TakesValues type.innermost)
    {u : VariableUse} (hu : u ∈ inLiteral schema position expected? v) :
    ∀ type, u.expected? = some type → schema.TakesValues type.innermost := by
  induction v using Literal.parts_induction generalizing expected? with
  | atom a =>
    cases a with
    | var name =>
      obtain rfl := List.mem_singleton.mp hu
      exact hexpected
    | int _ | float _ | string _ | bool _ | null | enum _ => cases hu
  | list items ih =>
    rw [inLiteral, inItems_eq_flatMap] at hu
    obtain ⟨v, hv, hu⟩ := List.mem_flatMap.mp hu
    refine ih v hv (fun type htype => ?_) hu
    obtain ⟨outer, houter, rfl⟩ := Option.map_eq_some_iff.mp htype
    rw [innermost_itemType]
    exact hexpected outer houter
  | object fields ih =>
    rw [inLiteral, inFields_eq_flatMap] at hu
    obtain ⟨f, hf, hu⟩ := List.mem_flatMap.mp hu
    exact ih f hf (fun type htype => takesValues_fieldType? h htype) hu

end VariableUse

/-! ### Substitution -/

namespace Coercion

open VariableUse

variable {schema : Schema} {assign : String → Option Literal} {position : Position}

theorem fieldFaults_eq_nil_iff {fields : List (String × Literal)} {p : InputValue} :
    fieldFaults (fieldChecks schema fields) p = [] ↔
      (∀ value, fields.lookup p.name = some value → faults schema value p.type = []) ∧
        (fields.lookup p.name = none → p.type.nullable = true ∨ p.default?.isSome = true) := by
  rw [fieldFaults, List.map_eq_nil_iff, fieldChecks_eq_map, Literal.lookup_map_values]
  cases fields.lookup p.name with
  | none =>
    by_cases hmissing : p.type.nullable = true ∨ p.default?.isSome = true
    · simp [hmissing]
    · simp [hmissing]
  | some value => simp

/-- An object is a value of an input object if all its fields are fields of that, with values of
their types, and those that it leaves out may be missing. -/
theorem objectFaults_eq_nil_iff {name : String} {t : TypeDefinition} {parameters : List InputValue}
    (ht : schema.type? name = some t) (hbody : t.body = .inputObject parameters) {v : Literal}
    {fields : List (String × Literal)} :
    objectFaults schema name v (fieldChecks schema fields) = [] ↔
      (∀ f ∈ fields, ∃ p ∈ parameters, p.name = f.1) ∧
        ∀ p ∈ parameters,
          (∀ value, fields.lookup p.name = some value → faults schema value p.type = []) ∧
            (fields.lookup p.name = none → p.type.nullable = true ∨ p.default?.isSome = true) := by
  simp only [objectFaults, ht, hbody, List.append_eq_nil_iff, List.map_eq_nil_iff,
    List.flatMap_eq_nil_iff, fieldFaults_eq_nil_iff]
  refine and_congr_left fun _ => ?_
  rw [List.filter_eq_nil_iff, fieldChecks_eq_map, List.forall_mem_map]
  simp

/-- A variable in a literal is assigned a value of the type that is expected of it. -/
def Assigned (schema : Schema) (assign : String → Option Literal) (u : VariableUse) : Prop :=
  ∃ value, assign u.name = some value ∧
    ∀ expected, u.expected? = some expected → faults schema value expected = []

/-- A type that takes a list without looking at its items takes every literal. -/
theorem namedFaults_of_list {name : String} {items : List Literal}
    (h : namedFaults schema name (.list items) = []) (w : Literal) :
    namedFaults schema name w = [] := by
  unfold namedFaults at h ⊢
  cases ht : schema.type? name with
  | none => rfl
  | some t =>
    rw [ht] at h
    dsimp only at h ⊢
    split at h
    · cases h
    · split_ifs at h with haccepts
      rw [if_pos (acceptsLeaf_of_parts haccepts (fun a h => by cases h) w)]

/-- A type that takes an object without being an input object takes every object. -/
theorem objectFaults_of_leaf {name : String} {t : TypeDefinition}
    (ht : schema.type? name = some t) (hbody : ∀ parameters, t.body ≠ .inputObject parameters)
    {fields : List (String × Literal)} {provided : List (String × Check)}
    (h : objectFaults schema name (.object fields) provided = []) (w : Literal)
    (other : List (String × Check)) : objectFaults schema name w other = [] := by
  cases hkind : t.body with
  | inputObject parameters => exact absurd hkind (hbody parameters)
  | builtin _ | scalar | object _ _ | interface _ _ | union _ | enum _ =>
    simp only [objectFaults, ht, hkind] at h ⊢
    split_ifs at h with haccepts
    rw [if_pos (acceptsLeaf_of_parts haccepts (fun a h => by cases h) w)]

/-- What is expected of the value of a field of an input object is the type of that field, because
there is one field of its name. -/
theorem fieldType?_of_mem (hdistinct : ∀ t ∈ schema.types, t.body.Distinct) {type : TypeRef}
    {t : TypeDefinition} {parameters : List InputValue} (ht : schema.type? type.innermost = some t)
    (hbody : t.body = .inputObject parameters) {p : InputValue} (hp : p ∈ parameters) :
    fieldType? schema (some type) p.name = some p.type := by
  have hnames := hdistinct t (List.mem_of_find?_eq_some ht)
  rw [hbody] at hnames
  have hfind := find?_of_nodup hnames hp
  simp [fieldType?, ht, TypeDefinition.inputField?, TypeDefinition.inputFields?, hbody, hfind]

/-- What a variable in a literal is assigned, if anything, is a value of the type that is expected of
it, if that is known. -/
def Suits (schema : Schema) (assign : String → Option Literal) (u : VariableUse) : Prop :=
  ∀ value expected, assign u.name = some value → u.expected? = some expected →
    faults schema value expected = []

theorem Assigned.suits {u : VariableUse} (h : Assigned schema assign u) :
    Suits schema assign u := by
  intro value expected hvalue hexpected
  obtain ⟨assigned, hassigned, haccepted⟩ := h
  obtain rfl := Option.some.inj (hassigned.symm.trans hvalue)
  exact haccepted expected hexpected

/-- Replacing some variables by values of the types that are expected of them adds no fault. -/
theorem faults_subst_of_distinct (hdistinct : ∀ t ∈ schema.types, t.body.Distinct) {type : TypeRef}
    {v : Literal} (hv : faults schema v type = [])
    (huses : ∀ u ∈ inLiteral schema position (some type) v, Suits schema assign u) :
    faults schema (v.subst assign) type = [] := by
  induction v using Literal.parts_induction generalizing type with
  | atom a =>
    cases a with
    | var name =>
      have hsuits := huses _ List.mem_cons_self
      rw [Literal.subst]
      cases hvalue : assign name with
      | none => rfl
      | some value => exact hsuits value type hvalue rfl
    | int _ | float _ | string _ | bool _ | null | enum _ => exact hv
  | list items ih =>
    rw [inLiteral, inItems_eq_flatMap] at huses
    rw [Literal.subst, Literal.substItems_eq_map]
    cases type with
    | list item n =>
      simp only [faults, itemFaults_eq_nil_iff] at hv ⊢
      intro w hw
      obtain ⟨v, hmem, rfl⟩ := List.mem_map.mp hw
      exact ih v hmem (hv v hmem) fun u hu => huses u (List.mem_flatMap.mpr ⟨v, hmem, hu⟩)
    | named name n =>
      simp only [faults] at hv ⊢
      exact namedFaults_of_list hv _
  | object fields ih =>
    rw [inLiteral, inFields_eq_flatMap] at huses
    rw [Literal.subst, Literal.substFields_eq_map]
    simp only [faults] at hv ⊢
    cases ht : schema.type? type.innermost with
    | none => simp only [objectFaults, ht]
    | some t =>
      by_cases hinput : ∃ parameters, t.body = .inputObject parameters
      · obtain ⟨parameters, hbody⟩ := hinput
        rw [objectFaults_eq_nil_iff ht hbody] at hv ⊢
        obtain ⟨hknown, hparameters⟩ := hv
        refine ⟨?_, fun p hp => ⟨?_, ?_⟩⟩
        · intro f hf
          obtain ⟨g, hg, rfl⟩ := List.mem_map.mp hf
          exact hknown g hg
        · intro w hw
          rw [Literal.lookup_map_values] at hw
          obtain ⟨value, hvalue, rfl⟩ := Option.map_eq_some_iff.mp hw
          have hmem := Literal.mem_of_lookup hvalue
          refine ih _ hmem ((hparameters p hp).1 value hvalue) fun u hu => ?_
          refine huses u (List.mem_flatMap.mpr ⟨_, hmem, ?_⟩)
          rw [fieldType?_of_mem hdistinct ht hbody hp]
          exact hu
        · intro hnone
          rw [Literal.lookup_map_values, Option.map_eq_none_iff] at hnone
          exact (hparameters p hp).2 hnone
      · have hleaf := not_exists.mp hinput
        exact objectFaults_of_leaf ht hleaf hv _ _

/-- Replacing variables by values of the types that are expected of them adds no fault. -/
theorem faults_subst (hclosed : schema.Closed) {type : TypeRef} {v : Literal}
    (hv : faults schema v type = [])
    (huses : ∀ u ∈ inLiteral schema position (some type) v, Assigned schema assign u) :
    faults schema (v.subst assign) type = [] :=
  faults_subst_of_distinct hclosed.registry.distinct hv fun u hu => (huses u hu).suits

/-- No variable is left if all are assigned literals without variables. -/
theorem closed_subst {v : Literal} (schema : Schema) (position : Position)
    (expected? : Option TypeRef)
    (huses : ∀ u ∈ inLiteral schema position expected? v,
      ∃ value, assign u.name = some value ∧ value.closed = true) :
    (v.subst assign).closed = true := by
  induction v using Literal.parts_induction generalizing expected? with
  | atom a =>
    cases a with
    | var name =>
      obtain ⟨value, hvalue, hclosed⟩ := huses _ List.mem_cons_self
      rw [Literal.subst, hvalue]
      exact hclosed
    | int _ | float _ | string _ | bool _ | null | enum _ => rfl
  | list items ih =>
    rw [inLiteral, inItems_eq_flatMap] at huses
    rw [Literal.subst, Literal.substItems_eq_map, Literal.closed, Literal.closedItems_eq_true]
    intro w hw
    obtain ⟨v, hmem, rfl⟩ := List.mem_map.mp hw
    exact ih v hmem _ fun u hu => huses u (List.mem_flatMap.mpr ⟨v, hmem, hu⟩)
  | object fields ih =>
    rw [inLiteral, inFields_eq_flatMap] at huses
    rw [Literal.subst, Literal.substFields_eq_map, Literal.closed, Literal.closedFields_eq_true]
    intro g hg
    obtain ⟨f, hmem, rfl⟩ := List.mem_map.mp hg
    exact ih f hmem _ fun u hu => huses u (List.mem_flatMap.mpr ⟨f, hmem, hu⟩)

end Coercion

/-! ### Literals of any type -/

/-- A literal that is accepted at a type is accepted at it after variables have been replaced by
literals that are accepted at the types expected of these variables, where these are known. The
fields of an input object have different names; nothing else is asked of the schema. No variable is
left if all of them were replaced by literals without variables. -/
theorem literal_accepted_after_substitution (schema : Schema)
    (hdistinct : ∀ t ∈ schema.types, t.body.Distinct) (type : TypeRef) (v : Literal)
    (hv : Coercion.faults schema v type = []) (position : Position)
    (assign : String → Option Literal)
    (hassign : ∀ u ∈ VariableUse.inLiteral schema position (some type) v, ∀ value expected,
      assign u.name = some value → u.expected? = some expected →
        Coercion.faults schema value expected = []) :
    Coercion.faults schema (v.subst assign) type = [] ∧
      ((∀ u ∈ VariableUse.inLiteral schema position (some type) v,
          ∃ value, assign u.name = some value ∧ value.closed = true) →
        (v.subst assign).closed = true) :=
  ⟨Coercion.faults_subst_of_distinct hdistinct hv hassign,
    Coercion.closed_subst schema position (some type)⟩

/-- An input object that has fields of its own type, and a field with such a parameter. -/
def treeTypes : List Sdl.Definition :=
  [.type ⟨⟨1, 1⟩, "Tree", .inputObject
      [⟨⟨1, 14⟩, "value", .named "Int" false, none⟩,
        ⟨⟨1, 26⟩, "children", .list (.named "Tree" false) true, none⟩]⟩,
    .type ⟨⟨2, 1⟩, "Query", .object []
      [⟨⟨2, 14⟩, "size", [⟨⟨2, 19⟩, "tree", .named "Tree" true, none⟩], .named "Int" true, []⟩]⟩]

/-- The schema of these definitions. -/
def treeSchema : Schema := (Schema.ofDefinitions "tree" treeTypes).toOption.getD default

theorem built_treeSchema : treeSchema.Built := by
  have hbuild : Schema.ofDefinitions "tree" treeTypes = .ok treeSchema := rfl
  exact Schema.built_of_ofDefinitions hbuild

/-- A tree with variables for a number and for a tree. A single child stands for a list. -/
def treeLiteral : Literal :=
  .object
    [("children", .object
        [("children", .list [.atom (.var "t"), .object [("value", .atom (.var "n"))]]),
          ("value", .atom (.int 1))]),
      ("value", .atom (.var "n"))]

/-- A number and a tree. -/
def treeValues (name : String) : Option Literal :=
  if name = "n" then some (.atom (.int 3))
  else if name = "t" then some (.object [("value", .atom (.int 4))]) else none

/-- A tree inside a tree inside a tree. -/
theorem tree_accepted_after_substitution :
    Coercion.faults treeSchema treeLiteral (.named "Tree" false) = [] ∧
      Coercion.faults treeSchema (treeLiteral.subst treeValues) (.named "Tree" false) = [] ∧
      (treeLiteral.subst treeValues).closed = true := by
  have huse {u : VariableUse}
      (hu : u ∈ VariableUse.inLiteral treeSchema ⟨1, 1⟩ (some (.named "Tree" false)) treeLiteral) :
      u = ⟨"t", some (.named "Tree" false), ⟨1, 1⟩⟩ ∨
        u = ⟨"n", some (.named "Int" false), ⟨1, 1⟩⟩ := by
    have huses : VariableUse.inLiteral treeSchema ⟨1, 1⟩ (some (.named "Tree" false)) treeLiteral =
        [⟨"t", some (.named "Tree" false), ⟨1, 1⟩⟩, ⟨"n", some (.named "Int" false), ⟨1, 1⟩⟩,
          ⟨"n", some (.named "Int" false), ⟨1, 1⟩⟩] := rfl
    simpa [huses] using hu
  have hnumber : treeValues "n" = some (.atom (.int 3)) := rfl
  have htree : treeValues "t" = some (.object [("value", .atom (.int 4))]) := rfl
  obtain ⟨haccepted, hclosed⟩ := literal_accepted_after_substitution treeSchema
    built_treeSchema.closed.registry.distinct (.named "Tree" false) treeLiteral rfl ⟨1, 1⟩ treeValues
    (by
      intro u hu value expected hvalue hexpected
      rcases huse hu with rfl | rfl
      · obtain rfl := Option.some.inj (htree.symm.trans hvalue)
        obtain rfl := Option.some.inj hexpected
        rfl
      · obtain rfl := Option.some.inj (hnumber.symm.trans hvalue)
        obtain rfl := Option.some.inj hexpected
        rfl)
  refine ⟨rfl, haccepted, hclosed fun u hu => ?_⟩
  rcases huse hu with rfl | rfl
  · exact ⟨_, htree, rfl⟩
  · exact ⟨_, hnumber, rfl⟩

end GraphQLCheck
