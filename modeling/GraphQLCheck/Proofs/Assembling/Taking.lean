import GraphQLCheck.Proofs.WellFormed

/-!
# Taking up definitions

Definitions of several files are taken up one by one, and each is checked against what was
registered before it. `Assembly.Admits` says when all of these checks pass, and `Assembly.taking`
what has been registered then: the types and directives at the end of the old ones, the extensions
in line, and the root types that were named. One step is `addDefinition_ok_iff`, the whole run is
`addAll_ok_iff`.
-/

namespace GraphQLCheck

/-- A definition with the name of the file that it stands in. -/
abbrev Entry := String × Sdl.Definition

/-- The parts of a certain sort that entries have, each with its file. -/
def sorted {α : Type} (choose : Sdl.Definition → Option α) (entries : List Entry) :
    List (String × α) :=
  entries.filterMap fun e => (choose e.2).map (e.1, ·)

section Sorted

variable {α : Type} (choose : Sdl.Definition → Option α)

@[simp] theorem sorted_nil : sorted choose [] = [] := rfl

@[simp] theorem sorted_append (before after : List Entry) :
    sorted choose (before ++ after) = sorted choose before ++ sorted choose after :=
  List.filterMap_append

theorem map_snd_sorted (entries : List Entry) :
    (sorted choose entries).map (·.2) = (entries.map (·.2)).filterMap choose := by
  simp only [sorted, List.map_filterMap, List.filterMap_map]
  congr 1
  funext e
  simp [Function.comp_def]

end Sorted

/-! ### Root types -/

namespace Roots

/-- The root type that is named for a kind of operation. -/
def get (r : Roots) : OperationKind → Option RootDefinition
  | .query => r.query?
  | .mutation => r.mutation?
  | .subscription => r.subscription?

/-- Root types given by kind. -/
def ofKind (root? : OperationKind → Option RootDefinition) : Roots :=
  ⟨root? .query, root? .mutation, root? .subscription⟩

@[simp] theorem get_ofKind (root? : OperationKind → Option RootDefinition) (kind : OperationKind) :
    (ofKind root?).get kind = root? kind := by
  cases kind <;> rfl

theorem ofKind_get (r : Roots) : ofKind r.get = r := rfl

/-- The names of the root types of a kind: one or none. -/
def names (r : Roots) (kind : OperationKind) : List String :=
  (r.get kind).toList.map (·.typeName)

/-- Different kinds of operation have different root types. -/
def Apart (names : OperationKind → List String) : Prop :=
  ∀ first second, ∀ name ∈ names first, name ∈ names second → first = second

/-- It is enough to compare each two kinds once. -/
theorem apart_iff {names : OperationKind → List String} :
    Apart names ↔ (∀ x ∈ names .query, x ∉ names .mutation) ∧
      (∀ x ∈ names .query, x ∉ names .subscription) ∧
      ∀ x ∈ names .mutation, x ∉ names .subscription := by
  constructor
  · intro h
    refine ⟨fun x hx hx' => ?_, fun x hx hx' => ?_, fun x hx hx' => ?_⟩
    · cases h _ _ x hx hx'
    · cases h _ _ x hx hx'
    · cases h _ _ x hx hx'
  · rintro ⟨hqm, hqs, hms⟩ first second x hx hx'
    cases first <;> cases second <;> first | rfl | skip
    · exact absurd hx' (hqm x hx)
    · exact absurd hx' (hqs x hx)
    · exact absurd hx (hqm x hx')
    · exact absurd hx' (hms x hx)
    · exact absurd hx (hqs x hx')
    · exact absurd hx (hms x hx')

end Roots

namespace Assembly

/-- The root type that a block in a file names for a kind of operation. -/
def rootOf? (kind : OperationKind) (e : String × Sdl.RootNode) : Option RootDefinition :=
  (e.2.name? kind).map (RootDefinition.mk · (.source e.1 e.2.position))

/-- The type that a definition in a file makes by itself. -/
def typeOf (e : String × Sdl.TypeNode) : TypeDefinition :=
  ⟨e.2.name, .source e.1 e.2.position, .ofParts e.1 e.2.parts⟩

/-- The directive that a definition in a file makes. -/
def directiveOf (e : String × Sdl.DirectiveNode) : DirectiveDefinition :=
  ⟨e.2.name, parametersOf e.1 e.2.parameters, e.2.repeatable, e.2.locations,
    .source e.1 e.2.position⟩

/-- An assembly with entries taken up. -/
def taking (a : Assembly) (entries : List Entry) : Assembly where
  types := a.types ++ (sorted Sdl.Definition.type? entries).map typeOf
  directives := a.directives ++ (sorted Sdl.Definition.directive? entries).map directiveOf
  roots := .ofKind fun kind =>
    ((a.roots.get kind).toList ++
      (sorted Sdl.Definition.roots? entries).filterMap (rootOf? kind)).head?
  extensions := a.extensions ++ sorted Sdl.Definition.extension? entries

/-- Definitions that can be taken up. -/
@[mk_iff]
structure Admits (a : Assembly) (definitions : List Sdl.Definition) : Prop where
  /-- Each type can be taken up by itself. -/
  types : ∀ node ∈ Sdl.typeNodes definitions,
    isReserved node.name = false ∧ node.parts ≠ .enum [] ∧ Sdl.Distinct [node.parts]
  /-- Types have different names. -/
  typeNames : (a.types.map (·.name) ++ (Sdl.typeNodes definitions).map (·.name)).Nodup
  /-- Each directive can be taken up by itself. -/
  directives : ∀ node ∈ Sdl.directiveNodes definitions,
    node.name ∉ DirectiveDefinition.builtins.map (·.name) ∧ isReserved node.name = false
  /-- Directives have different names. -/
  directiveNames :
    (a.directives.map (·.name) ++ (Sdl.directiveNodes definitions).map (·.name)).Nodup
  /-- The root type of a kind is named at most once. -/
  rootsOnce : ∀ kind, (a.roots.names kind ++ Sdl.rootNames definitions kind).length ≤ 1
  /-- Root types are different. -/
  rootsApart : Roots.Apart fun kind => a.roots.names kind ++ Sdl.rootNames definitions kind

theorem clean_ofParts_iff {file : String} {parts : Sdl.TypeParts} :
    (TypeBody.ofParts file parts).Clean ↔ Sdl.Distinct [parts] := by
  simp [TypeBody.clean_iff, Sdl.distinct_iff, List.map_map, Function.comp_def, fieldOf, enumValueOf,
    inputValueOf]

/-! ### One definition -/

theorem addType_ok_iff {a b : Assembly} {file : String} {node : Sdl.TypeNode} :
    a.addType file node = .ok b ↔
      (isReserved node.name = false ∧ node.parts ≠ .enum [] ∧ Sdl.Distinct [node.parts]) ∧
        node.name ∉ a.types.map (·.name) ∧
        b = { a with types := a.types ++ [typeOf (file, node)] } := by
  unfold addType
  cases hreserved : isReserved node.name with
  | true => simp [throw, throwThe, MonadExceptOf.throw, bind, Except.bind]
  | false =>
    simp only [Bool.false_eq_true, ↓reduceIte, bind_succeeds_iff, bodyOf_ok_iff, clean_ofParts_iff,
      References.find?, ← find?_name_eq_none_iff, true_and]
    cases hfind : a.types.find? (·.name = node.name) with
    | none =>
      simp only [true_and, pure, Except.pure, Except.ok.injEq]
      constructor
      · rintro ⟨body, ⟨henum, hdistinct, rfl⟩, rfl⟩
        exact ⟨⟨henum, hdistinct⟩, rfl⟩
      · rintro ⟨⟨henum, hdistinct⟩, rfl⟩
        exact ⟨_, ⟨henum, hdistinct, rfl⟩, rfl⟩
    | some existing =>
      simp [throw, throwThe, MonadExceptOf.throw]

theorem addDirective_ok_iff {a b : Assembly} {file : String} {node : Sdl.DirectiveNode} :
    a.addDirective file node = .ok b ↔
      (node.name ∉ DirectiveDefinition.builtins.map (·.name) ∧ isReserved node.name = false) ∧
        node.name ∉ a.directives.map (·.name) ∧
        b = { a with directives := a.directives ++ [directiveOf (file, node)] } := by
  have hbuiltin : DirectiveDefinition.builtins.any (·.name = node.name) = true ↔
      node.name ∈ DirectiveDefinition.builtins.map (·.name) := by simp
  simp only [addDirective, hbuiltin]
  by_cases hmem : node.name ∈ DirectiveDefinition.builtins.map (·.name)
  · simp only [hmem, if_true, reduceCtorEq, not_true_eq_false, false_and]
  · cases isReserved node.name with
    | true => simp [hmem]
    | false =>
      simp only [hmem, if_false, Bool.false_eq_true, not_false_eq_true, true_and]
      rw [← find?_name_eq_none_iff]
      cases hfind : a.directives.find? (·.name = node.name) with
      | none =>
        simp only [true_and, Except.ok.injEq, directiveOf]
        exact eq_comm
      | some existing => simp only [reduceCtorEq, false_and]

theorem nameRoot_ok_iff {kind : OperationKind} {location : Location}
    {existing? result? : Option RootDefinition} {name? : Option String} :
    nameRoot kind location existing? name? = .ok result? ↔
      (existing?.toList.map (·.typeName) ++ name?.toList).length ≤ 1 ∧
        result? =
          (existing?.toList ++ (name?.map (RootDefinition.mk · location)).toList).head? := by
  cases existing? <;> cases name? <;> simp [nameRoot, eq_comm]

theorem checkDistinct_ok_iff {first second : OperationKind}
    {root₁? root₂? : Option RootDefinition} :
    checkDistinct first second root₁? root₂? = .ok () ↔
      ∀ x ∈ root₁?.toList.map (·.typeName), x ∉ root₂?.toList.map (·.typeName) := by
  cases root₁? <;> cases root₂? <;> simp [checkDistinct]

/-- The root types after a block has been taken up. -/
def rootsWith (a : Assembly) (file : String) (node : Sdl.RootNode) (kind : OperationKind) :
    List RootDefinition :=
  (a.roots.get kind).toList ++ (rootOf? kind (file, node)).toList

theorem map_rootsWith (a : Assembly) (file : String) (node : Sdl.RootNode) (kind : OperationKind) :
    (a.rootsWith file node kind).map (·.typeName) =
      a.roots.names kind ++ (node.name? kind).toList := by
  rw [rootsWith, List.map_append, Roots.names, rootOf?]
  cases node.name? kind <;> rfl

/-- At most one root type is all that there is of its kind. -/
theorem toList_head?_of_length_le {α : Type} {list : List α} (h : list.length ≤ 1) :
    list.head?.toList = list := by
  match list, h with
  | [], _ => rfl
  | [a], _ => rfl

/-- A block of root types can be taken up if afterwards each kind has at most one root type and
different kinds have different ones. -/
theorem addRoots_ok_iff {a b : Assembly} {file : String} {node : Sdl.RootNode} :
    a.addRoots file node = .ok b ↔
      ((∀ kind, (a.roots.names kind ++ (node.name? kind).toList).length ≤ 1) ∧
        Roots.Apart fun kind => a.roots.names kind ++ (node.name? kind).toList) ∧
      b = { a with roots := .ofKind fun kind => (a.rootsWith file node kind).head? } := by
  have hname (kind : OperationKind) (result? : Option RootDefinition) :
      nameRoot kind (.source file node.position) (a.roots.get kind) (node.name? kind) =
        .ok result? ↔
      (a.roots.names kind ++ (node.name? kind).toList).length ≤ 1 ∧
        result? = (a.rootsWith file node kind).head? := nameRoot_ok_iff
  have hapart (honce : ∀ kind, (a.roots.names kind ++ (node.name? kind).toList).length ≤ 1)
      (first second : OperationKind) :
      checkDistinct first second (a.rootsWith file node first).head?
        (a.rootsWith file node second).head? = .ok () ↔
      ∀ x ∈ a.roots.names first ++ (node.name? first).toList,
        x ∉ a.roots.names second ++ (node.name? second).toList := by
    have hlist (kind : OperationKind) : (a.rootsWith file node kind).head?.toList =
        a.rootsWith file node kind := by
      have := honce kind
      rw [← map_rootsWith a file, List.length_map] at this
      exact toList_head?_of_length_le this
    rw [checkDistinct_ok_iff, hlist, hlist, map_rootsWith, map_rootsWith]
  simp only [addRoots, bind_succeeds_iff]
  constructor
  · rintro ⟨_, hq, _, hm, _, hs, ⟨⟩, hqm, ⟨⟩, hqs, ⟨⟩, hms, hb⟩
    obtain ⟨hquery, rfl⟩ := (hname .query _).mp hq
    obtain ⟨hmutation, rfl⟩ := (hname .mutation _).mp hm
    obtain ⟨hsubscription, rfl⟩ := (hname .subscription _).mp hs
    have honce : ∀ kind, (a.roots.names kind ++ (node.name? kind).toList).length ≤ 1 := by
      intro kind
      cases kind with
      | query => exact hquery
      | mutation => exact hmutation
      | subscription => exact hsubscription
    refine ⟨⟨honce, Roots.apart_iff.mpr ⟨?_, ?_, ?_⟩⟩, (Except.ok.inj hb).symm⟩
    · exact (hapart honce _ _).mp hqm
    · exact (hapart honce _ _).mp hqs
    · exact (hapart honce _ _).mp hms
  · rintro ⟨⟨honce, hdistinct⟩, rfl⟩
    obtain ⟨hqm, hqs, hms⟩ := Roots.apart_iff.mp hdistinct
    exact ⟨_, (hname .query _).mpr ⟨honce _, rfl⟩, _, (hname .mutation _).mpr ⟨honce _, rfl⟩,
      _, (hname .subscription _).mpr ⟨honce _, rfl⟩, (), (hapart honce _ _).mpr hqm,
      (), (hapart honce _ _).mpr hqs, (), (hapart honce _ _).mpr hms, rfl⟩

section Taking

variable (a : Assembly) (file : String)

theorem taking_type (node : Sdl.TypeNode) :
    a.taking [(file, .type node)] = { a with types := a.types ++ [typeOf (file, node)] } := by
  simp [taking, sorted, Sdl.Definition.type?, Sdl.Definition.directive?, Sdl.Definition.roots?,
    Sdl.Definition.extension?, Roots.ofKind_get]

theorem taking_extension (node : Sdl.TypeNode) :
    a.taking [(file, .extension node)] =
      { a with extensions := a.extensions ++ [(file, node)] } := by
  simp [taking, sorted, Sdl.Definition.type?, Sdl.Definition.directive?, Sdl.Definition.roots?,
    Sdl.Definition.extension?, Roots.ofKind_get]

theorem taking_directive (node : Sdl.DirectiveNode) :
    a.taking [(file, .directive node)] =
      { a with directives := a.directives ++ [directiveOf (file, node)] } := by
  simp [taking, sorted, Sdl.Definition.type?, Sdl.Definition.directive?, Sdl.Definition.roots?,
    Sdl.Definition.extension?, Roots.ofKind_get]

theorem taking_roots (node : Sdl.RootNode) :
    a.taking [(file, .roots node)] =
      { a with roots := .ofKind fun kind => (a.rootsWith file node kind).head? } := by
  simp [taking, sorted, Sdl.Definition.type?, Sdl.Definition.directive?, Sdl.Definition.roots?,
    Sdl.Definition.extension?, rootsWith]

end Taking

theorem nodup_append_singleton_iff {names : List String} {name : String} (h : names.Nodup) :
    (names ++ [name]).Nodup ↔ name ∉ names := by
  rw [← List.concat_eq_append, List.nodup_concat]
  exact and_iff_left h

/-- A definition is taken up if it is admitted. -/
theorem addDefinition_ok_iff {a b : Assembly} (ha : a.Admits []) {file : String}
    {definition : Sdl.Definition} :
    a.addDefinition file definition = .ok b ↔
      a.Admits [definition] ∧ b = a.taking [(file, definition)] := by
  obtain ⟨hnone, htypes, hnone', hdirectives, honce, hapart⟩ := ha
  have hnames : (a.types.map (·.name)).Nodup := by simpa using htypes.of_append_left
  have hdirectiveNames : (a.directives.map (·.name)).Nodup := by
    simpa using hdirectives.of_append_left
  cases definition with
  | type node =>
    rw [addDefinition, addType_ok_iff, taking_type]
    constructor
    · rintro ⟨hnode, hname, rfl⟩
      exact ⟨⟨List.forall_mem_singleton.mpr hnode, (nodup_append_singleton_iff hnames).mpr hname,
        hnone', hdirectives, honce, hapart⟩, rfl⟩
    · rintro ⟨h, rfl⟩
      exact ⟨h.types node List.mem_cons_self,
        (nodup_append_singleton_iff hnames).mp h.typeNames, rfl⟩
  | extension node =>
    rw [taking_extension]
    constructor
    · rintro ⟨⟩
      exact ⟨⟨hnone, htypes, hnone', hdirectives, honce, hapart⟩, rfl⟩
    · rintro ⟨-, rfl⟩
      rfl
  | directive node =>
    rw [addDefinition, addDirective_ok_iff, taking_directive]
    constructor
    · rintro ⟨hnode, hname, rfl⟩
      exact ⟨⟨hnone, htypes, List.forall_mem_singleton.mpr hnode,
        (nodup_append_singleton_iff hdirectiveNames).mpr hname, honce, hapart⟩, rfl⟩
    · rintro ⟨h, rfl⟩
      exact ⟨h.directives node List.mem_cons_self,
        (nodup_append_singleton_iff hdirectiveNames).mp h.directiveNames, rfl⟩
  | roots node =>
    have hroots (kind : OperationKind) :
        Sdl.rootNames [.roots node] kind = (node.name? kind).toList := by
      change [node].filterMap (·.name? kind) = _
      rw [List.filterMap_cons]
      cases node.name? kind <;> rfl
    rw [addDefinition, addRoots_ok_iff, taking_roots]
    constructor
    · rintro ⟨⟨hnodeOnce, hnodeApart⟩, rfl⟩
      refine ⟨⟨hnone, htypes, hnone', hdirectives, ?_, ?_⟩, rfl⟩
      · simpa only [hroots] using hnodeOnce
      · simpa only [hroots] using hnodeApart
    · rintro ⟨h, rfl⟩
      refine ⟨⟨?_, ?_⟩, rfl⟩
      · simpa only [hroots] using h.rootsOnce
      · simpa only [hroots] using h.rootsApart

/-! ### All definitions -/

theorem taking_nil (a : Assembly) : a.taking [] = a := by
  simp [taking, Roots.ofKind_get]

theorem taking_append (a : Assembly) (before after : List Entry) :
    a.taking (before ++ after) = (a.taking before).taking after := by
  simp [taking, Option.or_assoc]

theorem map_name_taking_types (a : Assembly) (entries : List Entry) :
    (a.taking entries).types.map (·.name) =
      a.types.map (·.name) ++ (Sdl.typeNodes (entries.map (·.2))).map (·.name) := by
  rw [taking, List.map_append, Sdl.typeNodes, ← map_snd_sorted, List.map_map, List.map_map]
  rfl

theorem map_name_taking_directives (a : Assembly) (entries : List Entry) :
    (a.taking entries).directives.map (·.name) =
      a.directives.map (·.name) ++ (Sdl.directiveNodes (entries.map (·.2))).map (·.name) := by
  rw [taking, List.map_append, Sdl.directiveNodes, ← map_snd_sorted, List.map_map, List.map_map]
  rfl

/-- The root types that entries name for a kind of operation. -/
theorem map_typeName_rootOf? (entries : List Entry) (kind : OperationKind) :
    ((sorted Sdl.Definition.roots? entries).filterMap (rootOf? kind)).map (·.typeName) =
      Sdl.rootNames (entries.map (·.2)) kind := by
  rw [Sdl.rootNames, ← map_snd_sorted, List.map_filterMap, List.filterMap_map]
  congr 1
  funext e
  simp [rootOf?, Function.comp_def]

theorem names_taking {a : Assembly} {entries : List Entry} {kind : OperationKind}
    (h : (a.roots.names kind ++ Sdl.rootNames (entries.map (·.2)) kind).length ≤ 1) :
    (a.taking entries).roots.names kind =
      a.roots.names kind ++ Sdl.rootNames (entries.map (·.2)) kind := by
  simp only [← map_typeName_rootOf?, Roots.names, ← List.map_append, List.length_map] at h ⊢
  rw [taking, Roots.get_ofKind, toList_head?_of_length_le h]

/-- Definitions are admitted one after another. -/
theorem admits_append_iff {a : Assembly} {entries : List Entry}
    {definitions : List Sdl.Definition} :
    a.Admits (entries.map (·.2) ++ definitions) ↔
      a.Admits (entries.map (·.2)) ∧ (a.taking entries).Admits definitions := by
  have htypeNodes : Sdl.typeNodes (entries.map (·.2) ++ definitions) =
      Sdl.typeNodes (entries.map (·.2)) ++ Sdl.typeNodes definitions := List.filterMap_append
  have hdirectiveNodes : Sdl.directiveNodes (entries.map (·.2) ++ definitions) =
      Sdl.directiveNodes (entries.map (·.2)) ++ Sdl.directiveNodes definitions :=
    List.filterMap_append
  have hrootNames (kind : OperationKind) : Sdl.rootNames (entries.map (·.2) ++ definitions) kind =
      Sdl.rootNames (entries.map (·.2)) kind ++ Sdl.rootNames definitions kind := by
    simp [Sdl.rootNames]
  constructor
  · rintro ⟨htypes, htypeNames, hdirectives, hdirectiveNames, honce, hapart⟩
    simp only [htypeNodes, hdirectiveNodes, hrootNames, List.forall_mem_append, List.map_append,
      ← List.append_assoc] at htypes htypeNames hdirectives hdirectiveNames honce hapart
    have honce' (kind : OperationKind) :
        (a.roots.names kind ++ Sdl.rootNames (entries.map (·.2)) kind).length ≤ 1 := by
      have := honce kind
      rw [List.length_append] at this
      omega
    refine ⟨⟨htypes.1, htypeNames.of_append_left, hdirectives.1, hdirectiveNames.of_append_left,
      honce', fun first second name hfirst hsecond => ?_⟩, htypes.2, ?_, hdirectives.2, ?_, ?_, ?_⟩
    · exact hapart first second name (List.mem_append_left _ hfirst)
        (List.mem_append_left _ hsecond)
    · rwa [map_name_taking_types]
    · rwa [map_name_taking_directives]
    · intro kind
      rw [names_taking (honce' kind)]
      exact honce kind
    · simp only [names_taking (honce' _)]
      exact hapart
  · rintro ⟨⟨htypes, -, hdirectives, -, honce, -⟩, hafter⟩
    obtain ⟨htypes', htypeNames, hdirectives', hdirectiveNames, honce', hapart⟩ := hafter
    rw [map_name_taking_types] at htypeNames
    rw [map_name_taking_directives] at hdirectiveNames
    simp only [names_taking (honce _)] at honce' hapart
    constructor <;>
      simp only [htypeNodes, hdirectiveNodes, hrootNames, List.forall_mem_append, List.map_append,
        ← List.append_assoc]
    · exact ⟨htypes, htypes'⟩
    · exact htypeNames
    · exact ⟨hdirectives, hdirectives'⟩
    · exact hdirectiveNames
    · exact honce'
    · exact hapart

/-- What is admitted leaves a sound assembly. -/
theorem Admits.taking {a : Assembly} {entries : List Entry} (h : a.Admits (entries.map (·.2))) :
    (a.taking entries).Admits [] := by
  rw [← List.append_nil (entries.map (·.2)), admits_append_iff] at h
  exact h.2

/-- Definitions are all taken up if they are admitted. -/
theorem addAll_ok_iff {a b : Assembly} (ha : a.Admits []) {entries : List Entry} :
    entries.foldlM (fun a e => a.addDefinition e.1 e.2) a = .ok b ↔
      a.Admits (entries.map (·.2)) ∧ b = a.taking entries := by
  induction entries generalizing a with
  | nil => simp [taking_nil, ha, pure, Except.pure, eq_comm]
  | cons e entries ih =>
    have hcons : a.Admits ((e :: entries).map (·.2)) ↔
        a.Admits [e.2] ∧ (a.taking [e]).Admits (entries.map (·.2)) := by
      simpa using @admits_append_iff a [e] (entries.map (·.2))
    have htaking : a.taking (e :: entries) = (a.taking [e]).taking entries :=
      taking_append a [e] entries
    rw [List.foldlM_cons, bind_succeeds_iff, hcons, htaking]
    constructor
    · rintro ⟨middle, hfirst, hrest⟩
      obtain ⟨hadmits, rfl⟩ := (addDefinition_ok_iff ha).mp hfirst
      obtain ⟨hadmitsRest, rfl⟩ := (ih (@Admits.taking a [e] hadmits)).mp hrest
      exact ⟨⟨hadmits, hadmitsRest⟩, rfl⟩
    · rintro ⟨⟨hadmits, hrest⟩, rfl⟩
      exact ⟨_, (addDefinition_ok_iff ha).mpr ⟨hadmits, rfl⟩,
        (ih (@Admits.taking a [e] hadmits)).mpr ⟨hrest, rfl⟩⟩

end Assembly

end GraphQLCheck
