import GraphQLCheck.Proofs.Reports
import GraphQLCheck.Proofs.Sets
import GraphQLCheck.Proofs.Subtypes

/-!
# Types that overlap

Whether two types overlap is looked up in the index of possible types, in one of four ways. What is
meant is that some object type satisfies both, as the schema texts declare it: an object type
satisfies itself, the interfaces that it declares in its definition or in an extension, and the
unions that list it (`Sdl.Satisfies`).

The index was made from the registry, and the registry from the texts. What is needed of both is put
together in `Schema.Indexed`, which holds of every built schema.

## What is proved

* `indexed_built` — registry and index of a built schema belong together.
* `Indexed.overlap_iff` — types overlap if they are the same or some object type is of both.
* `satisfies_iff` — an object type is of the types that it satisfies.
* `types_overlap_as_declared` — which types overlap, and which fragments are reported.
-/

namespace GraphQLCheck

open Assembly

/-! ### Registry and index -/

/-- The types of a schema and its index of possible types belong together. -/
structure Schema.Indexed (s : Schema) : Prop where
  /-- Types have different names. -/
  names : (s.types.map (·.name)).Nodup
  /-- What is declared to be implemented is an interface. -/
  interface : ∀ t ∈ s.types, ∀ name ∈ t.interfaces, ∃ i ∈ s.types,
    i.name = name ∧ i.kind = .interface
  /-- No interface is declared twice. -/
  once : ∀ t ∈ s.types, t.interfaces.Nodup
  /-- Members of unions are object types. -/
  member : ∀ t ∈ s.types, ∀ name ∈ t.body.members, ∃ u ∈ s.types,
    u.name = name ∧ u.kind = .object
  /-- Possible are the object types that declare an interface and those that a union lists. -/
  possible_iff : ∀ name object, object ∈ s.possibleTypes name ↔
    (∃ u ∈ s.types, u.kind = .object ∧ u.name = object ∧ name ∈ u.interfaces) ∨
      ∃ t ∈ s.types, t.kind = .union ∧ t.name = name ∧ object ∈ t.body.members
  /-- No possible type is repeated. -/
  possibleOnce : ∀ name, (s.possibleTypes name).Nodup

theorem Assembly.indexed_built {entries : List Entry}
    (hloose : Sdl.LooselyWellFormed (entries.map (·.2))) : (loaded entries).built.Indexed where
  names := nodup_finalTypes hloose
  interface t ht name hname := exists_interface hloose ht (t.interfaces_eq ▸ hname)
  once t ht := by
    rw [t.interfaces_eq]
    exact (clean_finalTypes hloose t ht).interfaces
  member t ht name hname := by
    obtain ⟨u, hfind, hkind⟩ := (finalTypes_bear hloose t ht).members name hname
    obtain ⟨hu, hname⟩ := (References.find?_eq_some_iff (nodup_finalTypes hloose)).mp hfind
    exact ⟨u, hu, hname, of_decide_eq_true hkind⟩
  possible_iff name object := by
    rw [possibleTypes_built hloose, List.mem_flatMap]
    simp only [mem_possibleFor_iff, ← TypeDefinition.kind_eq, ← TypeDefinition.interfaces_eq]
    constructor
    · rintro ⟨t, ht, ⟨hkind, hdeclared, rfl⟩ | ⟨hkind, rfl, hmember⟩⟩
      · exact .inl ⟨t, ht, hkind, rfl, hdeclared⟩
      · exact .inr ⟨t, ht, hkind, rfl, hmember⟩
    · rintro (⟨t, ht, hkind, rfl, hdeclared⟩ | ⟨t, ht, hkind, rfl, hmember⟩)
      · exact ⟨t, ht, .inl ⟨hkind, hdeclared, rfl⟩⟩
      · exact ⟨t, ht, .inr ⟨hkind, rfl, hmember⟩⟩
  possibleOnce := nodup_possibleTypes hloose

theorem Schema.Built.indexed {s : Schema} (h : s.Built) : s.Indexed := by
  obtain ⟨files, hfiles⟩ := h.exists_files
  obtain ⟨hloose, rfl⟩ := ofFiles_eq_ok_iff.mp hfiles
  rw [← map_snd_entries] at hloose
  exact indexed_built hloose

namespace TypeDefinition

variable {t : TypeDefinition}

theorem isAbstract_iff : t.isAbstract = true ↔ t.kind = .interface ∨ t.kind = .union := by
  rw [isAbstract]
  cases t.kind <;> simp [TypeKind.isAbstract]

/-- A composite type is an object type or abstract. -/
theorem kind_eq_object_of_composite (hcomposite : t.isComposite = true)
    (habstract : t.isAbstract = false) : t.kind = .object := by
  rw [isComposite] at hcomposite
  rw [isAbstract] at habstract
  cases hkind : t.kind with
  | object => rfl
  | interface | union => simp [hkind, TypeKind.isAbstract] at habstract
  | scalar | enum | inputObject => simp [hkind, TypeKind.isComposite] at hcomposite

end TypeDefinition

/-- An object type is of a type if it is that type or possible for it. -/
def Schema.IsOf (s : Schema) (object : String) (t : TypeDefinition) : Prop :=
  t.name = object ∨ object ∈ s.possibleTypes t.name

namespace Schema.Indexed

variable {s : Schema} {a b t u : TypeDefinition} {name object : String}

theorem type?_eq_some_iff (h : s.Indexed) : s.type? name = some t ↔ t ∈ s.types ∧ t.name = name :=
  References.find?_eq_some_iff h.names

theorem eq_of_name (h : s.Indexed) (ha : a ∈ s.types) (hb : b ∈ s.types) (hname : a.name = b.name) :
    a = b :=
  eq_of_name_eq h.names ha hb hname

/-- What is possible is an object type. -/
theorem exists_object (h : s.Indexed) (hpossible : object ∈ s.possibleTypes name) :
    ∃ u ∈ s.types, u.name = object ∧ u.kind = .object := by
  rcases (h.possible_iff name object).mp hpossible with
    ⟨u, hu, hkind, hname, -⟩ | ⟨t, ht, -, -, hmem⟩
  · exact ⟨u, hu, hname, hkind⟩
  · exact h.member t ht object hmem

/-- Something is possible for abstract types only. -/
theorem isAbstract_of_possible (h : s.Indexed) (ht : t ∈ s.types)
    (hpossible : object ∈ s.possibleTypes t.name) : t.isAbstract = true := by
  rw [TypeDefinition.isAbstract_iff]
  rcases (h.possible_iff t.name object).mp hpossible with
    ⟨u, hu, -, -, hdeclared⟩ | ⟨v, hv, hkind, hname, -⟩
  · obtain ⟨i, hi, hname, hkind⟩ := h.interface u hu t.name hdeclared
    exact .inl (h.eq_of_name hi ht hname ▸ hkind)
  · exact .inr (h.eq_of_name hv ht hname ▸ hkind)

theorem isOf_abstract_iff (h : s.Indexed) (ht : t ∈ s.types) (habstract : t.isAbstract = true)
    (hu : u ∈ s.types) (hkind : u.kind = .object) :
    s.IsOf u.name t ↔ u.name ∈ s.possibleTypes t.name := by
  refine or_iff_right fun hname => ?_
  rw [h.eq_of_name ht hu hname, TypeDefinition.isAbstract_iff, hkind] at habstract
  simp at habstract

theorem isOf_object_iff (h : s.Indexed) (ht : t ∈ s.types) (habstract : t.isAbstract = false) :
    s.IsOf object t ↔ t.name = object := by
  refine or_iff_left fun hpossible => ?_
  rw [h.isAbstract_of_possible ht hpossible] at habstract
  cases habstract

/-- Types overlap if they are the same or some object type is of both. -/
theorem overlap_iff (h : s.Indexed) (ha : a ∈ s.types) (hb : b ∈ s.types)
    (hca : a.isComposite = true) (hcb : b.isComposite = true) :
    s.overlap a b = true ↔
      a = b ∨ ∃ u ∈ s.types, u.kind = .object ∧ s.IsOf u.name a ∧ s.IsOf u.name b := by
  by_cases hname : a.name = b.name
  · simp [overlap, h.eq_of_name ha hb hname]
  · have hne : a ≠ b := fun heq => hname (congrArg TypeDefinition.name heq)
    rw [overlap, if_neg hname, or_iff_right hne]
    cases haa : a.isAbstract with
    | true =>
      cases hba : b.isAbstract with
      | true =>
        simp only [List.any_eq_true, isPossible, List.contains_eq_mem, decide_eq_true_eq]
        constructor
        · rintro ⟨object, hpa, hpb⟩
          obtain ⟨u, hu, rfl, hkind⟩ := h.exists_object hpa
          exact ⟨u, hu, hkind, .inr hpa, .inr hpb⟩
        · rintro ⟨u, hu, hkind, hpa, hpb⟩
          exact ⟨u.name, (h.isOf_abstract_iff ha haa hu hkind).mp hpa,
            (h.isOf_abstract_iff hb hba hu hkind).mp hpb⟩
      | false =>
        simp only [isPossible, List.contains_eq_mem, decide_eq_true_eq]
        constructor
        · intro hpa
          exact ⟨b, hb, b.kind_eq_object_of_composite hcb hba, .inr hpa, .inl rfl⟩
        · rintro ⟨u, hu, hkind, hpa, hpb⟩
          rw [(h.isOf_object_iff hb hba).mp hpb]
          exact (h.isOf_abstract_iff ha haa hu hkind).mp hpa
    | false =>
      cases hba : b.isAbstract with
      | true =>
        simp only [isPossible, List.contains_eq_mem, decide_eq_true_eq]
        constructor
        · intro hpb
          exact ⟨a, ha, a.kind_eq_object_of_composite hca haa, .inl rfl, .inr hpb⟩
        · rintro ⟨u, hu, hkind, hpa, hpb⟩
          rw [(h.isOf_object_iff ha haa).mp hpa]
          exact (h.isOf_abstract_iff hb hba hu hkind).mp hpb
      | false =>
        simp only [Bool.false_eq_true, false_iff]
        rintro ⟨u, -, -, hpa, hpb⟩
        rw [h.isOf_object_iff ha haa] at hpa
        rw [h.isOf_object_iff hb hba] at hpb
        exact hname (hpa.trans hpb.symm)

end Schema.Indexed

/-! ### What the texts declare -/

namespace Sdl

/-- An object type satisfies a type. -/
inductive Satisfies (definitions : List Definition) (object : String) : String → Prop where
  /-- It satisfies itself. -/
  | itself : Satisfies definitions object object
  /-- It satisfies the interfaces that are declared in its definition or in an extension of it. -/
  | interface {node : TypeNode} {name : String} :
      node ∈ typeNodes definitions ++ extensionNodes definitions → node.name = object →
      name ∈ node.parts.interfaces → Satisfies definitions object name
  /-- It satisfies the unions of which it is listed as a member, in their definition or in an
  extension of them. -/
  | union {node : TypeNode} :
      node ∈ typeNodes definitions ++ extensionNodes definitions → object ∈ node.parts.members →
      Satisfies definitions object node.name

/-- Some object type satisfies two types. -/
def Meet (definitions : List Definition) (a b : String) : Prop :=
  ∃ object, Names definitions (· = .object) object ∧ Satisfies definitions object a ∧
    Satisfies definitions object b

end Sdl

namespace Assembly

variable {entries : List Entry} (hloose : Sdl.LooselyWellFormed (entries.map (·.2)))
include hloose

/-- A type of the schema has what its definition and its extensions give it. -/
theorem mem_part_iff {part : TypeBody → List String} {given : Sdl.TypeParts → List String}
    (hmerge : ∀ {body other : TypeBody}, body.kind = other.kind →
      part (body.merge other) = part body ++ part other)
    (hgiven : ∀ file parts, part (.ofParts file parts) = given parts)
    (hbuiltin : ∀ scalar, part (.builtin scalar) = []) {t : TypeDefinition}
    (ht : t ∈ (loaded entries).finalTypes) (name : String) :
    name ∈ part t.body ↔ ∃ node ∈ Sdl.typeNodes (entries.map (·.2)) ++
      Sdl.extensionNodes (entries.map (·.2)), node.name = t.name ∧ name ∈ given node.parts := by
  rcases mem_finalTypes_iff.mp ht with ⟨scalar, hscalar, rfl⟩ | ⟨e, he, rfl⟩
  · rw [body_extended_builtin, hbuiltin]
    refine iff_of_false List.not_mem_nil ?_
    rintro ⟨node, hnode, hname, -⟩
    -- Nothing is defined under the name of a builtin scalar, so nothing can extend it.
    have hdefined : ∃ other ∈ Sdl.typeNodes (entries.map (·.2)), other.name = node.name := by
      rcases List.mem_append.mp hnode with hnode | hnode
      · exact ⟨node, hnode, rfl⟩
      · obtain ⟨other, hother, hsame, -⟩ := hloose.extensions node hnode
        exact ⟨other, hother, hsame⟩
    obtain ⟨other, hother, hsame⟩ := hdefined
    exact (hloose.newTypes other hother).1
      (List.mem_map.mpr ⟨scalar, hscalar, (hsame.trans hname).symm⟩)
  · rw [part_extended (fitting_of_loose hloose he) hmerge]
    simp only [hgiven, List.mem_flatMap, ownEntries, List.mem_cons, List.mem_filter,
      decide_eq_true_eq, List.mem_append]
    constructor
    · rintro ⟨x, rfl | ⟨hx, hname⟩, hmem⟩
      · exact ⟨x.2, .inl (mem_typeNodes he), rfl, hmem⟩
      · refine ⟨x.2, .inr ?_, hname, hmem⟩
        rw [Sdl.extensionNodes, ← map_snd_sorted]
        exact List.mem_map_of_mem hx
    · rintro ⟨node, hnode | hnode, hname, hmem⟩
      · obtain rfl : node = e.2 :=
          List.inj_on_of_nodup_map hloose.typeNames hnode (mem_typeNodes he) hname
        exact ⟨e, .inl rfl, hmem⟩
      · rw [Sdl.extensionNodes, ← map_snd_sorted] at hnode
        obtain ⟨x, hx, rfl⟩ := List.mem_map.mp hnode
        exact ⟨x, .inr ⟨hx, hname⟩, hmem⟩

/-- An object type is of a type of the schema if it satisfies it. -/
theorem satisfies_iff {t u : TypeDefinition} (ht : t ∈ (loaded entries).finalTypes)
    (hu : u ∈ (loaded entries).finalTypes) (hkind : u.kind = .object) :
    Sdl.Satisfies (entries.map (·.2)) u.name t.name ↔
      (loaded entries).built.IsOf u.name t := by
  have hindexed := indexed_built hloose
  have hinterfaces {v : TypeDefinition} (hv : v ∈ (loaded entries).finalTypes) (name : String) :=
    mem_part_iff hloose TypeBody.interfaces_merge TypeBody.interfaces_ofParts (fun _ => rfl) hv name
  have hmembers {v : TypeDefinition} (hv : v ∈ (loaded entries).finalTypes) (name : String) :=
    mem_part_iff hloose TypeBody.members_merge TypeBody.members_ofParts (fun _ => rfl) hv name
  rw [Schema.IsOf, hindexed.possible_iff]
  constructor
  · intro h
    generalize hname : t.name = name at h
    cases h with
    | itself => exact .inl rfl
    | interface hnode hown hdeclared =>
      refine .inr (.inl ⟨u, hu, hkind, rfl, ?_⟩)
      rw [u.interfaces_eq, hinterfaces hu]
      exact ⟨_, hnode, hown, hdeclared⟩
    | union hnode hmember =>
      have hmem : u.name ∈ t.body.members := (hmembers ht _).mpr ⟨_, hnode, hname.symm, hmember⟩
      refine .inr (.inr ⟨t, ht, ?_, hname, hmem⟩)
      obtain ⟨typeName, location, body⟩ := t
      cases body with
      | union members => rfl
      | _ => cases hmem
  · rintro (hname | ⟨v, hv, -, hsame, hdeclared⟩ | ⟨v, hv, -, hsame, hmember⟩)
    · exact hname ▸ .itself
    · rw [v.interfaces_eq, hinterfaces hv] at hdeclared
      obtain ⟨node, hnode, hown, hdeclared⟩ := hdeclared
      exact .interface hnode (hown.trans hsame) hdeclared
    · obtain ⟨node, hnode, hown, hmember⟩ := (hmembers hv _).mp hmember
      rw [← hsame, ← hown]
      exact .union hnode hmember

theorem meet_iff {a b : TypeDefinition} (ha : a ∈ (loaded entries).finalTypes)
    (hb : b ∈ (loaded entries).finalTypes) :
    Sdl.Meet (entries.map (·.2)) a.name b.name ↔ ∃ u ∈ (loaded entries).finalTypes,
      u.kind = .object ∧ (loaded entries).built.IsOf u.name a ∧
        (loaded entries).built.IsOf u.name b := by
  constructor
  · rintro ⟨object, hobject, hsa, hsb⟩
    obtain ⟨u, hfind, hkind⟩ :=
      (resolves_loaded_iff (nodup_names_of_loose hloose)).mpr hobject
    obtain ⟨hu, rfl⟩ := (References.find?_eq_some_iff (nodup_finalTypes hloose)).mp hfind
    have hkind : u.kind = .object := of_decide_eq_true hkind
    exact ⟨u, hu, hkind, (satisfies_iff hloose ha hu hkind).mp hsa,
      (satisfies_iff hloose hb hu hkind).mp hsb⟩
  · rintro ⟨u, hu, hkind, hoa, hob⟩
    refine ⟨u.name, ?_, (satisfies_iff hloose ha hu hkind).mpr hoa,
      (satisfies_iff hloose hb hu hkind).mpr hob⟩
    refine (resolves_loaded_iff (nodup_names_of_loose hloose)).mp ⟨u, ?_, decide_eq_true hkind⟩
    exact (References.find?_eq_some_iff (nodup_finalTypes hloose)).mpr ⟨hu, rfl⟩

/-- Types of a built schema overlap if they are the same or an object type satisfies both. -/
theorem overlap_iff_meet {a b : TypeDefinition} (ha : a ∈ (loaded entries).finalTypes)
    (hb : b ∈ (loaded entries).finalTypes) (hca : a.isComposite = true)
    (hcb : b.isComposite = true) :
    (loaded entries).built.overlap a b = true ↔
      a = b ∨ Sdl.Meet (entries.map (·.2)) a.name b.name := by
  rw [(indexed_built hloose).overlap_iff ha hb hca hcb, meet_iff hloose ha hb]
  rfl

end Assembly

/-- Types of a schema overlap if they are the same or an object type satisfies both. -/
theorem Schema.MadeOf.overlap_iff_meet {s : Schema} {files : List Sdl.File} (h : s.MadeOf files)
    {a b : TypeDefinition} (ha : a ∈ s.types) (hb : b ∈ s.types) (hca : a.isComposite = true)
    (hcb : b.isComposite = true) :
    s.overlap a b = true ↔ a = b ∨ Sdl.Meet (files.flatMap (·.definitions)) a.name b.name := by
  obtain ⟨hloose, rfl⟩ := madeOf_iff.mp h
  rw [← map_snd_entries] at hloose ⊢
  exact Assembly.overlap_iff_meet hloose ha hb hca hcb

theorem Sdl.Meet.symm {definitions : List Definition} {a b : String} (h : Meet definitions a b) :
    Meet definitions b a := by
  obtain ⟨object, hobject, ha, hb⟩ := h
  exact ⟨object, hobject, hb, ha⟩

/-! ### Fragments that never apply -/

/-- The type that a fragment applies to, if it is named and known. -/
def Selection.condition? (s : Schema) (d : Document) : Selection → Option TypeDefinition
  | .field _ _ _ => none
  | .spread node => (d.fragment? node.name).bind (s.type? ·.condition)
  | .inline node _ _ => node.condition?.bind s.type?

/-- A visit enters a fragment for a known composite type, in a set that selects from a known one. -/
structure Visit.Applies (s : Schema) (d : Document) (v : Visit) (item : Selection)
    (type parent : TypeDefinition) : Prop where
  /-- The fragment is entered. -/
  hook : v.hook = .enter item.node
  /-- The type of the fragment. -/
  condition : item.condition? s d = some type
  /-- Fields can be selected from it. -/
  composite : type.isComposite = true
  /-- The type that the set selects from. -/
  scope : v.scope.parent? = some parent
  /-- The set. -/
  set : ∃ address items, d.HasSet s (some parent) address items ∧ item ∈ items

/-- What is to be reported at a visit. -/
inductive Visit.SpreadJudged (definitions : List Sdl.Definition) (s : Schema) (d : Document)
    (v : Visit) : List Diagnostic → Prop where
  /-- Nothing where no such fragment is entered. -/
  | unjudged : (∀ item type parent, ¬ v.Applies s d item type parent) →
      SpreadJudged definitions s d v []
  /-- Nothing of a fragment for the type that is selected from, or for one that meets it. -/
  | possible {item : Selection} {type parent : TypeDefinition} :
      v.Applies s d item type parent →
      (type = parent ∨ Sdl.Meet definitions type.name parent.name) →
      SpreadJudged definitions s d v []
  /-- Any other fragment, once. -/
  | impossible {item : Selection} {type parent : TypeDefinition} {x : Diagnostic} :
      v.Applies s d item type parent → type ≠ parent →
      ¬ Sdl.Meet definitions type.name parent.name → x.rule = .possibleFragmentSpreads →
      x.nodes = [item.ref] → SpreadJudged definitions s d v [x]

namespace Visit

variable {s : Schema} {d : Document} {v : Visit} {item : Selection} {type parent : TypeDefinition}

/-- What the rule finds at a visit. -/
def spreadFindings (s : Schema) (d : Document) (v : Visit) : List Finding :=
  (Rule.possibleFragmentSpreads (.of s d) [v]).flatten

theorem Applies.type_mem (h : v.Applies s d item type parent) : type ∈ s.types := by
  have hcondition := h.condition
  cases item with
  | field _ _ _ => cases hcondition
  | spread node =>
    obtain ⟨f, -, hf⟩ := Option.bind_eq_some_iff.mp hcondition
    exact List.mem_of_find?_eq_some hf
  | inline node _ _ =>
    obtain ⟨name, -, hname⟩ := Option.bind_eq_some_iff.mp hcondition
    exact List.mem_of_find?_eq_some hname

theorem Applies.parent_mem (h : v.Applies s d item type parent) : parent ∈ s.types := by
  obtain ⟨address, items, hset, -⟩ := h.set
  exact List.mem_of_find?_eq_some (hset.knows parent rfl)

/-- A fragment that is entered where the parent type is known stands in a set of that type. -/
theorem set_of_entered (item : Selection) (hv : v ∈ d.visits s) (hhook : v.hook = .enter item.node)
    (hparent : v.scope.parent? = some parent) :
    parent.isComposite = true ∧ ∃ address items other, d.HasSet s (some parent) address items ∧
      other ∈ items ∧ other.node = item.node := by
  obtain ⟨hook, scope⟩ := v
  obtain rfl : hook = .enter item.node := hhook
  obtain ⟨type?, address, items, t, other, hother, hset, ht, hnode, rfl⟩ :=
    Document.item_of_mem_visits item hv
  have hsame : (t.enter s item.node).parent? = t.parent? := by cases item <;> rfl
  obtain ⟨htype, hcomposite⟩ := Option.filter_eq_some_iff.mp (ht.parent ▸ hsame ▸ hparent)
  exact ⟨hcomposite, address, items, other, htype ▸ hset, hother, hnode⟩

/-- At an inline fragment with a condition the scope has the type of that condition. -/
theorem type?_of_inline (hv : v ∈ d.visits s) {node : InlineFragment}
    (hhook : v.hook = .enter (.inline node)) {name : String} (hname : node.condition? = some name) :
    v.scope.type? = s.type? name := by
  obtain ⟨hook, scope⟩ := v
  obtain rfl : hook = .enter (.inline node) := hhook
  obtain ⟨type?, address, items, t, other, -, -, ht, -, rfl⟩ :=
    Document.item_of_mem_visits (.inline node default []) hv
  rw [show Selection.node (.inline node default []) = .inline node from rfl,
    ht.type?_inline, InlineFragment.type?, hname]

/-- The rule judges a fragment by whether its type and the parent type overlap. -/
theorem spreadFindings_of_applies (hv : v ∈ d.visits s) (h : v.Applies s d item type parent) :
    ∃ message, v.spreadFindings s d =
      if s.overlap type parent = true then [] else [⟨message, [item.ref]⟩] := by
  obtain ⟨hhook, hcondition, hcomposite, hparent, -⟩ := h
  have hnever : Rule.neverApplies s type parent = !s.overlap type parent := by
    rw [Rule.neverApplies, hcomposite, Bool.true_and]
  cases item with
  | field node span own => cases hcondition
  | spread node =>
    have hhook : v.hook = .enter (.spread node) := hhook
    have hcondition : ((Setting.of s d).document.fragment? node.name).bind
        ((Setting.of s d).schema.type? ·.condition) = some type := hcondition
    refine ⟨"Fragment \"" ++ node.name ++ "\"" ++ Rule.neverOfType type parent, ?_⟩
    simp only [spreadFindings, Rule.possibleFragmentSpreads, Report.each, List.map_singleton,
      List.flatten_singleton, hhook, hcondition, hparent]
    cases hoverlap : s.overlap type parent <;> simp [Setting.of, hnever, hoverlap, Selection.ref]
  | inline node span own =>
    have hhook : v.hook = .enter (.inline node) := hhook
    obtain ⟨name, hname, htype⟩ := Option.bind_eq_some_iff.mp hcondition
    rw [← type?_of_inline hv hhook hname] at htype
    refine ⟨"Fragment" ++ Rule.neverOfType type parent, ?_⟩
    simp only [spreadFindings, Rule.possibleFragmentSpreads, Report.each, List.map_singleton,
      List.flatten_singleton, hhook, hname, htype, hparent]
    cases hoverlap : s.overlap type parent <;> simp [Setting.of, hnever, hoverlap, Selection.ref]

/-- The rule finds nothing but fragments for composite types where the parent type is known. -/
theorem exists_applies (hv : v ∈ d.visits s) (hfound : v.spreadFindings s d ≠ []) :
    ∃ item type parent, v.Applies s d item type parent := by
  simp only [spreadFindings, Rule.possibleFragmentSpreads, Report.each, List.map_singleton,
    List.flatten_singleton] at hfound
  split at hfound
  next node hhook =>
    split at hfound
    next type parent htype hparent =>
      have hnever : Rule.neverApplies s type parent = true := (ite_ne_right_iff.mp hfound).1
      obtain ⟨-, address, items, other, hset, hother, hnode⟩ :=
        set_of_entered (.spread node) hv hhook hparent
      obtain rfl : other = .spread node := by
        cases other <;> cases hnode
        rfl
      exact ⟨.spread node, type, parent, hhook, htype, (Bool.and_eq_true_iff.mp hnever).1, hparent,
        address, items, hset, hother⟩
    next => exact absurd rfl hfound
  next node hhook =>
    split at hfound
    next name type parent hname htype hparent =>
      have hnever : Rule.neverApplies s type parent = true := (ite_ne_right_iff.mp hfound).1
      obtain ⟨-, address, items, other, hset, hother, hnode⟩ :=
        set_of_entered (.inline node default []) hv hhook hparent
      rw [type?_of_inline hv hhook hname] at htype
      cases other with
      | inline other span own =>
        obtain rfl : other = node := Node.inline.inj hnode
        have hcondition : (Selection.inline other span own).condition? s d = some type :=
          Option.bind_eq_some_iff.mpr ⟨name, hname, htype⟩
        exact ⟨.inline other span own, type, parent, hhook, hcondition,
          (Bool.and_eq_true_iff.mp hnever).1, hparent, address, items, hset, hother⟩
      | field _ _ _ | spread _ => cases hnode
    next => exact absurd rfl hfound
  next => exact absurd rfl hfound

/-- Each fragment of a set with a known type is entered. -/
theorem exists_visit {address : Address} {items : List Selection}
    (hset : d.HasSet s (some parent) address items) (hitem : item ∈ items)
    (hparent : parent.isComposite = true) (hcondition : item.condition? s d = some type)
    (hcomposite : type.isComposite = true) :
    ∃ v ∈ d.visits s, v.Applies s d item type parent := by
  obtain ⟨t, ht⟩ := hset.walked_of_mem hitem
  obtain ⟨index, hindex⟩ := List.mem_iff_getElem?.mp hitem
  have hsame : (t.enter s item.node).parent? = t.parent? := by cases item <;> rfl
  refine ⟨_, ht.visits_item hindex (.inl rfl), rfl, hcondition, hcomposite, ?_, address, items, hset,
    hitem⟩
  rw [hsame, ht.inside.parent, Option.filter_some, if_pos hparent]

/-- Each visit is judged by what the texts of the schema say. -/
theorem spreadJudged_findings {files : List Sdl.File} (h : s.MadeOf files) (hv : v ∈ d.visits s) :
    v.SpreadJudged (files.flatMap (·.definitions)) s d
      ((v.spreadFindings s d).map (Diagnostic.ofFinding .possibleFragmentSpreads)) := by
  by_cases happlies : ∃ item type parent, v.Applies s d item type parent
  · obtain ⟨item, type, parent, happlies⟩ := happlies
    obtain ⟨hparent, -⟩ := set_of_entered item hv happlies.hook happlies.scope
    have hoverlap := h.overlap_iff_meet happlies.type_mem happlies.parent_mem happlies.composite
      hparent
    obtain ⟨message, hfound⟩ := spreadFindings_of_applies hv happlies
    rw [hfound]
    split_ifs with hover
    · exact .possible happlies (hoverlap.mp hover)
    · obtain ⟨hne, hmeet⟩ := not_or.mp (mt hoverlap.mpr hover)
      exact .impossible happlies hne hmeet rfl rfl
  · have hnothing : v.spreadFindings s d = [] := by
      by_contra hfound
      exact happlies (exists_applies hv hfound)
    rw [hnothing]
    exact .unjudged fun item type parent h => happlies ⟨item, type, parent, h⟩

end Visit

/-- Composite types overlap, in either order, if they are the same or the texts of the schema say of
some object type that it satisfies both. Fragments are reported where the type that they apply to
and the one that is selected from do not overlap, once each and in the order of the text. -/
theorem types_overlap_as_declared {files : List Sdl.File} {s : Schema} (h : s.MadeOf files) :
    (∀ a ∈ s.types, ∀ b ∈ s.types, a.isComposite = true → b.isComposite = true →
      s.overlap a b = s.overlap b a ∧
        (s.overlap a b = true ↔
          a = b ∨ Sdl.Meet (files.flatMap (·.definitions)) a.name b.name)) ∧
    ∀ d : Document,
      (∀ rules : List RuleName, .possibleFragmentSpreads ∈ rules →
        ∃ verdicts,
          List.Forall₂ (Visit.SpreadJudged (files.flatMap (·.definitions)) s d) (d.visits s)
            verdicts ∧
          ((Validation.ofRules rules).diagnostics s d).filter
            (fun x => x.rule = .possibleFragmentSpreads) = verdicts.flatten) ∧
      ∀ parent address items item type, d.HasSet s (some parent) address items → item ∈ items →
        parent.isComposite = true → item.condition? s d = some type → type.isComposite = true →
        ∃ v ∈ d.visits s, v.Applies s d item type parent := by
  refine ⟨fun a ha b hb hca hcb => ⟨?_, h.overlap_iff_meet ha hb hca hcb⟩, fun d => ⟨?_, ?_⟩⟩
  · rw [Bool.eq_iff_iff, h.overlap_iff_meet ha hb hca hcb, h.overlap_iff_meet hb ha hcb hca,
      eq_comm]
    exact or_congr_right ⟨.symm, .symm⟩
  · intro rules hrule
    let judge (v : Visit) : List Diagnostic :=
      (v.spreadFindings s d).map (Diagnostic.ofFinding .possibleFragmentSpreads)
    refine ⟨(d.visits s).map judge, ?_, ?_⟩
    · exact List.forall₂_map_right_iff.mpr (List.forall₂_same.mpr fun v hv =>
        Visit.spreadJudged_findings h hv)
    · rw [Validation.filter_diagnostics hrule, Validation.diagnostics_single, List.map_flatten]
      have heach : RuleName.report .possibleFragmentSpreads (.of s d) (d.visits s) =
          (d.visits s).map (Visit.spreadFindings s d) :=
        List.map_congr_left fun v _ => (List.flatten_singleton ..).symm
      rw [heach]
      exact congrArg List.flatten List.map_map
  · intro parent address items item type hset hitem hparent hcondition hcomposite
    exact Visit.exists_visit hset hitem hparent hcondition hcomposite

/-- A file with an interface, an object type that implements it, one that does not, and a union that
has the first only by an extension. -/
def pondFile : Sdl.File where
  name := "pond"
  definitions :=
    [.type ⟨⟨1, 1⟩, "Pet", .interface [] [⟨⟨1, 17⟩, "name", [], .named "String" true, []⟩]⟩,
      .type ⟨⟨2, 1⟩, "Dog", .object ["Pet"] [⟨⟨2, 27⟩, "name", [], .named "String" true, []⟩]⟩,
      .type ⟨⟨3, 1⟩, "Fish", .object [] [⟨⟨3, 13⟩, "name", [], .named "String" true, []⟩]⟩,
      .type ⟨⟨4, 1⟩, "Swimmer", .union ["Fish"]⟩,
      .type ⟨⟨5, 1⟩, "Query", .object [] [⟨⟨5, 14⟩, "pet", [], .named "Pet" true, []⟩]⟩,
      .extension ⟨⟨6, 8⟩, "Swimmer", .union ["Dog"]⟩]

/-- The schema of the file. -/
def pondSchema : Schema := (loaded ([pondFile].flatMap Sdl.File.entries)).built

/-- A document that asks of a pet whether it is a swimmer or a fish. -/
def pondDocument : Document :=
  ⟨[.bare ⟨⟨⟨1, 1⟩, ⟨1, 64⟩⟩,
    [.field ⟨⟨1, 3⟩, none, "pet", [], []⟩ ⟨⟨1, 7⟩, ⟨1, 62⟩⟩
      [.inline ⟨⟨1, 9⟩, some "Swimmer", []⟩ ⟨⟨1, 24⟩, ⟨1, 37⟩⟩
          [.field ⟨⟨1, 26⟩, none, "__typename", [], []⟩ ⟨⟨1, 26⟩, ⟨1, 26⟩⟩ []],
        .inline ⟨⟨1, 39⟩, some "Fish", []⟩ ⟨⟨1, 51⟩, ⟨1, 60⟩⟩
          [.field ⟨⟨1, 53⟩, none, "name", [], []⟩ ⟨⟨1, 53⟩, ⟨1, 53⟩⟩ []]]]⟩], []⟩

/-- A pet may be a swimmer, because a dog may, but no fish. -/
theorem pond_types_overlap :
    pondSchema.MadeOf [pondFile] ∧ Sdl.Meet pondFile.definitions "Pet" "Swimmer" ∧
      ¬ Sdl.Meet pondFile.definitions "Pet" "Fish" ∧
      ∃ verdicts, List.Forall₂ (Visit.SpreadJudged pondFile.definitions pondSchema pondDocument)
          (pondDocument.visits pondSchema) verdicts ∧
        verdicts.flatten = [⟨.possibleFragmentSpreads,
          "Fragment cannot be spread here as objects of type \"Pet\" can never be of type \"Fish\".",
          [⟨.inlineFragment, ⟨1, 39⟩⟩]⟩] := by
  have hmade : pondSchema.MadeOf [pondFile] := Schema.madeOf_iff.mpr ⟨by decide, rfl⟩
  obtain ⟨hoverlap, hrule⟩ := types_overlap_as_declared hmade
  have hpet : pondSchema.type? "Pet" = some _ := rfl
  have hswimmer : pondSchema.type? "Swimmer" = some _ := rfl
  have hfish : pondSchema.type? "Fish" = some _ := rfl
  have hmem {name : String} {t : TypeDefinition} (h : pondSchema.type? name = some t) :
      t ∈ pondSchema.types := List.mem_of_find?_eq_some h
  obtain ⟨-, hmeet⟩ := hoverlap _ (hmem hpet) _ (hmem hswimmer) rfl rfl
  obtain ⟨-, hnever⟩ := hoverlap _ (hmem hpet) _ (hmem hfish) rfl rfl
  obtain ⟨verdicts, hjudged, hreported⟩ := (hrule pondDocument).1 [.possibleFragmentSpreads]
    List.mem_cons_self
  refine ⟨hmade, (hmeet.mp (by decide)).resolve_left ?_, fun h => ?_, verdicts, hjudged,
    hreported.symm.trans ?_⟩
  · exact fun h => absurd (congrArg TypeDefinition.name h) (by decide)
  · exact absurd (hnever.mpr (.inr h)) (by decide)
  · decide +kernel

end GraphQLCheck
