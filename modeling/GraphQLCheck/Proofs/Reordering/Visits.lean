import GraphQLCheck.Proofs.Sets
import Mathlib.Data.List.Find
import Mathlib.Data.List.Forall2

/-!
# The definitions of a document in another order

Two documents with the same definitions in different orders are walked in the same scopes. A visit of
one walk corresponds to a visit of the other that differs at most in what is told by numbers: the
number of an operation and the address of a selection set (`Reordered.exists_visit`). Operations and
fragments are the same but for their order; a fragment is found by its name in both documents if no
name is given to two of them.
-/

namespace GraphQLCheck

/-! ### Steps that correspond -/

namespace Node

/-- Whether what the walk knows of a node depends on the order of the definitions. -/
def isNumbered : Node → Bool
  | document _ | operation _ _ | selectionSet _ _ => true
  | _ => false

/-- A node in the walks of two documents. -/
inductive Like (d d' : Document) : Node → Node → Prop where
  /-- The documents themselves. -/
  | document : Like d d' (.document d) (.document d')
  /-- An operation, with its number in each of them. -/
  | operation {i j : ℕ} {o : Operation} :
      d.operations[i]? = some o → d'.operations[j]? = some o →
      Like d d' (.operation i o) (.operation j o)
  /-- A set, with its address in each of them. -/
  | selectionSet {address place : Address} {set : SelectionSet} :
      Like d d' (.selectionSet address set) (.selectionSet place set)
  /-- Any other node. -/
  | same {node : Node} : node.isNumbered = false → Like d d' node node

end Node

namespace Hook

/-- A step in the walks of two documents. -/
inductive Like (d d' : Document) : Hook → Hook → Prop where
  /-- A node is entered. -/
  | enter {node node' : Node} : node.Like d d' node' → Like d d' (.enter node) (.enter node')
  /-- A node is left. -/
  | leave {node node' : Node} : node.Like d d' node' → Like d d' (.leave node) (.leave node')
  /-- Arguments are announced. -/
  | arguments (position : Position) (list : List Argument) :
      Like d d' (.arguments position list) (.arguments position list)
  /-- Directives are announced. -/
  | directives (list : List Directive) : Like d d' (.directives list) (.directives list)

/-- Walks that correspond step by step. -/
abbrev Alike (d d' : Document) : List Hook → List Hook → Prop := List.Forall₂ (Like d d')

end Hook

section Scopes

variable {schema : Schema} {d d' : Document} {s : Scope} {node node' : Node}

theorem Node.Like.enter_eq (h : node.Like d d' node') :
    s.enter schema node = s.enter schema node' := by
  cases h <;> rfl

theorem Node.Like.leave_eq (h : node.Like d d' node') : s.leave node = s.leave node' := by
  cases h <;> rfl

/-- Steps that correspond are made in one scope and lead to one scope. -/
theorem Hook.Like.along_cons {hook hook' : Hook} (h : hook.Like d d' hook') (schema : Schema)
    (s : Scope) (rest rest' : List Hook) :
    ∃ now next, Visit.along schema s (hook :: rest) = ⟨hook, now⟩ :: Visit.along schema next rest ∧
      Visit.along schema s (hook' :: rest') = ⟨hook', now⟩ :: Visit.along schema next rest' := by
  cases h with
  | enter hnode => exact ⟨_, _, rfl, by rw [Visit.along, ← hnode.enter_eq]⟩
  | leave hnode => exact ⟨_, _, rfl, by rw [Visit.along, ← hnode.leave_eq]⟩
  | arguments position list => exact ⟨_, _, rfl, rfl⟩
  | directives list => exact ⟨_, _, rfl, rfl⟩

/-- Walks that correspond visit the same scopes. -/
theorem Visit.exists_like {hooks hooks' : List Hook} (h : Hook.Alike d d' hooks hooks')
    {v' : Visit} (hv : v' ∈ Visit.along schema s hooks') :
    ∃ v ∈ Visit.along schema s hooks, v.hook.Like d d' v'.hook ∧ v.scope = v'.scope := by
  induction h generalizing s with
  | nil => cases hv
  | @cons hook hook' rest rest' hhook _ ih =>
    obtain ⟨now, next, halong, halong'⟩ := hhook.along_cons schema s rest rest'
    rw [halong', List.mem_cons] at hv
    rw [halong]
    rcases hv with rfl | hv
    · exact ⟨_, List.mem_cons_self, hhook, rfl⟩
    · obtain ⟨v, hmem, hlike⟩ := ih hv
      exact ⟨v, List.mem_cons_of_mem _ hmem, hlike⟩

end Scopes

namespace Hook

/-! ### The walk of a definition does not depend on its number -/

variable (d d' : Document)

theorem Only.alike {hooks : List Hook} (h : Only isDetail hooks) : Alike d d' hooks hooks := by
  refine List.forall₂_same.mpr fun hook hmem => ?_
  have hdetail := h hook hmem
  cases hook with
  | enter node => cases node <;> first | exact .enter (.same rfl) | cases hdetail
  | leave node => cases node <;> first | exact .leave (.same rfl) | cases hdetail
  | arguments position list => exact .arguments position list
  | directives list => exact .directives list

variable {d d'}

theorem alike_around {node node' : Node} {inside inside' : List Hook} (hnode : node.Like d d' node')
    (hinside : Alike d d' inside inside') :
    Alike d d' (around node inside) (around node' inside') :=
  .cons (.enter hnode) (List.rel_append hinside (.cons (.leave hnode) .nil))

theorem alike_ofSelection {address place : Address} {item : Selection}
    (hown : Alike d d' (item.ownSet address) (item.ownSet place)) :
    Alike d d' (ofSelection address item) (ofSelection place item) := by
  rw [ofSelection_eq, ofSelection_eq]
  refine alike_around (.same ?_) (List.rel_append ((detail_details item).alike d d') hown)
  cases item <;> rfl

theorem alike_ofSelections (items : List Selection) (address place : Address) (index start : ℕ) :
    Alike d d' (ofSelections address index items) (ofSelections place start items) := by
  induction items using Selection.items_induction generalizing address place index start with
  | nil => exact .nil
  | field node span own rest ihOwn ihRest =>
    rw [ofSelections, ofSelections]
    refine List.rel_append (alike_ofSelection ?_) (ihRest _ _ _ _)
    cases own with
    | nil => exact .nil
    | cons first own => exact alike_around .selectionSet (ihOwn _ _ _ _)
  | spread node rest ihRest =>
    rw [ofSelections, ofSelections]
    exact List.rel_append (alike_ofSelection .nil) (ihRest _ _ _ _)
  | inline node span own rest ihOwn ihRest =>
    rw [ofSelections, ofSelections]
    refine List.rel_append (alike_ofSelection ?_) (ihRest _ _ _ _)
    exact alike_around .selectionSet (ihOwn _ _ _ _)

theorem alike_ofSelectionSet (set : SelectionSet) (address place : Address) :
    Alike d d' (ofSelectionSet address set) (ofSelectionSet place set) :=
  alike_around .selectionSet (alike_ofSelections set.items address place 0 0)

theorem alike_ofOperation {i j : ℕ} {o : Operation} (hi : d.operations[i]? = some o)
    (hj : d'.operations[j]? = some o) (address place : Address) :
    Alike d d' (ofOperation address i o) (ofOperation place j o) := by
  have hdetails := (Only.flatMap detail_ofVariableDefinition o.declared).append
    (detail_ofDirectives o.directives)
  exact alike_around (.operation hi hj)
    (List.rel_append (hdetails.alike d d') (alike_ofSelectionSet o.selectionSet address place))

theorem alike_ofFragmentDefinition (f : FragmentDefinition) (address place : Address) :
    Alike d d' (ofFragmentDefinition address f) (ofFragmentDefinition place f) :=
  alike_around (.same rfl) (List.rel_append ((detail_ofDirectives f.directives).alike d d')
    (alike_ofSelectionSet f.selectionSet address place))

end Hook

/-! ### The two documents -/

theorem Scope.after_ofDefinitions {schema : Schema} {s : Scope} (hs : s.Idle)
    (number operations : ℕ) (definitions : List Definition) :
    Scope.after schema s (Hook.ofDefinitions number operations definitions) = s := by
  induction definitions generalizing number operations with
  | nil => rfl
  | cons definition rest ih =>
    rcases definition.operation_or_fragment with ⟨o, ho, -⟩ | ⟨f, rfl⟩
    · rw [Hook.ofDefinitions_operation ho, after_append, after_ofOperation hs, ih]
    · rw [Hook.ofDefinitions_fragment, after_append, after_ofFragmentDefinition hs, ih]

namespace Document

/-- The second document has the definitions of the first, in any order, and repeats the same fields
in object literals. -/
structure Reordered (d d' : Document) : Prop where
  /-- The definitions are the same but for their order. -/
  definitions : d.definitions.Perm d'.definitions
  /-- The fields repeated in object literals are the same. -/
  repeatedFields : d.repeatedFields = d'.repeatedFields

namespace Reordered

variable {schema : Schema} {d d' : Document}

theorem symm (h : d.Reordered d') : d'.Reordered d := ⟨h.definitions.symm, h.repeatedFields.symm⟩

theorem operations (h : d.Reordered d') : d.operations.Perm d'.operations :=
  h.definitions.filterMap _

theorem fragments (h : d.Reordered d') : d.fragments.Perm d'.fragments :=
  h.definitions.filterMap _

/-- A fragment with a name of its own is found by its name in any order. -/
theorem fragment?_eq (h : d.Reordered d') (hunique : (d.fragments.map (·.name)).Nodup)
    (name : String) : d.fragment? name = d'.fragment? name := by
  refine List.find?_eq_find?_of_perm h.fragments ?_
  rintro f ⟨hf, hname⟩ g ⟨hg, hname'⟩
  have heq : f.name = g.name := (of_decide_eq_true hname).trans (of_decide_eq_true hname').symm
  exact List.inj_on_of_nodup_map hunique hf hg heq

/-- Each visit of one walk corresponds to one of the other. -/
theorem exists_visit (h : d.Reordered d') {v' : Visit} (hv : v' ∈ d'.visits schema) :
    ∃ v ∈ d.visits schema, v.hook.Like d d' v'.hook ∧ v.scope = v'.scope := by
  have hnumber {j : ℕ} {definition : Definition} (hj : d'.definitions[j]? = some definition) :
      ∃ i : ℕ, d.definitions[i]? = some definition :=
    List.getElem?_of_mem (h.definitions.mem_iff.mpr (List.mem_of_getElem? hj))
  rcases mem_visits.mp hv with rfl | ⟨j, definition, o, hj, ho, hv⟩ | ⟨j, f, hj, hv⟩ | rfl
  · exact ⟨_, mem_visits.mpr (.inl rfl), .enter .document, rfl⟩
  · obtain ⟨i, hi⟩ := hnumber hj
    obtain ⟨v, hmem, hlike⟩ := Visit.exists_like
      (Hook.alike_ofOperation (getElem?_operations hi ho) (getElem?_operations hj ho) [i] [j]) hv
    exact ⟨v, mem_visits.mpr (.inr (.inl ⟨i, definition, o, hi, ho, hmem⟩)), hlike⟩
  · obtain ⟨i, hi⟩ := hnumber hj
    obtain ⟨v, hmem, hlike⟩ := Visit.exists_like (Hook.alike_ofFragmentDefinition f [i] [j]) hv
    exact ⟨v, mem_visits.mpr (.inr (.inr (.inl ⟨i, f, hi, hmem⟩))), hlike⟩
  · refine ⟨_, mem_visits.mpr (.inr (.inr (.inr rfl))), .leave .document, ?_⟩
    rw [Scope.after_ofDefinitions (d.idle_topScope schema),
      Scope.after_ofDefinitions (d'.idle_topScope schema)]
    rfl

end Reordered

end Document

end GraphQLCheck
