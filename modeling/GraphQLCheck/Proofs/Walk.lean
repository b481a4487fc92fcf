import GraphQLCheck.Proofs.SpreadGraph
import GraphQLCheck.Traversal.Scope

/-!
# The scope of a walk

The walk of a node leaves the scope as it found it, so that the visits of a document are those of its
parts, each in the scope of the node around it. Two entries of a scope are not kept on a stack: the
parameter and the directive at hand. They are empty wherever a walk of arguments or of directives
starts, which is what `Scope.Idle` says.
-/

namespace GraphQLCheck

variable {schema : Schema} {s : Scope}

/-! ### Walks one after another -/

@[simp] theorem Scope.after_nil : Scope.after schema s [] = s := rfl

theorem Scope.after_append (schema : Schema) (s : Scope) (before rest : List Hook) :
    Scope.after schema s (before ++ rest) =
      Scope.after schema (Scope.after schema s before) rest := by
  induction before generalizing s with
  | nil => rfl
  | cons hook before ih =>
    cases hook with
    | enter node => exact ih _
    | leave node => exact ih _
    | arguments position list => exact ih _
    | directives list => exact ih _

theorem Visit.along_append (schema : Schema) (s : Scope) (before rest : List Hook) :
    Visit.along schema s (before ++ rest) =
      Visit.along schema s before ++
        Visit.along schema (Scope.after schema s before) rest := by
  induction before generalizing s with
  | nil => rfl
  | cons hook before ih =>
    cases hook with
    | enter node => exact congrArg _ (ih _)
    | leave node => exact congrArg _ (ih _)
    | arguments position list => exact congrArg _ (ih _)
    | directives list => exact congrArg _ (ih _)

/-- The visits of a walk are its steps. -/
theorem Visit.map_hook_along (schema : Schema) (s : Scope) (hooks : List Hook) :
    (Visit.along schema s hooks).map (·.hook) = hooks := by
  induction hooks generalizing s with
  | nil => rfl
  | cons hook hooks ih =>
    cases hook with
    | enter node => exact congrArg _ (ih _)
    | leave node => exact congrArg _ (ih _)
    | arguments position list => exact congrArg _ (ih _)
    | directives list => exact congrArg _ (ih _)

theorem Scope.after_around (schema : Schema) (s : Scope) (node : Node) (inside : List Hook) :
    Scope.after schema s (Hook.around node inside) =
      (Scope.after schema (s.enter schema node) inside).leave node :=
  Scope.after_append schema (s.enter schema node) inside [.leave node]

theorem Visit.along_around (schema : Schema) (s : Scope) (node : Node) (inside : List Hook) :
    Visit.along schema s (Hook.around node inside) =
      ⟨.enter node, s.enter schema node⟩ ::
        (Visit.along schema (s.enter schema node) inside ++
          [⟨.leave node, Scope.after schema (s.enter schema node) inside⟩]) :=
  congrArg _ (Visit.along_append schema (s.enter schema node) inside [.leave node])

/-- A walk of parts that each leave the scope as it is leaves it as it is. -/
theorem Scope.after_flatMap {α : Type} {walk : α → List Hook} {list : List α}
    (h : ∀ a ∈ list, Scope.after schema s (walk a) = s) :
    Scope.after schema s (list.flatMap walk) = s := by
  induction list with
  | nil => rfl
  | cons a list ih =>
    rw [List.flatMap_cons, Scope.after_append, h a List.mem_cons_self]
    exact ih fun b hb => h b (List.mem_cons_of_mem a hb)

/-- The visits of parts that each leave the scope as it is are all in that scope. -/
theorem Visit.along_flatMap {α : Type} {walk : α → List Hook} {list : List α}
    (h : ∀ a ∈ list, Scope.after schema s (walk a) = s) :
    Visit.along schema s (list.flatMap walk) =
      list.flatMap fun a => Visit.along schema s (walk a) := by
  induction list with
  | nil => rfl
  | cons a list ih =>
    rw [List.flatMap_cons, Visit.along_append, h a List.mem_cons_self, List.flatMap_cons,
      ih fun b hb => h b (List.mem_cons_of_mem a hb)]

namespace Selection

/-- A selection as a node of the walk. -/
def node : Selection → Node
  | field node span items => .field node ⟨span, items⟩
  | spread node => .spread node
  | inline node _ _ => .inline node

/-- The directives of a selection. -/
def directives : Selection → List Directive
  | field node _ _ => node.directives
  | spread node => node.directives
  | inline node _ _ => node.directives

/-- The walk of the arguments and the directives of a selection. -/
def details : Selection → List Hook
  | field node _ _ =>
    Hook.ofArguments node.position node.arguments ++ Hook.ofDirectives node.directives
  | spread node => Hook.ofDirectives node.directives
  | inline node _ _ => Hook.ofDirectives node.directives

/-- The walk of the own set of a selection. That of a field is walked only if it selects
something. -/
def ownSet (address : Address) : Selection → List Hook
  | field _ _ [] | spread _ => []
  | field _ span (item :: rest) => Hook.ofSelectionSet address ⟨span, item :: rest⟩
  | inline _ span items => Hook.ofSelectionSet address ⟨span, items⟩

end Selection

theorem Hook.ofSelection_eq (address : Address) (item : Selection) :
    Hook.ofSelection address item =
      Hook.around item.node (item.details ++ item.ownSet address) := by
  cases item with
  | field node span items => cases items <;> rw [Hook.ofSelection] <;> rfl
  | spread node => rw [Hook.ofSelection, Selection.ownSet, List.append_nil]; rfl
  | inline node span items => rw [Hook.ofSelection]; rfl

namespace Scope

/-! ### Walks leave the scope as it is -/

/-- There is no parameter and no directive at hand. -/
structure Idle (s : Scope) : Prop where
  /-- There is no parameter at hand. -/
  parameter : s.parameter? = none
  /-- There is no directive at hand. -/
  directive : s.directive? = none

theorem leave_enter_value (position : Position) (v : Literal) :
    (s.enter schema (.value position v)).leave (.value position v) = s := rfl

mutual

theorem after_ofLiteral (schema : Schema) (s : Scope) (position : Position) :
    ∀ v : Literal, Scope.after schema s (Hook.ofLiteral position v) = s
  | .atom value => by rw [Hook.ofLiteral, after_around, after_nil, leave_enter_value]
  | .list items => by
    rw [Hook.ofLiteral, after_around, after_ofItems schema _ position items, leave_enter_value]
  | .object fields => by
    rw [Hook.ofLiteral, after_around, after_ofFields schema _ position fields, leave_enter_value]

theorem after_ofItems (schema : Schema) (s : Scope) (position : Position) :
    ∀ items : List Literal, Scope.after schema s (Hook.ofItems position items) = s
  | [] => rfl
  | item :: rest => by
    rw [Hook.ofItems, after_append, after_ofLiteral schema s position item,
      after_ofItems schema s position rest]

theorem after_ofFields (schema : Schema) (s : Scope) (position : Position) :
    ∀ fields : List (String × Literal), Scope.after schema s (Hook.ofFields position fields) = s
  | [] => rfl
  | (_, value) :: rest => by
    rw [Hook.ofFields, after_append, after_ofLiteral schema s position value,
      after_ofFields schema s position rest]

end

theorem after_ofArgument (h : s.parameter? = none) (position : Position) (a : Argument) :
    Scope.after schema s (Hook.ofArgument position a) = s := by
  rw [Hook.ofArgument, after_around, after_ofLiteral]
  cases s
  simp_all [enter, leave]

theorem after_ofArguments (h : s.parameter? = none) (position : Position) (list : List Argument) :
    Scope.after schema s (Hook.ofArguments position list) = s :=
  after_flatMap fun a _ => after_ofArgument h position a

theorem after_ofDirective (h : s.Idle) (d : Directive) :
    Scope.after schema s (Hook.ofDirective d) = s := by
  obtain ⟨hp, hd⟩ := h
  rw [Hook.ofDirective, after_around, after_ofArguments (by simpa [enter] using hp)]
  cases s
  simp_all [enter, leave]

theorem after_ofDirectives (h : s.Idle) (list : List Directive) :
    Scope.after schema s (Hook.ofDirectives list) = s :=
  after_flatMap fun d _ => after_ofDirective h d

theorem after_ofVariableDefinition (schema : Schema) (s : Scope) (v : VariableDefinition) :
    Scope.after schema s (Hook.ofVariableDefinition v) = s := by
  rw [Hook.ofVariableDefinition, after_around]
  cases v.default? with
  | none => rfl
  | some value =>
    rw [Option.map_some, Option.getD_some, after_ofLiteral]
    rfl

section Nodes

variable {address : Address} {set : SelectionSet} {index : ℕ} {o : Operation}
  {f : FragmentDefinition}

theorem Idle.selectionSet (h : s.Idle) : (s.enter schema (.selectionSet address set)).Idle :=
  ⟨h.1, h.2⟩

theorem Idle.item (h : s.Idle) (schema : Schema) (item : Selection) :
    (s.enter schema item.node).Idle := by
  cases item <;> exact ⟨h.1, h.2⟩

theorem Idle.operation (h : s.Idle) : (s.enter schema (.operation index o)).Idle := ⟨h.1, h.2⟩

theorem Idle.fragmentDefinition (h : s.Idle) : (s.enter schema (.fragmentDefinition f)).Idle :=
  ⟨h.1, h.2⟩

end Nodes

theorem leave_enter_item (schema : Schema) (s : Scope) (item : Selection) :
    (s.enter schema item.node).leave item.node = s := by
  cases item <;> rfl

theorem after_details (h : s.Idle) (item : Selection) :
    Scope.after schema s item.details = s := by
  cases item with
  | field node span items =>
    rw [Selection.details, after_append, after_ofArguments h.1, after_ofDirectives h]
  | spread node => exact after_ofDirectives h _
  | inline node span items => exact after_ofDirectives h _

/-- The walk of a selection leaves the scope as it is if that of its own set does. -/
theorem after_ofSelection_of_ownSet (h : s.Idle) {address : Address} {item : Selection}
    (hown : Scope.after schema (s.enter schema item.node) (item.ownSet address) =
      s.enter schema item.node) :
    Scope.after schema s (Hook.ofSelection address item) = s := by
  rw [Hook.ofSelection_eq, after_around, after_append, after_details (h.item schema item), hown,
    leave_enter_item]

theorem after_ofSelections (h : s.Idle) (address : Address) (index : ℕ) (items : List Selection) :
    Scope.after schema s (Hook.ofSelections address index items) = s := by
  induction items using Selection.items_induction generalizing s address index with
  | nil => rfl
  | field node span items rest ihItems ihRest =>
    rw [Hook.ofSelections, after_append, after_ofSelection_of_ownSet h]
    · exact ihRest h address (index + 1)
    · cases items with
      | nil => rfl
      | cons item items =>
        rw [Selection.ownSet, Hook.ofSelectionSet, after_around, ihItems (h.item schema _).selectionSet]
        rfl
  | spread node rest ihRest =>
    rw [Hook.ofSelections, after_append, after_ofSelection_of_ownSet h rfl]
    exact ihRest h address (index + 1)
  | inline node span items rest ihItems ihRest =>
    rw [Hook.ofSelections, after_append, after_ofSelection_of_ownSet h]
    · exact ihRest h address (index + 1)
    · rw [Selection.ownSet, Hook.ofSelectionSet, after_around, ihItems (h.item schema _).selectionSet]
      rfl

theorem after_ofSelectionSet (h : s.Idle) (address : Address) (set : SelectionSet) :
    Scope.after schema s (Hook.ofSelectionSet address set) = s := by
  rw [Hook.ofSelectionSet, after_around, after_ofSelections h.selectionSet]
  rfl

theorem after_ownSet (h : s.Idle) (address : Address) (item : Selection) :
    Scope.after schema s (item.ownSet address) = s := by
  cases item with
  | field node span items =>
    cases items with
    | nil => rfl
    | cons item items => exact after_ofSelectionSet h _ _
  | spread node => rfl
  | inline node span items => exact after_ofSelectionSet h _ _

theorem after_ofSelection (h : s.Idle) (address : Address) (item : Selection) :
    Scope.after schema s (Hook.ofSelection address item) = s :=
  after_ofSelection_of_ownSet h (after_ownSet (h.item schema item) address item)

theorem after_ofOperation (h : s.Idle) (address : Address) (index : ℕ) (o : Operation) :
    Scope.after schema s (Hook.ofOperation address index o) = s := by
  rw [Hook.ofOperation, after_around, after_append, after_append,
    after_flatMap fun v _ => after_ofVariableDefinition schema _ v,
    after_ofDirectives h.operation, after_ofSelectionSet h.operation]
  rfl

theorem after_ofFragmentDefinition (h : s.Idle) (address : Address) (f : FragmentDefinition) :
    Scope.after schema s (Hook.ofFragmentDefinition address f) = s := by
  rw [Hook.ofFragmentDefinition, after_around, after_append,
    after_ofDirectives h.fragmentDefinition, after_ofSelectionSet h.fragmentDefinition]
  rfl

end Scope

/-- A definition is one of an operation or one of a fragment. -/
theorem Definition.operation_or_fragment (d : Definition) :
    (∃ o, d.operation? = some o ∧ d.fragment? = none) ∨ ∃ f, d = .fragment f := by
  cases d with
  | operation o => exact .inl ⟨o, rfl, rfl⟩
  | bare set => exact .inl ⟨_, rfl, rfl⟩
  | fragment f => exact .inr ⟨f, rfl⟩

namespace Hook

/-! ### Where definitions are entered -/

/-- Whether a step is about arguments, directives, literals or definitions of variables. -/
def isDetail : Hook → Bool
  | enter (.directive _) | leave (.directive _) | enter (.argument _ _) | leave (.argument _ _) => true
  | enter (.value _ _) | leave (.value _ _) => true
  | enter (.variableDefinition _) | leave (.variableDefinition _) => true
  | arguments _ _ | directives _ => true
  | _ => false

/-- Whether a step neither enters nor leaves the document, an operation or the definition of a
fragment. -/
def isInner : Hook → Bool
  | enter (.document _) | leave (.document _) => false
  | enter (.operation _ _) | leave (.operation _ _) => false
  | enter (.fragmentDefinition _) | leave (.fragmentDefinition _) => false
  | _ => true

/-- All steps of a walk satisfy `P`. -/
def Only (P : Hook → Bool) (hooks : List Hook) : Prop := ∀ hook ∈ hooks, P hook = true

section Only

variable {P : Hook → Bool} {hook : Hook} {hooks before rest inside : List Hook} {node : Node}

theorem Only.nil : Only P [] := fun _ h => absurd h List.not_mem_nil

theorem Only.cons (h : P hook = true) (hhooks : Only P hooks) : Only P (hook :: hooks) :=
  List.forall_mem_cons.mpr ⟨h, hhooks⟩

theorem Only.append (h : Only P before) (h' : Only P rest) : Only P (before ++ rest) :=
  List.forall_mem_append.mpr ⟨h, h'⟩

theorem Only.flatMap {α : Type} {walk : α → List Hook} (h : ∀ a, Only P (walk a)) (list : List α) :
    Only P (list.flatMap walk) := by
  intro hook hmem
  obtain ⟨a, -, ha⟩ := List.mem_flatMap.mp hmem
  exact h a hook ha

theorem Only.around (henter : P (enter node) = true) (hleave : P (leave node) = true)
    (h : Only P inside) : Only P (around node inside) :=
  .cons henter (h.append (.cons hleave .nil))

theorem Only.inner (h : Only isDetail hooks) : Only isInner hooks := by
  intro hook hmem
  have := h hook hmem
  cases hook with
  | enter node => cases node <;> first | rfl | cases this
  | leave node => cases node <;> first | rfl | cases this
  | arguments position list => rfl
  | directives list => rfl

end Only

/-- A condition on steps holds of those that enter and leave literals. -/
def AdmitsValues (P : Hook → Bool) : Prop :=
  ∀ position v, P (enter (.value position v)) = true ∧ P (leave (.value position v)) = true

section Literals

variable {P : Hook → Bool}

mutual

theorem only_ofLiteral (h : AdmitsValues P) (position : Position) :
    ∀ v : Literal, Only P (ofLiteral position v)
  | .atom value => by
    rw [ofLiteral]
    exact .around (h _ _).1 (h _ _).2 .nil
  | .list items => by
    rw [ofLiteral]
    exact .around (h _ _).1 (h _ _).2 (only_ofItems h position items)
  | .object fields => by
    rw [ofLiteral]
    exact .around (h _ _).1 (h _ _).2 (only_ofFields h position fields)

theorem only_ofItems (h : AdmitsValues P) (position : Position) :
    ∀ items, Only P (ofItems position items)
  | [] => .nil
  | item :: rest => by
    rw [ofItems]
    exact (only_ofLiteral h position item).append (only_ofItems h position rest)

theorem only_ofFields (h : AdmitsValues P) (position : Position) :
    ∀ fields, Only P (ofFields position fields)
  | [] => .nil
  | (_, value) :: rest => by
    rw [ofFields]
    exact (only_ofLiteral h position value).append (only_ofFields h position rest)

end

theorem only_ofArguments (h : AdmitsValues P)
    (hlist : ∀ position list, P (arguments position list) = true)
    (hargument : ∀ position a,
      P (enter (.argument position a)) = true ∧ P (leave (.argument position a)) = true)
    (position : Position) (list : List Argument) : Only P (ofArguments position list) := by
  refine .cons (hlist _ _) (.flatMap (fun a => ?_) list)
  rw [ofArgument]
  exact .around (hargument _ _).1 (hargument _ _).2 (only_ofLiteral h position a.value)

theorem only_ofVariableDefinition (h : AdmitsValues P)
    (hvariable : ∀ x, P (enter (.variableDefinition x)) = true ∧
      P (leave (.variableDefinition x)) = true) (x : VariableDefinition) :
    Only P (ofVariableDefinition x) := by
  refine .around (hvariable x).1 (hvariable x).2 ?_
  cases x.default? with
  | none => exact .nil
  | some value => exact only_ofLiteral h x.position value

end Literals

theorem detail_ofArguments (position : Position) (list : List Argument) :
    Only isDetail (ofArguments position list) :=
  only_ofArguments (fun _ _ => ⟨rfl, rfl⟩) (fun _ _ => rfl) (fun _ _ => ⟨rfl, rfl⟩) position list

theorem detail_ofDirectives (list : List Directive) : Only isDetail (ofDirectives list) := by
  refine .cons rfl (.flatMap (fun d => ?_) list)
  rw [ofDirective]
  exact .around rfl rfl (detail_ofArguments d.position d.arguments)

theorem detail_ofVariableDefinition (x : VariableDefinition) :
    Only isDetail (ofVariableDefinition x) :=
  only_ofVariableDefinition (fun _ _ => ⟨rfl, rfl⟩) (fun _ => ⟨rfl, rfl⟩) x

theorem detail_details (item : Selection) : Only isDetail item.details := by
  cases item with
  | field node span items => exact (detail_ofArguments _ _).append (detail_ofDirectives _)
  | spread node => exact detail_ofDirectives _
  | inline node span items => exact detail_ofDirectives _

theorem inner_ofSelection {address : Address} {item : Selection}
    (h : Only isInner (item.ownSet address)) : Only isInner (ofSelection address item) := by
  rw [ofSelection_eq]
  refine .around ?_ ?_ ((detail_details item).inner.append h) <;> cases item <;> rfl

theorem inner_ofSelections (address : Address) (index : ℕ) (items : List Selection) :
    Only isInner (ofSelections address index items) := by
  induction items using Selection.items_induction generalizing address index with
  | nil => exact .nil
  | field node span items rest ihItems ihRest =>
    rw [ofSelections]
    refine .append (inner_ofSelection ?_) (ihRest _ _)
    cases items with
    | nil => exact .nil
    | cons item items => exact .around rfl rfl (ihItems _ _)
  | spread node rest ihRest =>
    rw [ofSelections]
    exact .append (inner_ofSelection .nil) (ihRest _ _)
  | inline node span items rest ihItems ihRest =>
    rw [ofSelections]
    exact .append (inner_ofSelection (.around rfl rfl (ihItems _ _))) (ihRest _ _)

theorem inner_ofSelectionSet (address : Address) (set : SelectionSet) :
    Only isInner (ofSelectionSet address set) :=
  .around rfl rfl (inner_ofSelections address 0 set.items)

/-- What stands inside the definition of an operation. -/
theorem inner_inOperation (address : Address) (o : Operation) :
    Only isInner (o.declared.flatMap ofVariableDefinition ++ ofDirectives o.directives ++
      ofSelectionSet address o.selectionSet) :=
  ((Only.flatMap detail_ofVariableDefinition o.declared).append
    (detail_ofDirectives o.directives)).inner.append (inner_ofSelectionSet address o.selectionSet)

/-- What stands inside the definition of a fragment. -/
theorem inner_inFragment (address : Address) (f : FragmentDefinition) :
    Only isInner (ofDirectives f.directives ++ ofSelectionSet address f.selectionSet) :=
  (detail_ofDirectives f.directives).inner.append (inner_ofSelectionSet address f.selectionSet)

theorem filterMap_around {α : Type} (choose : Hook → Option α) (node : Node) (inside : List Hook) :
    (around node inside).filterMap choose =
      (choose (enter node)).toList ++ (inside.filterMap choose ++ (choose (leave node)).toList) := by
  rw [around, List.filterMap_cons, List.filterMap_append, List.filterMap_cons, List.filterMap_nil]
  cases choose (enter node) <;> cases choose (leave node) <;> rfl

theorem ofDefinitions_operation {d : Definition} {o : Operation} (h : d.operation? = some o)
    (number operations : ℕ) (rest : List Definition) :
    ofDefinitions number operations (d :: rest) =
      ofOperation [number] operations o ++ ofDefinitions (number + 1) (operations + 1) rest := by
  rw [ofDefinitions, h]

theorem ofDefinitions_fragment (f : FragmentDefinition) (number operations : ℕ)
    (rest : List Definition) :
    ofDefinitions number operations (.fragment f :: rest) =
      ofFragmentDefinition [number] f ++ ofDefinitions (number + 1) operations rest := rfl

/-- What is chosen of the steps of definitions is what is picked of the definitions, if nothing is
chosen inside one. -/
theorem filterMap_ofDefinitions {α : Type} {choose : Hook → Option α} {pick : Definition → Option α}
    (hinner : ∀ hook : Hook, hook.isInner = true → choose hook = none)
    (hoperation : ∀ index definition o, definition.operation? = some o →
      definition.fragment? = none → choose (enter (.operation index o)) = pick definition ∧
        choose (leave (.operation index o)) = none)
    (hfragment : ∀ f, choose (enter (.fragmentDefinition f)) = pick (.fragment f) ∧
      choose (leave (.fragmentDefinition f)) = none)
    (number operations : ℕ) (definitions : List Definition) :
    (ofDefinitions number operations definitions).filterMap choose =
      definitions.filterMap pick := by
  have haround {node : Node} {inside : List Hook} (h : Only isInner inside)
      (hleave : choose (leave node) = none) :
      (around node inside).filterMap choose = (choose (enter node)).toList := by
    have hnothing : inside.filterMap choose = [] :=
      List.filterMap_eq_nil_iff.mpr fun hook hmem => hinner hook (h hook hmem)
    rw [filterMap_around, hnothing, hleave]
    exact List.append_nil _
  have hcons (d : Definition) (rest : List Definition) :
      (d :: rest).filterMap pick = (pick d).toList ++ rest.filterMap pick := by
    rw [List.filterMap_cons]
    cases pick d <;> rfl
  induction definitions generalizing number operations with
  | nil => rfl
  | cons d rest ih =>
    rcases d.operation_or_fragment with ⟨o, ho, hnone⟩ | ⟨f, rfl⟩
    · obtain ⟨henter, hleave⟩ := hoperation operations d o ho hnone
      rw [ofDefinitions_operation ho, List.filterMap_append, ofOperation,
        haround (inner_inOperation _ o) hleave, henter, ih, hcons]
    · obtain ⟨henter, hleave⟩ := hfragment f
      rw [ofDefinitions_fragment, List.filterMap_append, ofFragmentDefinition,
        haround (inner_inFragment _ f) hleave, henter, ih, hcons]

/-- The fragment whose definition a step enters. -/
def enteredFragment? : Hook → Option FragmentDefinition
  | enter (.fragmentDefinition f) => some f
  | _ => none

theorem enteredFragment?_ofDefinitions (number operations : ℕ) (definitions : List Definition) :
    (ofDefinitions number operations definitions).filterMap enteredFragment? =
      definitions.filterMap Definition.fragment? := by
  refine filterMap_ofDefinitions (fun hook hinner => ?_) (fun _ _ _ _ hnone => ⟨hnone.symm, rfl⟩)
    (fun _ => ⟨rfl, rfl⟩) number operations definitions
  unfold enteredFragment?
  split
  · cases hinner
  · rfl

end Hook

/-! ### The visits of parts -/

/-- How many operations there are before a definition. -/
def Definition.operationsBefore (definitions : List Definition) (number : ℕ) : ℕ :=
  ((definitions.take number).filterMap operation?).length

theorem Definition.operationsBefore_cons (d : Definition) (rest : List Definition) (j : ℕ) :
    operationsBefore (d :: rest) (j + 1) =
      d.operation?.toList.length + operationsBefore rest j := by
  rw [operationsBefore, List.take_succ_cons, List.filterMap_cons, operationsBefore]
  cases d.operation? with
  | none => exact (Nat.zero_add _).symm
  | some o => exact Nat.add_comm _ 1

namespace Visit

theorem hook_mem_of_mem_along {hooks : List Hook} {v : Visit} (h : v ∈ along schema s hooks) :
    v.hook ∈ hooks := by
  rw [← map_hook_along schema s hooks]
  exact List.mem_map_of_mem h

/-- The visits of a node are that of entering it, those inside it, and that of leaving it. -/
theorem mem_along_around {node : Node} {inside : List Hook} {v : Visit} :
    v ∈ along schema s (Hook.around node inside) ↔
      v = ⟨.enter node, s.enter schema node⟩ ∨ v ∈ along schema (s.enter schema node) inside ∨
        v = ⟨.leave node, Scope.after schema (s.enter schema node) inside⟩ := by
  rw [along_around, List.mem_cons, List.mem_append, List.mem_singleton]

theorem mem_along_append {before rest : List Hook} {v : Visit}
    (h : Scope.after schema s before = s) :
    v ∈ along schema s (before ++ rest) ↔
      v ∈ along schema s before ∨ v ∈ along schema s rest := by
  rw [along_append, h, List.mem_append]

section Parts

variable {v : Visit}

/-- The visits of arguments: their list is announced, then each of them is entered and left, and
so are its literals. -/
theorem mem_along_ofArguments (hs : s.parameter? = none) {position : Position}
    {list : List Argument} :
    v ∈ along schema s (Hook.ofArguments position list) ↔
      v = ⟨.arguments position list, s⟩ ∨ ∃ a ∈ list,
        v = ⟨.enter (.argument position a), s.enter schema (.argument position a)⟩ ∨
        v ∈ along schema (s.enter schema (.argument position a)) (Hook.ofLiteral position a.value) ∨
        v = ⟨.leave (.argument position a), s.enter schema (.argument position a)⟩ := by
  change v ∈ ⟨.arguments position list, s⟩ :: along schema s _ ↔ _
  rw [List.mem_cons, along_flatMap fun a _ => Scope.after_ofArgument hs position a,
    List.mem_flatMap]
  simp only [Hook.ofArgument, mem_along_around, Scope.after_ofLiteral]

/-- The visits of directives: their list is announced, then each of them is entered and left, and
its arguments are walked. -/
theorem mem_along_ofDirectives (hs : s.Idle) {list : List Directive} :
    v ∈ along schema s (Hook.ofDirectives list) ↔
      v = ⟨.directives list, s⟩ ∨ ∃ d ∈ list,
        v = ⟨.enter (.directive d), s.enter schema (.directive d)⟩ ∨
        v ∈ along schema (s.enter schema (.directive d)) (Hook.ofArguments d.position d.arguments) ∨
        v = ⟨.leave (.directive d), s.enter schema (.directive d)⟩ := by
  have hparameter (d : Directive) : (s.enter schema (.directive d)).parameter? = none := hs.1
  change v ∈ ⟨.directives list, s⟩ :: along schema s _ ↔ _
  rw [List.mem_cons, along_flatMap fun d _ => Scope.after_ofDirective hs d, List.mem_flatMap]
  simp only [Hook.ofDirective, mem_along_around, Scope.after_ofArguments (hparameter _)]

/-- The visits of a set. -/
theorem mem_along_ofSelectionSet (hs : s.Idle) {address : Address} {set : SelectionSet} :
    v ∈ along schema s (Hook.ofSelectionSet address set) ↔
      v = ⟨.enter (.selectionSet address set), s.enter schema (.selectionSet address set)⟩ ∨
      v ∈ along schema (s.enter schema (.selectionSet address set))
        (Hook.ofSelections address 0 set.items) ∨
      v = ⟨.leave (.selectionSet address set), s.enter schema (.selectionSet address set)⟩ := by
  rw [Hook.ofSelectionSet, mem_along_around, Scope.after_ofSelections hs.selectionSet]

/-- The visits of a selection: after its arguments and its directives its own set is walked. -/
theorem mem_along_ofSelection (hs : s.Idle) {address : Address} {item : Selection} :
    v ∈ along schema s (Hook.ofSelection address item) ↔
      v = ⟨.enter item.node, s.enter schema item.node⟩ ∨
      v ∈ along schema (s.enter schema item.node) item.details ∨
      v ∈ along schema (s.enter schema item.node) (item.ownSet address) ∨
      v = ⟨.leave item.node, s.enter schema item.node⟩ := by
  have hitem : (s.enter schema item.node).Idle := hs.item schema item
  rw [Hook.ofSelection_eq, mem_along_around, mem_along_append (Scope.after_details hitem item),
    Scope.after_append, Scope.after_details hitem, Scope.after_ownSet hitem, or_assoc]

/-- The visits of an operation: the definitions of its variables, its directives and its set. -/
theorem mem_along_ofOperation (hs : s.Idle) {address : Address} {index : ℕ} {o : Operation} :
    v ∈ along schema s (Hook.ofOperation address index o) ↔
      v = ⟨.enter (.operation index o), s.enter schema (.operation index o)⟩ ∨
      (∃ x ∈ o.declared,
        v ∈ along schema (s.enter schema (.operation index o)) (Hook.ofVariableDefinition x)) ∨
      v ∈ along schema (s.enter schema (.operation index o)) (Hook.ofDirectives o.directives) ∨
      v ∈ along schema (s.enter schema (.operation index o))
        (Hook.ofSelectionSet address o.selectionSet) ∨
      v = ⟨.leave (.operation index o), s.enter schema (.operation index o)⟩ := by
  have hdeclared : Scope.after schema (s.enter schema (.operation index o))
      (o.declared.flatMap Hook.ofVariableDefinition) = s.enter schema (.operation index o) :=
    Scope.after_flatMap fun x _ => Scope.after_ofVariableDefinition _ _ x
  rw [Hook.ofOperation, mem_along_around, List.append_assoc, mem_along_append hdeclared,
    mem_along_append (Scope.after_ofDirectives hs.operation _), Scope.after_append,
    Scope.after_append, hdeclared, Scope.after_ofDirectives hs.operation,
    Scope.after_ofSelectionSet hs.operation,
    along_flatMap fun x _ => Scope.after_ofVariableDefinition _ _ x, List.mem_flatMap, or_assoc,
    or_assoc]

/-- The visits of the definition of a fragment. -/
theorem mem_along_ofFragmentDefinition (hs : s.Idle) {address : Address} {f : FragmentDefinition} :
    v ∈ along schema s (Hook.ofFragmentDefinition address f) ↔
      v = ⟨.enter (.fragmentDefinition f), s.enter schema (.fragmentDefinition f)⟩ ∨
      v ∈ along schema (s.enter schema (.fragmentDefinition f)) (Hook.ofDirectives f.directives) ∨
      v ∈ along schema (s.enter schema (.fragmentDefinition f))
        (Hook.ofSelectionSet address f.selectionSet) ∨
      v = ⟨.leave (.fragmentDefinition f), s.enter schema (.fragmentDefinition f)⟩ := by
  rw [Hook.ofFragmentDefinition, mem_along_around,
    mem_along_append (Scope.after_ofDirectives hs.fragmentDefinition _), Scope.after_append,
    Scope.after_ofDirectives hs.fragmentDefinition, Scope.after_ofSelectionSet hs.fragmentDefinition,
    or_assoc]

/-- The visits of the selections of a set, the first one and the later ones. -/
theorem mem_along_ofSelections_cons (hs : s.Idle) {address : Address} {index : ℕ}
    {first : Selection} {rest : List Selection} :
    v ∈ along schema s (Hook.ofSelections address index (first :: rest)) ↔
      v ∈ along schema s (Hook.ofSelection (index :: address) first) ∨
      v ∈ along schema s (Hook.ofSelections address (index + 1) rest) := by
  rw [Hook.ofSelections, mem_along_append (Scope.after_ofSelection hs (index :: address) first)]

/-- The visits of the selections of a set are those of each of them. -/
theorem mem_along_ofSelections (hs : s.Idle) {address : Address} {index : ℕ}
    {items : List Selection} :
    v ∈ along schema s (Hook.ofSelections address index items) ↔
      ∃ k item, items[k]? = some item ∧
        v ∈ along schema s (Hook.ofSelection ((index + k) :: address) item) := by
  induction items generalizing index with
  | nil => simp [Hook.ofSelections, along]
  | cons first rest ih =>
    rw [mem_along_ofSelections_cons hs, ih]
    constructor
    · rintro (hv | ⟨k, item, hitem, hv⟩)
      · exact ⟨0, first, rfl, hv⟩
      · exact ⟨k + 1, item, hitem, by rwa [Nat.add_right_comm] at hv⟩
    · rintro ⟨k, item, hitem, hv⟩
      cases k with
      | zero =>
        obtain rfl := Option.some.inj hitem
        exact .inl hv
      | succ k => exact .inr ⟨k, item, hitem, by rwa [Nat.add_right_comm]⟩

end Parts

/-- The visits of definitions are those of the operations and fragments among them. -/
theorem mem_along_ofDefinitions (hs : s.Idle) {number operations : ℕ}
    {definitions : List Definition} {v : Visit} :
    v ∈ along schema s (Hook.ofDefinitions number operations definitions) ↔
      (∃ j definition o, definitions[j]? = some definition ∧ definition.operation? = some o ∧
        v ∈ along schema s (Hook.ofOperation [number + j]
          (operations + Definition.operationsBefore definitions j) o)) ∨
      ∃ j f, definitions[j]? = some (.fragment f) ∧
        v ∈ along schema s (Hook.ofFragmentDefinition [number + j] f) := by
  induction definitions generalizing number operations with
  | nil => simp [Hook.ofDefinitions, along]
  | cons d rest ih =>
    rcases d.operation_or_fragment with ⟨o, ho, hnone⟩ | ⟨f, rfl⟩
    · rw [Hook.ofDefinitions_operation ho, mem_along_append (Scope.after_ofOperation hs _ _ o), ih]
      have hbefore (j : ℕ) : operations + Definition.operationsBefore (d :: rest) (j + 1) =
          operations + 1 + Definition.operationsBefore rest j := by
        rw [Definition.operationsBefore_cons, ho, Option.toList_some, List.length_singleton,
          ← Nat.add_assoc]
      constructor
      · rintro (hv | ⟨j, definition, p, hj, hp, hv⟩ | ⟨j, f, hj, hv⟩)
        · exact .inl ⟨0, d, o, rfl, ho, hv⟩
        · refine .inl ⟨j + 1, definition, p, hj, hp, ?_⟩
          rwa [hbefore, ← Nat.add_assoc, Nat.add_right_comm number]
        · exact .inr ⟨j + 1, f, hj, by rwa [Nat.add_right_comm] at hv⟩
      · rintro (⟨j, definition, p, hj, hp, hv⟩ | ⟨j, f, hj, hv⟩)
        · cases j with
          | zero =>
            obtain rfl := Option.some.inj hj
            obtain rfl := Option.some.inj (ho.symm.trans hp)
            exact .inl hv
          | succ j =>
            rw [hbefore, ← Nat.add_assoc, Nat.add_right_comm number] at hv
            exact .inr (.inl ⟨j, definition, p, hj, hp, hv⟩)
        · cases j with
          | zero => cases Option.some.inj hj; cases ho
          | succ j => exact .inr (.inr ⟨j, f, hj, by rwa [Nat.add_right_comm]⟩)
    · rw [Hook.ofDefinitions_fragment, mem_along_append (Scope.after_ofFragmentDefinition hs _ f), ih]
      have hbefore (j : ℕ) : Definition.operationsBefore (.fragment f :: rest) (j + 1) =
          Definition.operationsBefore rest j :=
        (Definition.operationsBefore_cons (.fragment f) rest j).trans (Nat.zero_add _)
      constructor
      · rintro (hv | ⟨j, definition, p, hj, hp, hv⟩ | ⟨j, g, hj, hv⟩)
        · exact .inr ⟨0, f, rfl, hv⟩
        · refine .inl ⟨j + 1, definition, p, hj, hp, ?_⟩
          rwa [hbefore, ← Nat.add_assoc, Nat.add_right_comm number]
        · exact .inr ⟨j + 1, g, hj, by rwa [Nat.add_right_comm] at hv⟩
      · rintro (⟨j, definition, p, hj, hp, hv⟩ | ⟨j, g, hj, hv⟩)
        · cases j with
          | zero => cases Option.some.inj hj; cases hp
          | succ j =>
            rw [hbefore, ← Nat.add_assoc, Nat.add_right_comm number] at hv
            exact .inr (.inl ⟨j, definition, p, hj, hp, hv⟩)
        · cases j with
          | zero =>
            obtain rfl := Definition.fragment.inj (Option.some.inj hj)
            exact .inl hv
          | succ j => exact .inr (.inr ⟨j, g, hj, by rwa [Nat.add_right_comm]⟩)

end Visit

/-- A walk enters the definitions of the fragments in their order. -/
theorem Document.enteredFragment?_hooks (d : Document) :
    d.hooks.filterMap Hook.enteredFragment? = d.fragments := by
  rw [hooks, Hook.filterMap_around, Hook.enteredFragment?_ofDefinitions]
  exact List.append_nil _

namespace Document

/-- The scope in which the definitions of a document are walked. -/
def topScope (schema : Schema) (d : Document) : Scope := Scope.empty.enter schema (.document d)

theorem idle_topScope (schema : Schema) (d : Document) : (d.topScope schema).Idle := ⟨rfl, rfl⟩

/-- The visits of a document are those of its definitions, and those of entering and leaving it. -/
theorem mem_visits {d : Document} {v : Visit} :
    v ∈ d.visits schema ↔
      v = ⟨.enter (.document d), d.topScope schema⟩ ∨
      (∃ j definition o, d.definitions[j]? = some definition ∧ definition.operation? = some o ∧
        v ∈ Visit.along schema (d.topScope schema) (Hook.ofOperation [j]
          (Definition.operationsBefore d.definitions j) o)) ∨
      (∃ j f, d.definitions[j]? = some (.fragment f) ∧
        v ∈ Visit.along schema (d.topScope schema) (Hook.ofFragmentDefinition [j] f)) ∨
      v = ⟨.leave (.document d), Scope.after schema (d.topScope schema)
        (Hook.ofDefinitions 0 0 d.definitions)⟩ := by
  rw [visits, hooks, Visit.mem_along_around, ← topScope,
    Visit.mem_along_ofDefinitions (d.idle_topScope schema), or_assoc]
  simp only [Nat.zero_add]

end Document

end GraphQLCheck
