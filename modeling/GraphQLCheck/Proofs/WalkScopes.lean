import GraphQLCheck.Proofs.SharedRun
import GraphQLCheck.Proofs.Walking.Tours

/-!
# The walk and its scopes

The walk of a document is a tour of it, and what it knows at each step is what the path to that step
shows, whatever was visited before (`walk_scoped_and_balanced`). There are two halves. That the
steps are those of a tour is an induction over the syntax, one case for each kind of part
(`Toured`). That the scopes are those of the paths needs only two facts of a single part: leaving it
undoes entering it, and what stands in it finds the slots for the parameter and the directive as
empty as it needs them (`Part.Fits`).
-/

namespace GraphQLCheck

/-! ### The steps of the walk are those of a tour -/

/-- Wherever the items stand, their tour makes these steps. -/
def Toured (schema : Schema) (items : List Item) (hooks : List Hook) : Prop :=
  ∀ path place k, ∃ stops, Tour schema path place k items stops ∧ stops.map (·.2.hook) = hooks

namespace Toured

variable {schema : Schema} {items others : List Item} {hooks later : List Hook}

theorem nil : Toured schema [] [] := fun _ _ _ => ⟨[], .nil, rfl⟩

theorem append (h : Toured schema items hooks) (hlater : Toured schema others later) :
    Toured schema (items ++ others) (hooks ++ later) := by
  intro path place k
  obtain ⟨stops, htour, rfl⟩ := h path place k
  obtain ⟨stops', htour', rfl⟩ := hlater path place (k + items.length)
  exact ⟨stops ++ stops', htour.append htour', List.map_append⟩

theorem announce {item : Item} {hook : Hook} (h : item.hook? .announce = some hook) :
    Toured schema [item] [hook] :=
  fun _ _ _ => ⟨_, .announce h .nil, rfl⟩

theorem around {p : Part} (h : Toured schema p.items hooks) :
    Toured schema [.part p] (Hook.around p.node hooks) := by
  intro path place k
  obtain ⟨stops, htour, rfl⟩ := h (p :: path) (place ++ [k]) 0
  refine ⟨_, .part htour .nil, ?_⟩
  rw [List.map_cons, List.map_append]
  rfl

theorem flatMap {α : Type} {item : α → Item} {walk : α → List Hook}
    (h : ∀ a, Toured schema [item a] (walk a)) (list : List α) :
    Toured schema (list.map item) (list.flatMap walk) := by
  induction list with
  | nil => exact nil
  | cons a list ih =>
    rw [List.flatMap_cons]
    exact (h a).append ih

mutual

theorem literal (position : Position) :
    ∀ v : Literal, Toured schema [.part (.value position v)] (Hook.ofLiteral position v)
  | .atom value => by
    rw [Hook.ofLiteral]
    exact around (p := .value position (.atom value)) nil
  | .list items => by
    rw [Hook.ofLiteral]
    exact around (p := .value position (.list items)) (listItems position items)
  | .object fields => by
    rw [Hook.ofLiteral]
    exact around (p := .value position (.object fields)) (objectFields position fields)

theorem listItems (position : Position) : ∀ items : List Literal,
    Toured schema (items.map fun v => .part (.value position v)) (Hook.ofItems position items)
  | [] => nil
  | item :: rest => by
    rw [Hook.ofItems]
    exact (literal position item).append (listItems position rest)

theorem objectFields (position : Position) : ∀ fields : List (String × Literal),
    Toured schema (fields.map fun field => .part (.value position field.2))
      (Hook.ofFields position fields)
  | [] => nil
  | (_, value) :: rest => by
    rw [Hook.ofFields]
    exact (literal position value).append (objectFields position rest)

end

theorem arguments (position : Position) (list : List Argument) :
    Toured schema (Item.ofArguments position list) (Hook.ofArguments position list) := by
  have hargument (a : Argument) :
      Toured schema [.part (.argument position a)] (Hook.ofArgument position a) :=
    around (p := .argument position a) (literal position a.value)
  exact (announce rfl).append (flatMap hargument list)

theorem directives (list : List Directive) :
    Toured schema (Item.ofDirectives list) (Hook.ofDirectives list) := by
  have hdirective (d : Directive) : Toured schema [.part (.directive d)] (Hook.ofDirective d) :=
    around (p := .directive d) (arguments d.position d.arguments)
  exact (announce rfl).append (flatMap hdirective list)

theorem variableDefinition (v : VariableDefinition) :
    Toured schema [.part (.variableDefinition v)] (Hook.ofVariableDefinition v) := by
  refine around (p := .variableDefinition v) ?_
  rw [Part.items]
  cases v.default? with
  | none => exact nil
  | some value => exact literal v.position value

section Selections

variable {address : Address} {index : ℕ} {items : List Selection}

theorem selections_cons {item : Selection}
    (h : Toured schema [.part (.selection (index :: address) item)]
      (Hook.ofSelection (index :: address) item))
    (hrest : Toured schema
      (items.mapIdx fun i item => .part (.selection ((index + 1 + i) :: address) item))
      (Hook.ofSelections address (index + 1) items)) :
    Toured schema
      ((item :: items).mapIdx fun i item => .part (.selection ((index + i) :: address) item))
      (Hook.ofSelections address index (item :: items)) := by
  have hlater : (fun i item => Item.part (.selection ((index + (i + 1)) :: address) item)) =
      fun i item => .part (.selection ((index + 1 + i) :: address) item) := by
    funext i item
    rw [Nat.add_right_comm, Nat.add_assoc]
  rw [Hook.ofSelections, List.mapIdx_cons, hlater]
  exact h.append hrest

theorem ofItems {span : Span}
    (h : Toured schema (items.mapIdx fun i item => .part (.selection ((0 + i) :: address) item))
      (Hook.ofSelections address 0 items)) :
    Toured schema [.part (.selectionSet address ⟨span, items⟩)]
      (Hook.ofSelectionSet address ⟨span, items⟩) := by
  simp only [Nat.zero_add] at h
  exact around (p := .selectionSet address ⟨span, items⟩) h

end Selections

theorem selections (address : Address) (index : ℕ) (items : List Selection) :
    Toured schema (items.mapIdx fun i item => .part (.selection ((index + i) :: address) item))
      (Hook.ofSelections address index items) := by
  induction items using Selection.items_induction generalizing address index with
  | nil => exact nil
  | field node span items rest ihItems ihRest =>
    refine selections_cons ?_ (ihRest address (index + 1))
    have hdetails : Toured schema
        (Item.ofArguments node.position node.arguments ++ Item.ofDirectives node.directives)
        (Selection.field node span items).details :=
      (arguments node.position node.arguments).append (directives node.directives)
    rw [Hook.ofSelection_eq]
    cases items with
    | nil =>
      rw [Selection.ownSet, List.append_nil]
      exact around (p := .selection (index :: address) (.field node span [])) hdetails
    | cons item items =>
      exact around (p := .selection (index :: address) (.field node span (item :: items)))
        (hdetails.append (ofItems (ihItems (index :: address) 0)))
  | spread node rest ihRest =>
    refine selections_cons ?_ (ihRest address (index + 1))
    rw [Hook.ofSelection_eq, Selection.ownSet, List.append_nil]
    exact around (p := .selection (index :: address) (.spread node)) (directives node.directives)
  | inline node span items rest ihItems ihRest =>
    refine selections_cons ?_ (ihRest address (index + 1))
    rw [Hook.ofSelection_eq]
    exact around (p := .selection (index :: address) (.inline node span items))
      ((directives node.directives).append (ofItems (ihItems (index :: address) 0)))

theorem selectionSet (address : Address) (set : SelectionSet) :
    Toured schema [.part (.selectionSet address set)] (Hook.ofSelectionSet address set) :=
  ofItems (selections address 0 set.items)

theorem operation (number index : ℕ) (o : Operation) :
    Toured schema [.part (.operation number index o)] (Hook.ofOperation [number] index o) :=
  around (p := .operation number index o)
    (((flatMap variableDefinition o.declared).append (directives o.directives)).append
      (selectionSet [number] o.selectionSet))

theorem fragmentDefinition (number : ℕ) (f : FragmentDefinition) :
    Toured schema [.part (.fragmentDefinition number f)] (Hook.ofFragmentDefinition [number] f) :=
  around (p := .fragmentDefinition number f)
    ((directives f.directives).append (selectionSet [number] f.selectionSet))

end Toured

theorem Item.ofDefinition_of_operation {d : Definition} {o : Operation} (h : d.operation? = some o)
    (number operations : ℕ) :
    ofDefinition number operations d = .part (.operation number operations o) := by
  cases d with
  | operation node | bare set =>
    obtain rfl := Option.some.inj h
    rfl
  | fragment f => cases h

theorem Toured.definitions {schema : Schema} (number operations : ℕ)
    (definitions : List Definition) :
    Toured schema
      (definitions.mapIdx fun j definition => .ofDefinition (number + j)
        (operations + Definition.operationsBefore definitions j) definition)
      (Hook.ofDefinitions number operations definitions) := by
  induction definitions generalizing number operations with
  | nil => exact nil
  | cons d rest ih =>
    have hlater : (fun j definition => Item.ofDefinition (number + (j + 1))
          (operations + Definition.operationsBefore (d :: rest) (j + 1)) definition) =
        fun j definition => .ofDefinition (number + 1 + j)
          (operations + d.operation?.toList.length + Definition.operationsBefore rest j)
          definition := by
      funext j definition
      rw [Definition.operationsBefore_cons, Nat.add_right_comm number, Nat.add_assoc number,
        Nat.add_assoc operations]
    rw [List.mapIdx_cons, hlater]
    rcases d.operation_or_fragment with ⟨o, ho, -⟩ | ⟨f, rfl⟩
    · rw [Hook.ofDefinitions_operation ho, Item.ofDefinition_of_operation ho, ho]
      exact (operation number operations o).append (ih (number + 1) (operations + 1))
    · exact (fragmentDefinition number f).append (ih (number + 1) operations)

/-- The walk of a document makes the steps of a tour of it. -/
theorem Document.exists_tour (schema : Schema) (d : Document) :
    ∃ stops, Tour schema [] [] 0 [.part (.document d)] stops ∧
      stops.map (·.2.hook) = d.hooks := by
  have hitems : Toured schema (Part.document d).items (Hook.ofDefinitions 0 0 d.definitions) := by
    have hdefinitions : Toured schema _ _ := .definitions 0 0 d.definitions
    simp only [Nat.zero_add] at hdefinitions
    exact hdefinitions
  exact hitems.around [] [] 0

/-! ### The scopes of the walk are those of the paths -/

/-- The slots of a scope for the parameter and the directive are as empty as a part needs them, so
that leaving it need not bring anything back. Values and definitions of variables use neither. -/
def Part.Fits (s : Scope) : Part → Prop
  | value _ _ | variableDefinition _ => True
  | argument _ _ => s.parameter? = none
  | _ => s.Idle

theorem Item.eq_of_mem_map {α : Type} {f : α → Part} {list : List α} {p : Part}
    (h : Item.part p ∈ list.map fun a => .part (f a)) : ∃ a, p = f a := by
  obtain ⟨a, -, ha⟩ := List.mem_map.mp h
  exact ⟨a, (Item.part.inj ha).symm⟩

namespace Part

variable {schema : Schema} {s : Scope}

theorem fits_of_idle (h : s.Idle) (p : Part) : p.Fits s := by
  cases p with
  | value position v | variableDefinition v => trivial
  | argument position a => exact h.parameter
  | _ => exact h

theorem leave_enter {p : Part} (h : p.Fits s) : (s.enter schema p.node).leave p.node = s := by
  obtain ⟨ancestors, types, parents, fields, parameter, directive⟩ := s
  cases p with
  | selection address item => exact Scope.leave_enter_item schema _ item
  | argument position a =>
    obtain rfl : parameter = none := h
    rfl
  | directive d =>
    obtain rfl : directive = none := h.directive
    rfl
  | _ => rfl

/-- What stands in a part that fits, fits inside it. -/
theorem Fits.items {p : Part} (h : p.Fits s) {q : Part} (hq : .part q ∈ p.items) :
    q.Fits (s.enter schema p.node) := by
  cases p with
  | value position v =>
    cases v with
    | atom v => cases hq
    | list items =>
      obtain ⟨v, rfl⟩ := Item.eq_of_mem_map hq
      trivial
    | object fields =>
      obtain ⟨field, rfl⟩ := Item.eq_of_mem_map hq
      trivial
  | variableDefinition v =>
    obtain ⟨value, rfl⟩ := Item.eq_of_mem_map hq
    trivial
  | argument position a =>
    obtain rfl := Item.part.inj (List.mem_singleton.mp hq)
    trivial
  | directive d =>
    rcases List.mem_cons.mp hq with heq | hq
    · cases heq
    · obtain ⟨a, rfl⟩ := Item.eq_of_mem_map hq
      exact h.parameter
  | document d => exact fits_of_idle (s := s.enter schema (.document d)) ⟨h.1, h.2⟩ q
  | operation number index o => exact fits_of_idle (Scope.Idle.operation h) q
  | fragmentDefinition number f => exact fits_of_idle (Scope.Idle.fragmentDefinition h) q
  | selectionSet address set => exact fits_of_idle (Scope.Idle.selectionSet h) q
  | selection address item => exact fits_of_idle (Scope.Idle.item h schema item) q

end Part

/-- The visits of a tour are made in the scopes of its paths, and it ends in the scope in which it
starts. -/
theorem Tour.along_and_after {schema : Schema} {path : List Part} {place : List ℕ} {k : ℕ}
    {items : List Item} {stops : List (Call × Visit)} (h : Tour schema path place k items stops)
    (hfits : ∀ p, .part p ∈ items → p.Fits (.inside schema path)) :
    Visit.along schema (.inside schema path) (stops.map (·.2.hook)) = stops.map (·.2) ∧
      Scope.after schema (.inside schema path) (stops.map (·.2.hook)) = .inside schema path := by
  induction h with
  | nil => exact ⟨rfl, rfl⟩
  | @announce path place k item hook rest stops hhook hrest ih =>
    obtain ⟨halong, hafter⟩ := ih fun p hp => hfits p (List.mem_cons_of_mem _ hp)
    cases item with
    | part p => cases hhook
    | arguments position list | directives list =>
      obtain rfl := Option.some.inj hhook
      exact ⟨congrArg _ halong, hafter⟩
  | @part path place k p rest inner stops hinner hrest ihInner ihRest =>
    have hp : p.Fits (.inside schema path) := hfits p List.mem_cons_self
    obtain ⟨halong, hafter⟩ := ihRest fun q hq => hfits q (List.mem_cons_of_mem _ hq)
    obtain ⟨halongInner, hafterInner⟩ := ihInner fun q hq => hp.items hq
    have hleave : (Scope.inside schema (p :: path)).leave p.node = .inside schema path :=
      Part.leave_enter hp
    have hwalk : Visit.along schema (.inside schema (p :: path))
        (inner.map (·.2.hook) ++ .leave p.node :: stops.map (·.2.hook)) =
          inner.map (·.2) ++ ⟨.leave p.node, .inside schema (p :: path)⟩ :: stops.map (·.2) := by
      rw [Visit.along_append, halongInner, hafterInner, Visit.along, hleave, halong]
    have hend : Scope.after schema (.inside schema (p :: path))
        (inner.map (·.2.hook) ++ .leave p.node :: stops.map (·.2.hook)) = .inside schema path := by
      rw [Scope.after_append, hafterInner, Scope.after, hleave, hafter]
    simp only [List.map_cons, List.map_append]
    exact ⟨congrArg _ hwalk, hend⟩

/-- All rules of a shared run look at each visit once, in order. -/
theorem ActiveRule.walk_rules {schema : Schema} {d : Document} {context : SharedContext}
    {visits : List Visit} (hvisits : visits ⊆ d.visits schema)
    (hmemo : context.memo.Sound schema d) (rules : List ActiveRule) :
    (visits.foldl (fun (state : SharedContext × List ActiveRule) visit =>
        dispatch schema d visit state.1 state.2) (context, rules)).2 =
      rules.map fun active =>
        visits.foldl (fun active visit => active.advance (.of schema d) visit) active := by
  induction visits generalizing context rules with
  | nil => exact (List.map_id rules).symm
  | cons visit visits ih =>
    obtain ⟨hrules, -, hsound⟩ := dispatch_spec (hvisits List.mem_cons_self) hmemo rules
    have hrest := ih (List.Subset.trans (List.subset_cons_self _ _) hvisits) hsound
      (dispatch schema d visit context rules).2
    rw [List.foldl_cons, hrest, hrules, List.map_map]
    rfl

/-- A visit is the call at a place of a document: it makes the step that the item there asks for, in
a scope that shows the path to that item. -/
def Document.Sees (schema : Schema) (d : Document) (call : Call) (visit : Visit) : Prop :=
  ∃ above item, d.at? call.place = some (above, item) ∧ item.hook? call.kind = some visit.hook ∧
    visit.scope.Shows schema (item.path above)

/-- The walk of a document enters and leaves each part once, in the order of the text and properly
nested, and announces each list once; at every step the scope shows what the path to the part at
hand and the schema say; at the end all stacks are empty and neither a parameter nor a directive is
at hand; and in a run with several rules each of them looks at every step once, in order. -/
theorem walk_scoped_and_balanced (schema : Schema) (d : Document) :
    (∃ calls, d.Tours calls ∧ List.Forall₂ (d.Sees schema) calls (d.visits schema)) ∧
      d.finalScope schema = .empty ∧
      ∀ rules : List ActiveRule,
        ((d.visits schema).foldl (fun (state : SharedContext × List ActiveRule) visit =>
            ActiveRule.dispatch schema d visit state.1 state.2) (⟨[], []⟩, rules)).2 =
          rules.map fun active => (d.visits schema).foldl
            (fun active visit => active.advance (.of schema d) visit) active := by
  obtain ⟨stops, htour, hhooks⟩ := d.exists_tour schema
  obtain ⟨halong, hafter⟩ := htour.along_and_after fun p _ => Part.fits_of_idle ⟨rfl, rfl⟩ p
  rw [hhooks] at halong hafter
  refine ⟨⟨stops.map Prod.fst, Document.tours_of_tour htour, ?_⟩, hafter,
    ActiveRule.walk_rules (List.Subset.refl _) (UsageMemo.sound_nil schema d)⟩
  change List.Forall₂ _ _ (Visit.along schema (.inside schema []) d.hooks)
  rw [halong, List.forall₂_map_left_iff, List.forall₂_map_right_iff, List.forall₂_same]
  intro stop hstop
  obtain ⟨above, item, hfound, hhook, hscope⟩ := htour.found_of_mem hstop
  refine ⟨above, item, Document.found_iff.mp hfound, hhook, ?_⟩
  rw [hscope]
  exact Scope.shows_inside schema _

end GraphQLCheck
