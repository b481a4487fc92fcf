import GraphQLCheck.Proofs.CycleSearch
import GraphQLCheck.Proofs.KnownScopes
import GraphQLCheck.Proofs.Reordering.Clashes
import GraphQLCheck.Proofs.UniqueNames

/-!
# Validity does not depend on the order of definitions

Several rules carry something from one definition to the next: names seen before, fragments explored
before, fields and fragments compared before. And a fragment is looked up by its first definition.
All of this may decide where a problem is reported and how often, but not whether there is one: a run
with all rules is silent on a document exactly if it is silent on the document with its definitions
in another order (`silent_in_any_order`).

Most rules look at each visit for itself, and the visits of the two walks correspond
(`Reordered.exists_visit`). A rule that looks at fragments or at uses of variables finds the same
ones in both documents, because the rule on the names of fragments is silent. Each of the five rules
with a state has a meaning that does not mention an order.
-/

namespace GraphQLCheck

namespace Document

/-! ### Fragments in both documents -/

/-- Fragments are found by name in both documents, and there are equally many. -/
structure SameFragments (d d' : Document) : Prop where
  /-- A name is that of the same fragment. -/
  find : ∀ name, d.fragment? name = d'.fragment? name
  /-- There are equally many fragments. -/
  count : d.fragments.length = d'.fragments.length

theorem Reordered.sameFragments {d d' : Document} (h : d.Reordered d')
    (hunique : (d.fragments.map (·.name)).Nodup) : d.SameFragments d' :=
  ⟨h.fragment?_eq hunique, h.fragments.length_eq⟩

variable {schema : Schema} {d d' : Document}

theorem SameFragments.acyclic_iff (h : d.SameFragments d') : d.Acyclic ↔ d'.Acyclic := by
  have hrefers : d.RefersBut [] = d'.RefersBut [] := by
    funext a b
    simp only [RefersBut, Holds, h.find]
  rw [Acyclic, AcyclicBut, hrefers, Acyclic, AcyclicBut]

namespace SameFragments

open VariableUse

theorem found_selections (h : d.SameFragments d') (enter : FragmentDefinition → Found → Found)
    (items : List Selection) (parent? : Option TypeDefinition) (found : Found) :
    Found.selections schema d enter parent? items found =
      Found.selections schema d' enter parent? items found := by
  induction items using Selection.items_induction generalizing parent? found with
  | nil => rfl
  | field node span own rest ihOwn ihRest =>
    simp only [Found.selections, Found.selection, ihOwn, ihRest]
  | spread node rest ihRest =>
    simp only [Found.selections, Found.selection, Found.follow, h.find, ihRest]
  | inline node span own rest ihOwn ihRest =>
    simp only [Found.selections, Found.selection, ihOwn, ihRest]

theorem found_fragment (h : d.SameFragments d') (depth : ℕ) :
    Found.fragment schema d depth = Found.fragment schema d' depth := by
  induction depth with
  | zero => rfl
  | succ depth ih =>
    funext f found
    rw [Found.fragment, Found.fragment, ih, h.found_selections]

theorem variableUses_eq (h : d.SameFragments d') (o : Operation) :
    o.variableUses schema d = o.variableUses schema d' := by
  rw [Operation.variableUses, Operation.variableUses, h.count, h.found_fragment,
    h.found_selections]

theorem top_selections (h : d.SameFragments d')
    (enter : FragmentDefinition → TopFields → TopFields) (items : List Selection)
    (top : TopFields) :
    TopFields.selections d enter items top = TopFields.selections d' enter items top := by
  induction items using Selection.items_induction generalizing top with
  | nil => rfl
  | field node span own rest ihOwn ihRest =>
    simp only [TopFields.selections, TopFields.selection, ihRest]
  | spread node rest ihRest =>
    simp only [TopFields.selections, TopFields.selection, TopFields.follow, h.find, ihRest]
  | inline node span own rest ihOwn ihRest =>
    simp only [TopFields.selections, TopFields.selection, ihOwn, ihRest]

theorem top_fragment (h : d.SameFragments d') (depth : ℕ) :
    TopFields.fragment d depth = TopFields.fragment d' depth := by
  induction depth with
  | zero => rfl
  | succ depth ih =>
    funext f top
    rw [TopFields.fragment, TopFields.fragment, ih, h.top_selections]

theorem topFields_eq (h : d.SameFragments d') (o : Operation) :
    o.topFields d = o.topFields d' := by
  rw [Operation.topFields, Operation.topFields, h.count, h.top_fragment, h.top_selections]

/-- The uses of variables that are kept for an operation, under its number in each document. -/
theorem usesOf_eq (h : d.SameFragments d') {i j : ℕ} {o : Operation}
    (hi : d.operations[i]? = some o) (hj : d'.operations[j]? = some o) :
    (Setting.of schema d).usesOf i = (Setting.of schema d').usesOf j := by
  rw [Setting.usesOf_operation hi, Setting.usesOf_operation hj, h.variableUses_eq]

end SameFragments

end Document

/-! ### Rules that look at each visit for itself -/

/-- The rule finds nothing at any visit of a document. -/
def RuleName.Silent (r : RuleName) (schema : Schema) (d : Document) : Prop :=
  ∀ findings ∈ r.report (.of schema d) (d.visits schema), findings = []

section Rules

variable {schema : Schema} {d d' : Document} {r : RuleName}

theorem RuleName.silent_iff_diagnostics :
    r.Silent schema d ↔ (Validation.ofRules [r]).diagnostics schema d = [] := by
  rw [Validation.diagnostics_single, List.map_eq_nil_iff, List.flatten_eq_nil_iff, Silent]

/-- A rule is silent in another order if it finds nothing at a visit that corresponds to one at which
it finds nothing. -/
theorem Document.Reordered.silent_each {look : Setting → Visit → List Finding}
    (h : d.Reordered d') (hr : r.report = Report.each look)
    (hlook : ∀ {hook hook' : Hook} {s : Scope}, hook.Like d d' hook' →
      look (.of schema d) ⟨hook, s⟩ = [] → look (.of schema d') ⟨hook', s⟩ = [])
    (hsilent : r.Silent schema d) : r.Silent schema d' := by
  rw [RuleName.Silent, hr, Report.each, List.forall_mem_map] at hsilent ⊢
  intro v' hv'
  obtain ⟨v, hv, hlike, hscope⟩ := h.exists_visit hv'
  obtain ⟨hook', s⟩ := v'
  obtain ⟨hook, _⟩ := v
  obtain rfl := hscope
  exact hlook hlike (hsilent _ hv)

/-- The rules that look at neither the document nor at numbers. -/
theorem Document.Reordered.silent_indifferent (h : d.Reordered d')
    (hr : r ∈ [.argumentsOfCorrectType, .defaultValuesOfCorrectType, .fieldsOnCorrectType,
      .fragmentsOnCompositeTypes, .knownArgumentNames, .knownDirectives, .knownTypeNames,
      .providedNonNullArguments, .scalarLeafs, .uniqueArgumentNames, .uniqueDirectivesPerLocation,
      .uniqueVariableNames, .variablesAreInputTypes])
    (hsilent : r.Silent schema d) : r.Silent schema d' := by
  revert hsilent
  simp only [List.mem_cons, List.not_mem_nil, or_false] at hr
  rcases hr with rfl | rfl | rfl | rfl | rfl | rfl | rfl | rfl | rfl | rfl | rfl | rfl | rfl
  all_goals
    refine h.silent_each rfl fun hlike => ?_
    cases hlike with
    | enter hnode => cases hnode <;> exact id
    | leave hnode => cases hnode <;> exact id
    | arguments position list => exact id
    | directives list => exact id

/-- The rules that look at operations. -/
theorem Document.Reordered.silent_operations (h : d.Reordered d') (hsame : d.SameFragments d')
    (hr : r ∈ [.loneAnonymousOperation, .singleFieldSubscriptions, .noUndefinedVariables,
      .noUnusedVariables, .variablesInAllowedPositions])
    (hsilent : r.Silent schema d) : r.Silent schema d' := by
  have hcount : (Setting.of schema d).document.operations.length =
      (Setting.of schema d').document.operations.length := h.operations.length_eq
  have htop (o : Operation) : o.topFields (Setting.of schema d).document =
      o.topFields (Setting.of schema d').document := hsame.topFields_eq o
  have hschema : (Setting.of schema d).schema = (Setting.of schema d').schema := rfl
  revert hsilent
  simp only [List.mem_cons, List.not_mem_nil, or_false] at hr
  rcases hr with rfl | rfl | rfl | rfl | rfl
  all_goals
    refine h.silent_each rfl fun hlike => ?_
    cases hlike with
    | @enter node _ hnode =>
      cases hnode with
      | operation hi hj => simp only [hcount, htop, hsame.usesOf_eq hi hj, imp_self]
      | document | selectionSet => exact id
      | same hnumbered => cases node <;> first | exact id | cases hnumbered
    | @leave node _ hnode =>
      cases hnode with
      | operation hi hj => simp only [hschema, hsame.usesOf_eq hi hj, imp_self]
      | document | selectionSet => exact id
      | same hnumbered => cases node <;> first | exact id | cases hnumbered
    | arguments position list => exact id
    | directives list => exact id

/-- The rules that look up fragments where they are referred to. -/
theorem Document.Reordered.silent_references (h : d.Reordered d') (hsame : d.SameFragments d')
    (hr : r ∈ [.knownFragmentNames, .possibleFragmentSpreads])
    (hsilent : r.Silent schema d) : r.Silent schema d' := by
  have hfind (name : String) : (Setting.of schema d).document.fragment? name =
      (Setting.of schema d').document.fragment? name := hsame.find name
  revert hsilent
  simp only [List.mem_cons, List.not_mem_nil, or_false] at hr
  rcases hr with rfl | rfl
  · refine h.silent_each rfl fun hlike => ?_
    cases hlike with
    | @enter node _ hnode =>
      cases hnode with
      | document | operation _ _ | selectionSet => exact id
      | same _ =>
        cases node with
        | spread s =>
          simp only [hfind]
          cases (Setting.of schema d').document.fragment? s.name with
          | none => intro hfound; cases hfound
          | some f => exact id
        | _ => exact id
    | leave hnode => cases hnode <;> exact id
    | arguments position list => exact id
    | directives list => exact id
  · refine h.silent_each rfl fun hlike => ?_
    cases hlike with
    | @enter node _ hnode =>
      cases hnode with
      | document | operation _ _ | selectionSet => exact id
      | same _ =>
        cases node with
        | spread s =>
          simp only [hfind]
          exact id
        | _ => exact id
    | leave hnode => cases hnode <;> exact id
    | arguments position list => exact id
    | directives list => exact id

theorem Document.Reordered.silent_uniqueInputFieldNames (h : d.Reordered d')
    (hsilent : RuleName.uniqueInputFieldNames.Silent schema d) :
    RuleName.uniqueInputFieldNames.Silent schema d' := by
  refine h.silent_each rfl (fun hlike => ?_) hsilent
  cases hlike with
  | enter hnode =>
    cases hnode with
    | document =>
      simp only [h.repeatedFields]
      exact id
    | operation _ _ | selectionSet | same _ => exact id
  | leave hnode => cases hnode <;> exact id
  | arguments position list => exact id
  | directives list => exact id

end Rules

/-! ### Fragments that are referred to -/

namespace Hook

/-- Whether a step neither enters nor leaves the document. -/
def isPart : Hook → Bool
  | enter (.document _) | leave (.document _) => false
  | _ => true

theorem Only.part {hooks : List Hook} (h : Only isInner hooks) : Only isPart hooks := by
  intro hook hmem
  have hinner := h hook hmem
  cases hook with
  | enter node => cases node <;> first | rfl | cases hinner
  | leave node => cases node <;> first | rfl | cases hinner
  | arguments position list => rfl
  | directives list => rfl

theorem part_ofDefinitions (number operations : ℕ) (definitions : List Definition) :
    Only isPart (ofDefinitions number operations definitions) := by
  induction definitions generalizing number operations with
  | nil => exact .nil
  | cons d rest ih =>
    rcases d.operation_or_fragment with ⟨o, ho, -⟩ | ⟨f, rfl⟩
    · rw [ofDefinitions_operation ho]
      exact (Only.around rfl rfl (inner_inOperation _ o).part).append (ih _ _)
    · rw [ofDefinitions_fragment]
      exact (Only.around rfl rfl (inner_inFragment _ f).part).append (ih _ _)

/-- The name of the fragment to which a step finds a reference. -/
def spreadName? : Hook → Option String
  | enter (.spread s) => some s.name
  | _ => none

end Hook

/-- A rule that only takes note of references inside the document is silent if it is at the end. -/
theorem Report.scanFrom_spreads {step : List String → Visit → List String × List Finding}
    (hstep : ∀ used v, v.hook.isPart = true → step used v = (v.hook.spreadName?.toList ++ used, []))
    {inside : List Visit} (hinside : ∀ v ∈ inside, v.hook.isPart = true) (used : List String)
    (last : Visit) :
    (∀ findings ∈ scanFrom step used (inside ++ [last]), findings = []) ↔
      (step ((inside.filterMap fun v => v.hook.spreadName?).reverse ++ used) last).2 = [] := by
  induction inside generalizing used with
  | nil => simp [scanFrom]
  | cons v inside ih =>
    rw [List.forall_mem_cons] at hinside
    rw [List.cons_append, scanFrom, List.forall_mem_cons, hstep used v hinside.1, ih hinside.2]
    cases hname : v.hook.spreadName? <;> simp [hname]

/-- The rule on fragments without references is silent exactly if the walk finds a reference to
every fragment. -/
theorem Rule.noUnusedFragments_silent_iff {schema : Schema} {d : Document} :
    (∀ findings ∈ noUnusedFragments (.of schema d) (d.visits schema), findings = []) ↔
      ∀ f ∈ d.fragments, ∃ v ∈ d.visits schema, v.hook.spreadName? = some f.name := by
  have hvisits : d.visits schema = ⟨.enter (.document d), d.topScope schema⟩ ::
      (Visit.along schema (d.topScope schema) (Hook.ofDefinitions 0 0 d.definitions) ++
        [⟨.leave (.document d), Scope.after schema (d.topScope schema)
          (Hook.ofDefinitions 0 0 d.definitions)⟩]) := Visit.along_around schema .empty _ _
  have hinside : ∀ v ∈ Visit.along schema (d.topScope schema)
      (Hook.ofDefinitions 0 0 d.definitions), v.hook.isPart = true :=
    fun v hv => Hook.part_ofDefinitions 0 0 d.definitions _ (Visit.hook_mem_of_mem_along hv)
  rw [hvisits, noUnusedFragments, Report.scan, Report.scanFrom, List.forall_mem_cons,
    Report.scanFrom_spreads ?_ hinside]
  · simp [Hook.spreadName?]
  · rintro used ⟨hook, s⟩ hpart
    cases hook with
    | enter node => cases node <;> rfl
    | leave node => cases node <;> first | rfl | cases hpart
    | arguments position list => rfl
    | directives list => rfl

/-! ### All rules together -/

section Together

variable {schema : Schema} {d d' : Document}

theorem Hook.Like.spreadName?_eq {hook hook' : Hook} (h : hook.Like d d' hook') :
    hook.spreadName? = hook'.spreadName? := by
  cases h with
  | enter hnode => cases hnode <;> rfl
  | leave hnode => cases hnode <;> rfl
  | arguments position list => rfl
  | directives list => rfl

theorem Document.Reordered.silent_noUnusedFragments (h : d.Reordered d')
    (hsilent : RuleName.noUnusedFragments.Silent schema d) :
    RuleName.noUnusedFragments.Silent schema d' := by
  refine Rule.noUnusedFragments_silent_iff.mpr fun f hf => ?_
  obtain ⟨v, hv, hname⟩ :=
    Rule.noUnusedFragments_silent_iff.mp hsilent f (h.fragments.mem_iff.mpr hf)
  obtain ⟨v', hv', hlike, -⟩ := h.symm.exists_visit hv
  exact ⟨v', hv', hlike.spreadName?_eq.trans hname⟩

/-- No field gives an argument twice if the rule on the names of arguments is silent. -/
theorem Validation.uniqueArguments {v : Validation} (h : v.diagnostics schema d = [])
    (hr : .uniqueArgumentNames ∈ v.rules) : Overlap.UniqueArguments schema d := by
  intro type? address items hset node span own hitem
  obtain ⟨index, hindex⟩ := List.getElem?_of_mem hitem
  obtain ⟨s, hs⟩ := hset.walked_of_mem hitem
  have hidle := hs.inside.idle.item schema (.field node span own)
  have hvisit : ⟨.arguments node.position node.arguments,
      s.enter schema (.field node ⟨span, own⟩)⟩ ∈ d.visits schema := by
    refine hs.visits_item hindex (.inr (.inl ?_))
    refine (Visit.mem_along_append (Scope.after_ofArguments hidle.1 _ _)).mpr (.inl ?_)
    exact (Visit.mem_along_ofArguments hidle.1).mpr (.inl rfl)
  exact nodup_arguments h hr hvisit

/-- The rule on fields under one response name, given that the rules on cycles and on the names of
fragments and arguments are silent. -/
theorem Document.Reordered.silent_overlapping (h : d.Reordered d')
    (hunique : (d.fragments.map (·.name)).Nodup) (hacyclic : d.Acyclic)
    (harguments : Overlap.UniqueArguments schema d)
    (hsilent : RuleName.overlappingFieldsCanBeMerged.Silent schema d) :
    RuleName.overlappingFieldsCanBeMerged.Silent schema d' := by
  have hunique' : (d'.fragments.map (·.name)).Nodup := (h.fragments.map _).nodup_iff.mp hunique
  obtain ⟨rank, hrank⟩ := Overlap.exists_ranking hacyclic
  obtain ⟨rank', hrank'⟩ :=
    Overlap.exists_ranking ((h.sameFragments hunique).acyclic_iff.mp hacyclic)
  rw [RuleName.silent_iff_diagnostics, Overlap.diagnostics_overlapping, List.map_eq_nil_iff,
    List.map_eq_nil_iff] at hsilent ⊢
  by_contra hne
  have hclash := ((Overlap.search_outcome schema hrank').1 hne).differ
  have hmoved := h.symm.clash hunique' hclash
  exact (Overlap.search_outcome schema hrank).2 (hmoved.bothWays harguments) hsilent

end Together

/-- A run with all rules reports nothing for a document exactly if it reports nothing for the
document with its definitions in another order. -/
theorem silent_in_any_order (schema : Schema) (d d' : Document) (h : d.Reordered d') :
    Validation.full.diagnostics schema d = [] ↔ Validation.full.diagnostics schema d' = [] := by
  suffices hone : ∀ {d d' : Document}, d.Reordered d' → Validation.full.diagnostics schema d = [] →
      Validation.full.diagnostics schema d' = [] from ⟨hone h, hone h.symm⟩
  clear h
  intro d d' h hquiet
  have hsilent (r : RuleName) : r.Silent schema d :=
    Validation.diagnostics_eq_nil_iff.mp hquiet r (Validation.mem_full r)
  have hunique : (d.fragments.map (·.name)).Nodup :=
    Rule.uniqueFragmentNames_silent_iff.mp (hsilent .uniqueFragmentNames)
  have hsame := h.sameFragments hunique
  have hacyclic : d.Acyclic := (CycleSearch.diagnostics_eq_nil_iff_acyclic schema d).mp
    (RuleName.silent_iff_diagnostics.mp (hsilent .noFragmentCycles))
  refine Validation.diagnostics_eq_nil_iff.mpr fun r _ => ?_
  cases r with
  | loneAnonymousOperation | singleFieldSubscriptions | noUndefinedVariables | noUnusedVariables
  | variablesInAllowedPositions => exact h.silent_operations hsame (by simp) (hsilent _)
  | knownFragmentNames | possibleFragmentSpreads =>
    exact h.silent_references hsame (by simp) (hsilent _)
  | uniqueInputFieldNames => exact h.silent_uniqueInputFieldNames (hsilent _)
  | uniqueOperationNames =>
    have hnames := Rule.uniqueOperationNames_silent_iff.mp (hsilent .uniqueOperationNames)
    exact Rule.uniqueOperationNames_silent_iff.mpr
      ((h.operations.filterMap _).nodup_iff.mp hnames)
  | uniqueFragmentNames =>
    exact Rule.uniqueFragmentNames_silent_iff.mpr ((h.fragments.map _).nodup_iff.mp hunique)
  | noUnusedFragments => exact h.silent_noUnusedFragments (hsilent _)
  | noFragmentCycles =>
    exact RuleName.silent_iff_diagnostics.mpr
      ((CycleSearch.diagnostics_eq_nil_iff_acyclic schema d').mpr (hsame.acyclic_iff.mp hacyclic))
  | overlappingFieldsCanBeMerged =>
    exact h.silent_overlapping hunique hacyclic
      (Validation.uniqueArguments hquiet (Validation.mem_full _)) (hsilent _)
  | _ => exact h.silent_indifferent (by simp) (hsilent _)

/-! ### A fragment before and after its query -/

/-- The document with its definitions in the opposite order. -/
def Document.reversed (d : Document) : Document := ⟨d.definitions.reverse, d.repeatedFields⟩

theorem Document.reordered_reversed (d : Document) : d.Reordered d.reversed :=
  ⟨(List.reverse_perm _).symm, rfl⟩

/-- With the query before its fragment equal arguments are accepted and different ones are not, as
with the query after it. -/
theorem silent_with_query_first :
    let equal := pairDocument [("a", 1)] [("a", 1)]
    let different := pairDocument [("a", 1)] [("a", 2)]
    equal.Reordered equal.reversed ∧ Validation.full.diagnostics pairSchema equal.reversed = [] ∧
      different.Reordered different.reversed ∧
      Validation.full.diagnostics pairSchema different.reversed ≠ [] := by
  intro equal different
  have hequal : Validation.full.diagnostics pairSchema equal = [] := by decide +kernel
  have hdifferent : Validation.full.diagnostics pairSchema different ≠ [] := by decide +kernel
  refine ⟨equal.reordered_reversed, ?_, different.reordered_reversed, fun hnil => hdifferent ?_⟩
  · exact (silent_in_any_order pairSchema _ _ equal.reordered_reversed).mp hequal
  · exact (silent_in_any_order pairSchema _ _ different.reordered_reversed).mpr hnil

end GraphQLCheck
