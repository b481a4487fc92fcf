import GraphQLCheck.Proofs.CycleSearch
import GraphQLCheck.Proofs.WalkScopes

/-!
# Cycles that are reported

The rule against cycles of fragments keeps a path and, for each fragment on it, the length of the
path when it was reached. Whatever the rule reports in a run is a cycle of the graph of fragments,
and between two of its searches nothing is left on the path (`reported_cycles_real`).

The states of a rule in a run are those of its machine along the visits, whichever other rules look
at them too (`Validation.rulesAfter_eq`).
-/

namespace GraphQLCheck

variable {schema : Schema} {d : Document} {v : Validation} {visits before after : List Visit}

/-! ### Rules in the course of a run -/

/-- The rules of a run after some visits, each in the state that it has then. -/
def Validation.rulesAfter (v : Validation) (schema : Schema) (d : Document) (visits : List Visit) :
    List ActiveRule :=
  (visits.foldl
    (fun (state : SharedContext × List ActiveRule) visit =>
      ActiveRule.dispatch schema d visit state.1 state.2)
    (⟨[], []⟩, v.rules.map fun r => ⟨r, r.machine.start⟩)).2

/-- The state of a rule after some visits, if it sees all uses of variables. -/
def RuleName.stateAfter (r : RuleName) (setting : Setting) (visits : List Visit) : r.machine.State :=
  visits.foldl (fun state visit => (r.machine.step setting state visit).1) r.machine.start

theorem ActiveRule.foldl_advance (setting : Setting) (r : RuleName) (state : r.machine.State)
    (visits : List Visit) :
    visits.foldl (fun (active : ActiveRule) visit => active.advance setting visit) ⟨r, state⟩ =
      ⟨r, visits.foldl (fun state visit => (r.machine.step setting state visit).1) state⟩ := by
  induction visits generalizing state with
  | nil => rfl
  | cons visit visits ih => exact ih _

/-- In a run each rule comes to the state that it comes to alone. -/
theorem Validation.rulesAfter_eq (h : visits ⊆ d.visits schema) :
    v.rulesAfter schema d visits =
      v.rules.map fun r => ⟨r, r.stateAfter (.of schema d) visits⟩ := by
  rw [rulesAfter, ActiveRule.walk_rules h (UsageMemo.sound_nil schema d), List.map_map]
  exact List.map_congr_left fun r _ => ActiveRule.foldl_advance _ r _ visits

/-! ### The search in the course of a run -/

namespace CycleSearch

variable {s : CycleSearch}

theorem eq_stateAfter (h : visits ⊆ d.visits schema)
    (hs : (⟨.noFragmentCycles, s⟩ : ActiveRule) ∈ v.rulesAfter schema d visits) :
    s = RuleName.noFragmentCycles.stateAfter (.of schema d) visits := by
  rw [Validation.rulesAfter_eq h] at hs
  obtain ⟨r, -, hr⟩ := List.mem_map.mp hs
  cases hr
  rfl

/-- After some visits the definitions entered by them have been searched. -/
theorem searched_of_mem (hsplit : d.visits schema = before ++ after)
    (hs : (⟨.noFragmentCycles, s⟩ : ActiveRule) ∈ v.rulesAfter schema d before) :
    ∃ found new done,
      searchAll d (before.filterMap (·.hook.enteredFragment?)) start = some (s, found) ∧
        Advance d start [] [] s found new done ∧
        ∀ f ∈ before.filterMap (·.hook.enteredFragment?), f.name ∈ done := by
  have hfragments : d.fragments = [] ++ before.filterMap (·.hook.enteredFragment?) ++
      after.filterMap (·.hook.enteredFragment?) := by
    rw [← entered_visits schema d, hsplit, List.filterMap_append, List.nil_append]
  obtain ⟨s', found, new, done, hsearch, hadvance, hdone⟩ :=
    searchAll_segment hfragments (List.forall_mem_nil _) rfl rfl (.start d)
  have hsubset : before ⊆ d.visits schema := hsplit ▸ List.subset_append_left _ _
  have hstate : RuleName.noFragmentCycles.stateAfter (.of schema d) before = s' :=
    (scan_eq_searchAll hsearch).2
  obtain rfl : s = s' := (eq_stateAfter hsubset hs).trans hstate
  exact ⟨found, new, done, hsearch, hadvance, hdone⟩

end CycleSearch

/-! ### What is reported -/

/-- Everything that a run reports for the rule is a cycle: different fragments, each of which refers
in its first definition to the next one and the last of which to the first, and one node for each of
these references. After any number of visits the path of the rule and the lengths that it keeps for
the fragments on it are empty. -/
theorem reported_cycles_real (schema : Schema) (d : Document) (rules : List RuleName) :
    (∀ x ∈ (Validation.ofRules rules).diagnostics schema d, x.rule = .noFragmentCycles →
      ∃ first via, d.ShowsCycle ⟨x.message, x.nodes⟩ first via ∧
        x.nodes.length = via.length + 1) ∧
    ∀ before after, d.visits schema = before ++ after → ∀ s : CycleSearch,
      (⟨.noFragmentCycles, s⟩ : ActiveRule) ∈
          (Validation.ofRules rules).rulesAfter schema d before →
        s.path = [] ∧ s.steps = [] := by
  constructor
  · intro x hx hrule
    have hr : RuleName.noFragmentCycles ∈ rules :=
      hrule ▸ Validation.mem_rules_ofRules.mp (Validation.rule_of_mem_diagnostics hx)
    have hsplit : d.fragments = [] ++ d.fragments := rfl
    obtain ⟨s, found, new, done, hsearch, hadvance, -⟩ :=
      CycleSearch.searchAll_spec hsplit (List.forall_mem_nil _) rfl rfl (.start d)
    have hmem : x ∈ ((Validation.ofRules rules).diagnostics schema d).filter
        (fun x => x.rule = .noFragmentCycles) := List.mem_filter.mpr ⟨hx, decide_eq_true hrule⟩
    rw [Validation.filter_diagnostics hr, CycleSearch.diagnostics_noFragmentCycles hsearch] at hmem
    obtain ⟨f, hf, rfl⟩ := List.mem_map.mp hmem
    obtain ⟨first, via, hshown⟩ := hadvance.shown f hf
    refine ⟨first, via, hshown, ?_⟩
    obtain ⟨spreads, hnames, -, hnodes⟩ := hshown.nodes
    have hlength := congrArg List.length hnames
    rw [List.length_map, List.length_append, List.length_singleton] at hlength
    exact (congrArg List.length hnodes).trans ((List.length_map _).trans hlength)
  · intro before after hsplit s hs
    obtain ⟨found, new, done, -, hadvance, -⟩ := CycleSearch.searched_of_mem hsplit hs
    exact ⟨hadvance.path, hadvance.steps⟩

/-- Three fragments that refer to one another in a circle, the last one also to itself and to one that
is not defined. -/
def circleDocument : Document :=
  ⟨[.fragment ⟨⟨1, 1⟩, "A", "Query", [], ⟨⟨⟨1, 21⟩, ⟨1, 28⟩⟩, [.spread ⟨⟨1, 23⟩, "B", []⟩]⟩⟩,
    .fragment ⟨⟨2, 1⟩, "B", "Query", [], ⟨⟨⟨2, 21⟩, ⟨2, 34⟩⟩,
      [.inline ⟨⟨2, 23⟩, none, []⟩ ⟨⟨2, 27⟩, ⟨2, 32⟩⟩ [.spread ⟨⟨2, 29⟩, "C", []⟩]]⟩⟩,
    .fragment ⟨⟨3, 1⟩, "C", "Query", [], ⟨⟨⟨3, 21⟩, ⟨3, 40⟩⟩,
      [.spread ⟨⟨3, 23⟩, "A", []⟩, .spread ⟨⟨3, 28⟩, "C", []⟩, .spread ⟨⟨3, 33⟩, "X", []⟩]⟩⟩], []⟩

/-- The circle as it is reported, and the rule after the walk. -/
theorem reported_circle_real :
    (∃ first via, circleDocument.ShowsCycle
      ⟨"Cannot spread fragment \"A\" within itself via \"B\", \"C\".",
        [⟨.fragmentSpread, ⟨1, 23⟩⟩, ⟨.fragmentSpread, ⟨2, 29⟩⟩, ⟨.fragmentSpread, ⟨3, 23⟩⟩]⟩
      first via ∧ 3 = via.length + 1) ∧
    ∃ s : CycleSearch,
      (⟨.noFragmentCycles, s⟩ : ActiveRule) ∈ (Validation.ofRules [.noFragmentCycles]).rulesAfter
        default circleDocument (circleDocument.visits default) ∧ s.path = [] ∧ s.steps = [] := by
  obtain ⟨hreported, hstates⟩ :=
    reported_cycles_real default circleDocument [.noFragmentCycles]
  constructor
  · exact hreported ⟨.noFragmentCycles, "Cannot spread fragment \"A\" within itself via \"B\", \"C\".",
      [⟨.fragmentSpread, ⟨1, 23⟩⟩, ⟨.fragmentSpread, ⟨2, 29⟩⟩, ⟨.fragmentSpread, ⟨3, 23⟩⟩]⟩
      (by decide +kernel) rfl
  · let s : CycleSearch := RuleName.noFragmentCycles.stateAfter (.of default circleDocument)
      (circleDocument.visits default)
    have hs : (⟨.noFragmentCycles, s⟩ : ActiveRule) ∈ (Validation.ofRules [.noFragmentCycles]).rulesAfter
        default circleDocument (circleDocument.visits default) := by
      rw [Validation.rulesAfter_eq (List.Subset.refl _)]
      exact List.mem_cons_self
    exact ⟨s, hs, hstates _ [] (List.append_nil _).symm s hs⟩

end GraphQLCheck
