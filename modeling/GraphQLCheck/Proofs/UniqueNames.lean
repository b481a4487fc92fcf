import GraphQLCheck.Proofs.Reports
import GraphQLCheck.Proofs.Walk

/-!
# Names that are given once

What it means that a rule about repeated names is silent: the names that it looks at are all
different. The rules keep the first mention of every name, so the invariant is that the mentions
still to come share no name with those already seen.
-/

namespace GraphQLCheck

/-- The operation that a step enters. -/
def Hook.enteredOperation? : Hook → Option Operation
  | enter (.operation _ o) => some o
  | _ => none

theorem Hook.enteredOperation?_ofDefinitions (number operations : ℕ)
    (definitions : List Definition) :
    (ofDefinitions number operations definitions).filterMap enteredOperation? =
      definitions.filterMap Definition.operation? := by
  refine filterMap_ofDefinitions (fun hook hinner => ?_) (fun _ _ _ ho _ => ⟨ho.symm, rfl⟩)
    (fun _ => ⟨rfl, rfl⟩) number operations definitions
  unfold enteredOperation?
  split
  · cases hinner
  · rfl

/-- A walk enters the operations in their order. -/
theorem Document.enteredOperation?_hooks (d : Document) :
    d.hooks.filterMap Hook.enteredOperation? = d.operations := by
  rw [hooks, Hook.filterMap_around, Hook.enteredOperation?_ofDefinitions]
  exact List.append_nil _

/-- What is chosen of the visits of a document is what is chosen of its steps. -/
theorem Document.filterMap_visits {α : Type} (choose : Hook → Option α) (schema : Schema)
    (d : Document) :
    (d.visits schema).filterMap (fun v => choose v.hook) = d.hooks.filterMap choose := by
  rw [← Visit.map_hook_along schema .empty d.hooks, List.filterMap_map]
  rfl

/-- What a run with a rule reports that looks at the steps of one kind, each for itself. -/
theorem Validation.diagnostics_each {α : Type} {r : RuleName}
    {look : Setting → Visit → List Finding} {schema : Schema} {d : Document}
    {choose : Hook → Option α} {judge : α → List Finding} (hlook : r.report = Report.each look)
    (hjudge : ∀ visit, look (.of schema d) visit = (choose visit.hook).elim [] judge) :
    (ofRules [r]).diagnostics schema d =
      (d.hooks.filterMap choose).flatMap fun a => (judge a).map (Diagnostic.ofFinding r) := by
  have hflat (visits : List Visit) :
      (visits.map fun v => (choose v.hook).elim [] judge).flatten =
        (visits.filterMap fun v => choose v.hook).flatMap judge := by
    induction visits with
    | nil => rfl
    | cons v visits ih =>
      cases h : choose v.hook <;> simp [h, ih]
  rw [diagnostics_single, hlook, Report.each, funext hjudge, hflat, d.filterMap_visits choose,
    List.map_flatMap]

namespace Mention

variable {seen mentions : List Mention}

theorem first?_eq_none_iff {name : String} :
    first? seen name = none ↔ ∀ m ∈ seen, m.name ≠ name := by
  simp [first?]

theorem repeatsAfter_eq_nil_iff :
    repeatsAfter seen mentions = [] ↔
      (mentions.map (·.name)).Nodup ∧ ∀ m ∈ mentions, ∀ s ∈ seen, s.name ≠ m.name := by
  induction mentions generalizing seen with
  | nil => simp [repeatsAfter]
  | cons mention rest ih =>
    rw [repeatsAfter]
    cases hfirst : first? seen mention.name with
    | some first =>
      have hmem : first ∈ seen := List.mem_of_find?_eq_some hfirst
      have hname : first.name = mention.name := by simpa using List.find?_some hfirst
      constructor
      · intro h
        cases h
      · rintro ⟨-, hnew⟩
        exact absurd hname (hnew mention List.mem_cons_self first hmem)
    | none =>
      have hnew := first?_eq_none_iff.mp hfirst
      rw [ih, List.map_cons, List.nodup_cons]
      simp only [List.forall_mem_cons, List.mem_map, not_exists, not_and]
      constructor
      · rintro ⟨hnodup, hrest⟩
        exact ⟨⟨fun m hm heq => (hrest m hm).1 heq.symm, hnodup⟩, hnew,
          fun m hm => (hrest m hm).2⟩
      · rintro ⟨⟨hhead, hnodup⟩, -, hrest⟩
        exact ⟨hnodup, fun m hm => ⟨fun heq => hhead m hm heq.symm, hrest m hm⟩⟩

/-- No mention repeats another exactly if all names are different. -/
theorem repeats_eq_nil_iff : repeats mentions = [] ↔ (mentions.map (·.name)).Nodup := by
  simp [repeats, repeatsAfter_eq_nil_iff]

/-- What a rule finds that takes note of mentions along a walk: a finding for every mention of a name
given before. -/
theorem flatten_scanFrom_note (mention? : Hook → Option Mention) (message : String → String)
    {step : List Mention → Visit → List Mention × List Finding}
    (hstep : ∀ seen v, step seen v = (mention? v.hook).elim (seen, []) (note message seen))
    (visits : List Visit) :
    (Report.scanFrom step seen visits).flatten =
      (repeatsAfter seen (visits.filterMap fun v => mention? v.hook)).map fun pair =>
        ⟨message pair.2.name, [pair.1.node, pair.2.node]⟩ := by
  induction visits generalizing seen with
  | nil => rfl
  | cons v visits ih =>
    rw [Report.scanFrom, List.flatten_cons, ih, hstep, List.filterMap_cons]
    cases mention? v.hook with
    | none => rfl
    | some m =>
      simp only [Option.elim_some, repeatsAfter, note]
      cases first? seen m.name <;> rfl

end Mention

namespace Validation

variable {v : Validation} {schema : Schema} {d : Document} {s : Scope}

/-- The variables of an operation have different names. -/
theorem nodup_declared (h : v.diagnostics schema d = []) (hr : .uniqueVariableNames ∈ v.rules)
    {index : ℕ} {o : Operation} (hv : ⟨.enter (.operation index o), s⟩ ∈ d.visits schema) :
    (o.declared.map (·.name)).Nodup := by
  have hquiet := quiet_each h hr rfl hv
  rw [List.map_eq_nil_iff, Mention.repeats_eq_nil_iff, List.map_map] at hquiet
  exact hquiet

/-- The arguments of a field or directive have different names. -/
theorem nodup_arguments (h : v.diagnostics schema d = []) (hr : .uniqueArgumentNames ∈ v.rules)
    {position : Position} {list : List Argument}
    (hv : ⟨.arguments position list, s⟩ ∈ d.visits schema) : (list.map (·.name)).Nodup := by
  have hquiet := quiet_each h hr rfl hv
  rw [List.map_eq_nil_iff, Mention.repeats_eq_nil_iff, List.map_map] at hquiet
  exact hquiet

end Validation

namespace Rule

variable {schema : Schema} {d : Document}

/-- What the rule on the names of fragments finds. -/
theorem flatten_uniqueFragmentNames :
    (uniqueFragmentNames (.of schema d) (d.visits schema)).flatten =
      (Mention.repeats (d.fragments.map fun f => ⟨f.name, f.ref⟩)).map fun pair =>
        ⟨onlyOne "fragment" pair.2.name, [pair.1.node, pair.2.node]⟩ := by
  let mention? (hook : Hook) : Option Mention := hook.enteredFragment?.map fun f => ⟨f.name, f.ref⟩
  have hmentions : d.hooks.filterMap mention? = d.fragments.map fun f => ⟨f.name, f.ref⟩ := by
    rw [← d.enteredFragment?_hooks, List.map_filterMap]
  rw [uniqueFragmentNames, Report.scan,
    Mention.flatten_scanFrom_note mention? (onlyOne "fragment"),
    d.filterMap_visits mention?, hmentions, Mention.repeats]
  rintro seen ⟨hook, s⟩
  cases hook with
  | enter node => cases node <;> rfl
  | leave node | arguments position list | directives list => rfl

/-- What the rule on the names of operations finds. -/
theorem flatten_uniqueOperationNames :
    (uniqueOperationNames (.of schema d) (d.visits schema)).flatten =
      (Mention.repeats (d.operations.filterMap fun o =>
        o.name?.map fun name => ⟨name, o.ref⟩)).map fun pair =>
          ⟨onlyOne "operation" pair.2.name, [pair.1.node, pair.2.node]⟩ := by
  let mention? (hook : Hook) : Option Mention :=
    hook.enteredOperation?.bind fun o => o.name?.map fun name => ⟨name, o.ref⟩
  have hmentions : d.hooks.filterMap mention? =
      d.operations.filterMap fun o => o.name?.map fun name => ⟨name, o.ref⟩ := by
    rw [← d.enteredOperation?_hooks, List.filterMap_filterMap]
  rw [uniqueOperationNames, Report.scan,
    Mention.flatten_scanFrom_note mention? (onlyOne "operation"),
    d.filterMap_visits mention?, hmentions, Mention.repeats]
  rintro seen ⟨hook, s⟩
  cases hook with
  | enter node =>
    cases node with
    | operation i o => cases hname : o.name? <;> simp [mention?, Hook.enteredOperation?, hname]
    | _ => rfl
  | leave node | arguments position list | directives list => rfl

/-- The rule on the names of fragments is silent exactly if they are different. -/
theorem uniqueFragmentNames_silent_iff :
    (∀ findings ∈ uniqueFragmentNames (.of schema d) (d.visits schema), findings = []) ↔
      (d.fragments.map (·.name)).Nodup := by
  rw [← List.flatten_eq_nil_iff, flatten_uniqueFragmentNames, List.map_eq_nil_iff,
    Mention.repeats_eq_nil_iff, List.map_map]
  rfl

/-- The rule on the names of operations is silent exactly if they are different. -/
theorem uniqueOperationNames_silent_iff :
    (∀ findings ∈ uniqueOperationNames (.of schema d) (d.visits schema), findings = []) ↔
      (d.operations.filterMap (·.name?)).Nodup := by
  rw [← List.flatten_eq_nil_iff, flatten_uniqueOperationNames, List.map_eq_nil_iff,
    Mention.repeats_eq_nil_iff, List.map_filterMap]
  simp [Function.comp_def]

end Rule

end GraphQLCheck
