import GraphQLCheck.Proofs.Reports
import GraphQLCheck.Proofs.Sets

/-!
# Rules that share a run

A run with several rules can be made in one walk: at each visit the rules look one after another,
each with a state of its own, and all of them report into one list. They share a memo of the uses of
variables, which is filled when a rule first asks for an operation. This module defines such a run
(`Validation.sharedDiagnostics`) and shows that it reports what the rules report one by one, so that
no rule changes what another one reports (`rules_do_not_interfere`).

A rule sees nothing of the memo but the answer to what it asks (`RuleName.asks?`); that it needs no
more is `RuleName.step_congr`. The invariant of the walk is that the memo has the right answers.
-/

namespace GraphQLCheck

/-! ### What a rule asks for -/

/-- The operation whose uses of variables a rule asks for at a step, with its number. -/
def RuleName.asks? (r : RuleName) (hook : Hook) : Option (ℕ × Operation) :=
  match r, hook with
  | .noUndefinedVariables, .enter (.operation i o) => some (i, o)
  | .noUnusedVariables, .leave (.operation i o) => some (i, o)
  | .variablesInAllowedPositions, .leave (.operation i o) => some (i, o)
  | _, _ => none

/-- What a rule does depends on the uses of variables only through what it asks for. -/
theorem RuleName.step_congr (r : RuleName) {schema : Schema} {d : Document}
    {uses others : List (List VariableUse)} {visit : Visit}
    (h : ∀ i o, r.asks? visit.hook = some (i, o) →
      (Setting.mk schema d uses).usesOf i = (Setting.mk schema d others).usesOf i)
    (state : r.machine.State) :
    r.machine.step ⟨schema, d, uses⟩ state visit =
      r.machine.step ⟨schema, d, others⟩ state visit := by
  -- All but three rules look at the schema and the document only.
  cases r with
  | noUndefinedVariables =>
    obtain ⟨hook, scope⟩ := visit
    cases hook with
    | enter node =>
      cases node with
      | operation i o => simp only [machine, Machine.ofEach, h i o rfl]
      | _ => rfl
    | _ => rfl
  | noUnusedVariables | variablesInAllowedPositions =>
    obtain ⟨hook, scope⟩ := visit
    cases hook with
    | leave node =>
      cases node with
      | operation i o => simp only [machine, Machine.ofEach, h i o rfl]
      | _ => rfl
    | _ => rfl
  | _ => rfl

theorem RuleName.ofOperation_of_asks? {r : RuleName} {hook : Hook} {i : ℕ} {o : Operation}
    (h : r.asks? hook = some (i, o)) : hook.OfOperation i o := by
  unfold asks? at h
  split at h
  · obtain ⟨rfl, rfl⟩ := Prod.mk.inj (Option.some.inj h)
    exact .inl rfl
  · obtain ⟨rfl, rfl⟩ := Prod.mk.inj (Option.some.inj h)
    exact .inr rfl
  · obtain ⟨rfl, rfl⟩ := Prod.mk.inj (Option.some.inj h)
    exact .inr rfl
  · cases h

/-! ### The shared run -/

/-- The uses of variables that have been asked for, by the number of the operation. -/
abbrev UsageMemo := List (ℕ × List VariableUse)

namespace UsageMemo

/-- Ask for the uses of an operation with a number. What has been asked before is not searched for
again. -/
def ask (schema : Schema) (d : Document) (memo : UsageMemo) (i : ℕ) (o : Operation) :
    List VariableUse × UsageMemo :=
  match memo.lookup i with
  | some uses => (uses, memo)
  | none => (o.variableUses schema d, (i, o.variableUses schema d) :: memo)

/-- The memo has the right answers. -/
def Sound (schema : Schema) (d : Document) (memo : UsageMemo) : Prop :=
  ∀ i uses, memo.lookup i = some uses →
    ∃ o, d.operations[i]? = some o ∧ uses = o.variableUses schema d

variable {schema : Schema} {d : Document} {memo : UsageMemo}

theorem sound_nil (schema : Schema) (d : Document) : Sound schema d [] := by
  intro i uses h
  cases h

/-- The answer is what a search finds, whether it was made before or not. -/
theorem Sound.ask (h : memo.Sound schema d) {i : ℕ} {o : Operation}
    (ho : d.operations[i]? = some o) :
    (memo.ask schema d i o).1 = o.variableUses schema d ∧
      (memo.ask schema d i o).2.Sound schema d := by
  unfold UsageMemo.ask
  cases hlookup : memo.lookup i with
  | some uses =>
    obtain ⟨p, hp, rfl⟩ := h i uses hlookup
    obtain rfl := Option.some.inj (ho.symm.trans hp)
    exact ⟨rfl, h⟩
  | none =>
    refine ⟨rfl, fun j uses hj => ?_⟩
    rw [List.lookup_cons] at hj
    by_cases hji : j = i
    · subst hji
      simp only [BEq.rfl, Option.some.injEq] at hj
      exact ⟨o, ho, hj.symm⟩
    · have hne : (j == i) = false := by simpa using hji
      rw [hne] at hj
      exact h j uses hj

end UsageMemo

/-- What the rules of a shared run have in common: the memo and the list of diagnostics. -/
structure SharedContext where
  /-- The uses of variables that have been asked for. -/
  memo : UsageMemo
  /-- What has been reported. -/
  diagnostics : List Diagnostic

/-- A rule in the course of a walk. -/
structure ActiveRule where
  /-- The rule. -/
  rule : RuleName
  /-- Its state. -/
  state : rule.machine.State

namespace ActiveRule

variable (schema : Schema) (d : Document) (visit : Visit)

/-- What a rule gets to see at a visit, and the memo after it has asked. Of the uses of variables it
sees only those that it asks for. -/
def view (r : RuleName) (memo : UsageMemo) : Setting × UsageMemo :=
  match r.asks? visit.hook with
  | some (i, o) =>
    let (uses, memo) := memo.ask schema d i o
    (⟨schema, d, List.replicate i [] ++ [uses]⟩, memo)
  | none => (⟨schema, d, []⟩, memo)

/-- A rule looks at a visit. -/
def look (context : SharedContext) (active : ActiveRule) : SharedContext × ActiveRule :=
  let (setting, memo) := view schema d visit active.rule context.memo
  let (state, findings) := active.rule.machine.step setting active.state visit
  (⟨memo, context.diagnostics ++ findings.map (Diagnostic.ofFinding active.rule)⟩,
    ⟨active.rule, state⟩)

/-- All rules look at a visit, in order. -/
def dispatch (context : SharedContext) : List ActiveRule → SharedContext × List ActiveRule
  | [] => (context, [])
  | active :: rest =>
    let (context, active) := look schema d visit context active
    let (context, rest) := dispatch context rest
    (context, active :: rest)

end ActiveRule

/-- The diagnostics of a run in which all rules share a walk. -/
def Validation.sharedDiagnostics (v : Validation) (schema : Schema) (d : Document) :
    List Diagnostic :=
  ((d.visits schema).foldl
    (fun (state : SharedContext × List ActiveRule) visit =>
      ActiveRule.dispatch schema d visit state.1 state.2)
    (⟨[], []⟩, v.rules.map fun r => ⟨r, r.machine.start⟩)).1.diagnostics

/-! ### What a shared run reports -/

namespace ActiveRule

/-- A rule after a visit, if it sees all uses of variables. -/
def advance (setting : Setting) (visit : Visit) (active : ActiveRule) : ActiveRule :=
  ⟨active.rule, (active.rule.machine.step setting active.state visit).1⟩

/-- What a rule reports at a visit, if it sees all uses of variables. -/
def reported (setting : Setting) (visit : Visit) (active : ActiveRule) : List Diagnostic :=
  (active.rule.machine.step setting active.state visit).2.map (Diagnostic.ofFinding active.rule)

/-- What a rule reports along a walk, if it sees all uses of variables. -/
def column (setting : Setting) (visits : List Visit) (active : ActiveRule) :
    List (List Diagnostic) :=
  (Report.scanFrom (active.rule.machine.step setting) active.state visits).map fun findings =>
    findings.map (Diagnostic.ofFinding active.rule)

variable {schema : Schema} {d : Document} {visit : Visit} {context : SharedContext}

/-- With a sound memo a rule does the same as if it saw all uses of variables. -/
theorem view_spec (hvisit : visit ∈ d.visits schema) (r : RuleName) {memo : UsageMemo}
    (hmemo : memo.Sound schema d) :
    (∀ state, r.machine.step (view schema d visit r memo).1 state visit =
      r.machine.step (.of schema d) state visit) ∧
    (view schema d visit r memo).2.Sound schema d := by
  unfold view
  cases hasks : r.asks? visit.hook with
  | none =>
    refine ⟨fun state => r.step_congr (fun i o h => ?_) state, hmemo⟩
    rw [hasks] at h
    cases h
  | some asked =>
    obtain ⟨i, o⟩ := asked
    -- The walk and the list of operations give an operation the same number.
    have hoperation : d.operations[i]? = some o :=
      Document.getElem?_operations_of_visit hvisit (RuleName.ofOperation_of_asks? hasks)
    obtain ⟨hanswer, hsound⟩ := hmemo.ask hoperation
    refine ⟨fun state => r.step_congr (fun j p h => ?_) state, hsound⟩
    rw [hasks] at h
    obtain ⟨rfl, rfl⟩ := Prod.mk.inj (Option.some.inj h)
    have hkept : (Setting.of schema d).usesOf i = o.variableUses schema d :=
      Setting.usesOf_operation hoperation
    rw [show Setting.mk schema d _ = Setting.of schema d from rfl, hkept, ← hanswer]
    simp [Setting.usesOf]

theorem look_spec (hvisit : visit ∈ d.visits schema) (hmemo : context.memo.Sound schema d)
    (active : ActiveRule) :
    (look schema d visit context active).2 = active.advance (.of schema d) visit ∧
      (look schema d visit context active).1.diagnostics =
        context.diagnostics ++ active.reported (.of schema d) visit ∧
      (look schema d visit context active).1.memo.Sound schema d := by
  obtain ⟨hstep, hsound⟩ := view_spec hvisit active.rule hmemo
  refine ⟨?_, ?_, hsound⟩
  · rw [look, advance, ← hstep]
  · rw [look, reported, ← hstep]

/-- One visit of a shared run: each rule does what it does alone. -/
theorem dispatch_spec (hvisit : visit ∈ d.visits schema) (hmemo : context.memo.Sound schema d)
    (rules : List ActiveRule) :
    (dispatch schema d visit context rules).2 = rules.map (advance (.of schema d) visit) ∧
      (dispatch schema d visit context rules).1.diagnostics =
        context.diagnostics ++ rules.flatMap (reported (.of schema d) visit) ∧
      (dispatch schema d visit context rules).1.memo.Sound schema d := by
  induction rules generalizing context with
  | nil => simpa [dispatch] using hmemo
  | cons active rest ih =>
    obtain ⟨hactive, hreported, hsound⟩ := look_spec hvisit hmemo active
    obtain ⟨hrest, hreports, hsound'⟩ := ih hsound
    refine ⟨?_, ?_, hsound'⟩
    · rw [dispatch, List.map_cons, ← hactive, ← hrest]
    · rw [dispatch, List.flatMap_cons, ← List.append_assoc, ← hreported, ← hreports]

/-- All visits of a shared run: what is reported are the columns of the rules, row by row. -/
theorem walk_spec {visits : List Visit} (hvisits : visits ⊆ d.visits schema)
    (hmemo : context.memo.Sound schema d) (rules : List ActiveRule) :
    (visits.foldl (fun (state : SharedContext × List ActiveRule) visit =>
        dispatch schema d visit state.1 state.2) (context, rules)).1.diagnostics =
      context.diagnostics ++
        Validation.rows visits.length (rules.map (column (.of schema d) visits)) := by
  -- The memo stays sound from visit to visit while the states of the rules change.
  induction visits generalizing context rules with
  | nil => simp [Validation.rows]
  | cons visit visits ih =>
    obtain ⟨hrules, hreports, hsound⟩ :=
      dispatch_spec (hvisits List.mem_cons_self) hmemo rules
    have hrest := ih (List.Subset.trans (List.subset_cons_self _ _) hvisits) hsound
      (dispatch schema d visit context rules).2
    rw [List.foldl_cons, hrest, hreports, hrules, List.length_cons, Validation.rows,
      List.append_assoc, List.map_map, List.map_map, List.flatMap_map]
    rfl

end ActiveRule

namespace Validation

/-- A shared run reports what the rules report one by one. -/
theorem sharedDiagnostics_eq (v : Validation) (schema : Schema) (d : Document) :
    v.sharedDiagnostics schema d = v.diagnostics schema d := by
  have hcolumn : ∀ r : RuleName,
      ActiveRule.column (.of schema d) (d.visits schema) ⟨r, r.machine.start⟩ =
        r.diagnose (.of schema d) (d.visits schema) := by
    intro r
    have hreport := congrFun (congrFun r.machine.report_eq (.of schema d)) (d.visits schema)
    exact congrArg (List.map _) hreport.symm
  rw [sharedDiagnostics, ActiveRule.walk_spec (List.Subset.refl _) (UsageMemo.sound_nil schema d),
    List.nil_append, List.map_map, diagnostics]
  exact congrArg _ (List.map_congr_left fun r _ => hcolumn r)

end Validation

/-- Rules do not interfere: a run in which they share a walk and a memo reports what they report one
by one, what it reports for one of them is what a run with that rule alone reports, and it reports
for no other rule. -/
theorem rules_do_not_interfere (schema : Schema) (d : Document) (rules : List RuleName) :
    (Validation.ofRules rules).sharedDiagnostics schema d =
        (Validation.ofRules rules).diagnostics schema d ∧
      (∀ r ∈ rules, ((Validation.ofRules rules).diagnostics schema d).filter
          (fun x => x.rule = r) = (Validation.ofRules [r]).diagnostics schema d) ∧
      ∀ x ∈ (Validation.ofRules rules).diagnostics schema d, x.rule ∈ rules := by
  refine ⟨Validation.sharedDiagnostics_eq _ schema d, fun r hr => ?_, fun x hx => ?_⟩
  · exact Validation.filter_diagnostics hr
  · exact Validation.mem_rules_ofRules.1 (Validation.rule_of_mem_diagnostics hx)

end GraphQLCheck
