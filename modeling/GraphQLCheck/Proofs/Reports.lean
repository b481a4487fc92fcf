import GraphQLCheck.Validation
import Mathlib.Data.List.Nodup

/-!
# What a run reports

A run reports nothing exactly if each of its rules finds nothing at any visit, and a run with a
single rule reports the findings of that rule in the order of the walk. What a run with several
rules reports for one of them is what a run with that rule alone reports (`filter_diagnostics`).
-/

namespace GraphQLCheck

/-- The uses of variables of an operation are kept under its number. -/
theorem Setting.usesOf_operation {schema : Schema} {d : Document} {i : ℕ} {o : Operation}
    (h : d.operations[i]? = some o) :
    (Setting.of schema d).usesOf i = o.variableUses schema d := by
  simp [usesOf, of, h]

namespace Report

/-- There is one list of findings a visit. -/
def Aligned (report : Report) : Prop :=
  ∀ setting visits, (report setting visits).length = visits.length

theorem length_scanFrom {σ : Type} (step : σ → Visit → σ × List Finding) (state : σ)
    (visits : List Visit) : (scanFrom step state visits).length = visits.length := by
  induction visits generalizing state with
  | nil => rfl
  | cons visit visits ih => rw [scanFrom, List.length_cons, List.length_cons, ih]

theorem aligned_scan {σ : Type} (start : σ) (step : Setting → σ → Visit → σ × List Finding) :
    Aligned (scan start step) :=
  fun setting visits => length_scanFrom (step setting) start visits

end Report

/-! ### Rules with a state -/

/-- A rule as it goes along a walk, with a state of its own. -/
structure Machine (report : Report) where
  /-- The states. -/
  State : Type
  /-- The state before the walk. -/
  start : State
  /-- What it does at a visit. -/
  step : Setting → State → Visit → State × List Finding
  /-- It reports what the rule reports. -/
  report_eq : report = Report.scan start step

/-- A rule that looks at each visit for itself needs no state. -/
def Machine.ofEach (look : Setting → Visit → List Finding) : Machine (Report.each look) where
  State := Unit
  start := ()
  step setting _ visit := ((), look setting visit)
  report_eq := by
    funext setting visits
    rw [Report.each, Report.scan]
    induction visits with
    | nil => rfl
    | cons visit visits ih => rw [List.map_cons, Report.scanFrom, ih]

/-- The machine of a rule. -/
def RuleName.machine : (r : RuleName) → Machine r.report
  | .uniqueOperationNames | .uniqueFragmentNames | .noFragmentCycles | .noUnusedFragments
  | .overlappingFieldsCanBeMerged => ⟨_, _, _, rfl⟩
  | .argumentsOfCorrectType | .defaultValuesOfCorrectType | .fieldsOnCorrectType
  | .fragmentsOnCompositeTypes | .knownArgumentNames | .knownDirectives | .knownFragmentNames
  | .knownTypeNames | .loneAnonymousOperation | .noUndefinedVariables | .noUnusedVariables
  | .possibleFragmentSpreads | .providedNonNullArguments | .scalarLeafs
  | .singleFieldSubscriptions | .uniqueArgumentNames | .uniqueDirectivesPerLocation
  | .uniqueInputFieldNames | .uniqueVariableNames | .variablesAreInputTypes
  | .variablesInAllowedPositions => .ofEach _

theorem RuleName.aligned_report (r : RuleName) : r.report.Aligned := by
  intro setting visits
  rw [congrFun (congrFun r.machine.report_eq setting) visits]
  exact Report.aligned_scan _ _ setting visits

/-! ### The diagnostics of a run -/

theorem RuleName.length_diagnose (r : RuleName) (setting : Setting) (visits : List Visit) :
    (r.diagnose setting visits).length = visits.length := by
  rw [diagnose, List.length_map, r.aligned_report]

theorem RuleName.rule_of_mem_diagnose {r : RuleName} {setting : Setting} {visits : List Visit}
    {row : List Diagnostic} (hrow : row ∈ r.diagnose setting visits) {x : Diagnostic}
    (hx : x ∈ row) : x.rule = r := by
  obtain ⟨findings, -, rfl⟩ := List.mem_map.1 hrow
  obtain ⟨finding, -, rfl⟩ := List.mem_map.1 hx
  rfl

namespace Validation

theorem rows_eq_nil_iff {α : Type} (count : ℕ) (columns : List (List (List α))) :
    rows count columns = [] ↔ ∀ column ∈ columns, ∀ row ∈ column.take count, row = [] := by
  induction count generalizing columns with
  | zero => simp [rows]
  | succ count ih =>
    simp only [rows, List.append_eq_nil_iff, List.flatMap_eq_nil_iff, ih, List.forall_mem_map]
    constructor
    · rintro ⟨hhead, htail⟩ column hcolumn row hrow
      cases column with
      | nil => simp at hrow
      | cons first column =>
        rw [List.take_succ_cons, List.mem_cons] at hrow
        rcases hrow with rfl | hrow
        · exact hhead _ hcolumn
        · exact htail _ hcolumn row hrow
    · intro h
      refine ⟨fun column hcolumn => ?_, fun column hcolumn row hrow => ?_⟩
      · cases column with
        | nil => rfl
        | cons first column => exact h _ hcolumn first List.mem_cons_self
      · cases column with
        | nil => simp at hrow
        | cons first column => exact h _ hcolumn row (List.mem_cons_of_mem _ hrow)

theorem rows_singleton {α : Type} (count : ℕ) (column : List (List α)) :
    rows count [column] = (column.take count).flatten := by
  induction count generalizing column with
  | zero => simp [rows]
  | succ count ih => cases column <;> simp [rows, ih]

theorem mem_columns_of_mem_rows {α : Type} {count : ℕ} {columns : List (List (List α))} {x : α}
    (h : x ∈ rows count columns) : ∃ column ∈ columns, ∃ row ∈ column, x ∈ row := by
  induction count generalizing columns with
  | zero => cases h
  | succ count ih =>
    rw [rows, List.mem_append, List.mem_flatMap] at h
    rcases h with ⟨column, hcolumn, hx⟩ | h
    · cases column with
      | nil => cases hx
      | cons row rest => exact ⟨_, hcolumn, row, List.mem_cons_self, hx⟩
    · obtain ⟨tail, htail, row, hrow, hx⟩ := ih h
      obtain ⟨column, hcolumn, rfl⟩ := List.mem_map.1 htail
      exact ⟨column, hcolumn, row, List.mem_of_mem_tail hrow, hx⟩

/-- What is kept of the rows is what is kept in each column. -/
theorem filter_rows {α : Type} (p : α → Bool) (count : ℕ) (columns : List (List (List α))) :
    (rows count columns).filter p =
      rows count (columns.map fun column => column.map (List.filter p)) := by
  induction count generalizing columns with
  | zero => rfl
  | succ count ih =>
    have hhead : ∀ column : List (List α),
        (column.headD []).filter p = (column.map (List.filter p)).headD [] := by
      intro column
      cases column <;> rfl
    simp only [rows, List.filter_append, List.filter_flatMap, ih, List.flatMap_map, List.map_map,
      Function.comp_def, hhead, List.map_tail]

theorem flatMap_filter_of_eq_nil {ι α : Type} {keep : ι → Bool} {row : ι → List α}
    (h : ∀ i, keep i = false → row i = []) (indices : List ι) :
    indices.flatMap row = (indices.filter keep).flatMap row := by
  induction indices with
  | nil => rfl
  | cons i indices ih =>
    cases hi : keep i with
    | true => rw [List.filter_cons_of_pos hi, List.flatMap_cons, List.flatMap_cons, ih]
    | false =>
      rw [List.filter_cons_of_neg (Bool.eq_false_iff.1 hi), List.flatMap_cons, h i hi,
        List.nil_append, ih]

/-- A column with nothing in it can be left out. -/
theorem rows_filter_columns {ι α : Type} {keep : ι → Bool} (count : ℕ)
    {column : ι → List (List α)} (h : ∀ i, keep i = false → ∀ row ∈ column i, row = [])
    (indices : List ι) :
    rows count (indices.map column) = rows count ((indices.filter keep).map column) := by
  induction count generalizing column with
  | zero => rfl
  | succ count ih =>
    have hheads : ∀ i, keep i = false → (column i).headD [] = [] := by
      intro i hi
      cases hcolumn : column i with
      | nil => rfl
      | cons row rest => exact h i hi row (hcolumn ▸ List.mem_cons_self)
    have htails : ∀ i, keep i = false → ∀ row ∈ (column i).tail, row = [] :=
      fun i hi row hrow => h i hi row (List.mem_of_mem_tail hrow)
    rw [rows, rows, List.flatMap_map, List.flatMap_map, List.map_map, List.map_map,
      flatMap_filter_of_eq_nil hheads]
    exact congrArg _ (ih htails)

/-- No rule stands twice in a run. -/
theorem nodup_rules_ofRules (rules : List RuleName) : (ofRules rules).rules.Nodup := by
  -- Induction on the number of rules, as the repeats of a rule are left out behind it.
  induction hcount : rules.length using Nat.strongRecOn generalizing rules with
  | _ count ih =>
    cases rules with
    | nil => exact List.nodup_nil
    | cons r rest =>
      rw [ofRules, List.eraseDups_cons, List.nodup_cons]
      constructor
      · rw [List.mem_eraseDups, List.mem_filter]
        simp
      · have hshorter : (rest.filter fun other => !other == r).length < count := by
          rw [← hcount, List.length_cons]
          exact Nat.lt_succ_of_le (List.length_filter_le _ _)
        exact ih _ hshorter _ rfl

theorem mem_rules_ofRules {rules : List RuleName} {r : RuleName} :
    r ∈ (ofRules rules).rules ↔ r ∈ rules :=
  List.mem_eraseDups

variable {v : Validation} {schema : Schema} {d : Document}

/-- A run reports nothing exactly if none of its rules finds anything at a visit. -/
theorem diagnostics_eq_nil_iff :
    v.diagnostics schema d = [] ↔
      ∀ r ∈ v.rules, ∀ findings ∈ r.report (.of schema d) (d.visits schema), findings = [] := by
  rw [diagnostics, rows_eq_nil_iff, List.forall_mem_map]
  refine forall₂_congr fun r _ => ?_
  rw [List.take_of_length_le (Nat.le_of_eq (r.length_diagnose _ _)),
    RuleName.diagnose, List.forall_mem_map]
  simp

/-- A run with a single rule reports what that rule finds. -/
theorem diagnostics_single (r : RuleName) :
    (ofRules [r]).diagnostics schema d =
      (r.report (.of schema d) (d.visits schema)).flatten.map (Diagnostic.ofFinding r) := by
  have hrules : (ofRules [r]).rules = [r] := rfl
  rw [diagnostics, hrules, List.map_singleton, rows_singleton,
    List.take_of_length_le (Nat.le_of_eq (r.length_diagnose _ _)),
    RuleName.diagnose, List.map_flatten]

/-- What a run reports for one of its rules is what that rule reports alone. -/
theorem filter_diagnostics {rules : List RuleName} {r : RuleName} (hr : r ∈ rules) :
    ((ofRules rules).diagnostics schema d).filter (fun x => x.rule = r) =
      (ofRules [r]).diagnostics schema d := by
  let kept (other : RuleName) : List (List Diagnostic) :=
    (other.diagnose (.of schema d) (d.visits schema)).map (List.filter fun x => x.rule = r)
  have hothers : ∀ other : RuleName, decide (other = r) = false →
      ∀ row ∈ kept other, row = [] := by
    intro other hother row hrow
    obtain ⟨found, hfound, rfl⟩ := List.mem_map.1 hrow
    refine List.filter_eq_nil_iff.2 fun x hx => ?_
    rw [RuleName.rule_of_mem_diagnose hfound hx, hother]
    exact Bool.false_ne_true
  have hself : kept r = r.diagnose (.of schema d) (d.visits schema) := by
    refine (List.map_congr_left fun row hrow => ?_).trans (List.map_id' _)
    exact List.filter_eq_self.2 fun x hx =>
      decide_eq_true (RuleName.rule_of_mem_diagnose hrow hx)
  have honce : (ofRules rules).rules.filter (· = r) = [r] := by
    rw [List.filter_eq, List.count_eq_one_of_mem (nodup_rules_ofRules rules)
      (mem_rules_ofRules.2 hr), List.replicate_one]
  calc ((ofRules rules).diagnostics schema d).filter (fun x => x.rule = r)
      = rows (d.visits schema).length ((ofRules rules).rules.map kept) := by
        rw [diagnostics, filter_rows, List.map_map]
        rfl
    _ = rows (d.visits schema).length [kept r] := by
        rw [rows_filter_columns _ hothers, honce, List.map_singleton]
    _ = (ofRules [r]).diagnostics schema d := by
        rw [hself]
        rfl

/-- Everything that a run reports is of one of its rules. -/
theorem rule_of_mem_diagnostics {x : Diagnostic} (h : x ∈ v.diagnostics schema d) :
    x.rule ∈ v.rules := by
  obtain ⟨column, hcolumn, row, hrow, hx⟩ := mem_columns_of_mem_rows h
  obtain ⟨r, hr, rfl⟩ := List.mem_map.1 hcolumn
  rwa [RuleName.rule_of_mem_diagnose hrow hx]

/-- What a silent run says about a rule that looks at each visit for itself. -/
theorem quiet_each {r : RuleName} {look : Setting → Visit → List Finding}
    (h : v.diagnostics schema d = []) (hr : r ∈ v.rules) (hlook : r.report = Report.each look)
    {visit : Visit} (hvisit : visit ∈ d.visits schema) : look (.of schema d) visit = [] := by
  rw [diagnostics_eq_nil_iff] at h
  have := h r hr
  rw [hlook] at this
  exact this _ (List.mem_map_of_mem hvisit)

end Validation

end GraphQLCheck
