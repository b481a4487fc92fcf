import GraphQLCheck.Log
import GraphQLCheck.Rule.Basic

/-!
# Validation

A run validates a document with a list of rules. Its diagnostics are in the order of the walk, at
each visit in the order of the rules.
-/

namespace GraphQLCheck

/-- What a rule objects to in a document. -/
structure Diagnostic where
  /-- The rule. -/
  rule : RuleName
  /-- What is wrong. -/
  message : String
  /-- The nodes concerned. -/
  nodes : List NodeRef
  deriving DecidableEq, Repr, Inhabited

namespace Diagnostic

/-- The diagnostic for a finding of a rule. -/
def ofFinding (rule : RuleName) (f : Finding) : Diagnostic := ⟨rule, f.message, f.nodes⟩

end Diagnostic

namespace RuleName

/-- The diagnostics of a rule at each visit. -/
def diagnose (r : RuleName) (setting : Setting) (visits : List Visit) : List (List Diagnostic) :=
  (r.report setting visits).map fun findings => findings.map (Diagnostic.ofFinding r)

end RuleName

/-- The rules of a run, each of them once. -/
structure Validation where
  /-- The rules in the order in which they look at a visit. -/
  rules : List RuleName
  deriving DecidableEq, Repr, Inhabited

namespace Validation

/-- A run with the given rules; repeats are ignored. -/
def ofRules (rules : List RuleName) : Validation := ⟨rules.eraseDups⟩

/-- A run with all rules. -/
def full : Validation := ofRules RuleName.all

/-- Put columns of lists together row by row, for so many rows. -/
def rows {α : Type} : (count : Nat) → List (List (List α)) → List α
  | 0, _ => []
  | count + 1, columns =>
    columns.flatMap (fun column => column.headD []) ++ rows count (columns.map List.tail)

/-- The diagnostics of a run, in the order in which they are reported. -/
def diagnostics (v : Validation) (schema : Schema) (document : Document) : List Diagnostic :=
  let setting := Setting.of schema document
  let visits := document.visits schema
  rows visits.length (v.rules.map fun rule => rule.diagnose setting visits)

/-- The log of a run with the given diagnostics. -/
def log (v : Validation) (document : Document) (found : List Diagnostic) : List LogLine :=
  found.map (fun d => ⟨.trace, d.rule.render ++ ": " ++ d.message⟩) ++
  v.rules.map (fun rule =>
    let count := found.countP fun d => d.rule = rule
    ⟨.trace, rule.render ++ ": " ++ toString count ++ " diagnostics"⟩) ++
  [⟨.debug, "validated document (" ++ toString document.definitions.length ++
    " definitions) with " ++ toString v.rules.length ++ " rules: " ++ toString found.length ++
    " diagnostics"⟩]

end Validation

end GraphQLCheck
