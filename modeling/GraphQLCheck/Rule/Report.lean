import GraphQLCheck.Traversal.Scope
import GraphQLCheck.Usage

/-!
# Reports of rules

A rule looks at the visits of a walk one after another and reports its findings at each of them.
Most rules look at each visit for itself; some carry what they have seen from one visit to the next.
A report has one list of findings a visit, so that the findings of several rules can be put together
in the order of the walk.
-/

namespace GraphQLCheck

/-- Something that a rule objects to. -/
structure Finding where
  /-- What is wrong. -/
  message : String
  /-- The nodes concerned. -/
  nodes : List NodeRef
  deriving DecidableEq, Repr, Inhabited

/-- What all rules of a run share. -/
structure Setting where
  /-- The schema. -/
  schema : Schema
  /-- The document. -/
  document : Document
  /-- The uses of variables that each operation reaches, by the number of the operation. -/
  uses : List (List VariableUse)
  deriving Repr, Inhabited

namespace Setting

/-- The setting of a run over a document. -/
def of (schema : Schema) (document : Document) : Setting :=
  ⟨schema, document, document.operations.map (·.variableUses schema document)⟩

/-- The uses of variables that the operation of a given number reaches. -/
def usesOf (s : Setting) (index : Nat) : List VariableUse := s.uses[index]?.getD []

end Setting

/-- The findings of a rule at each visit of a walk. -/
abbrev Report := Setting → List Visit → List (List Finding)

namespace Report

/-- The report of a rule that looks at each visit for itself. -/
def each (look : Setting → Visit → List Finding) : Report :=
  fun setting visits => visits.map (look setting)

/-- The findings of a rule that carries a state from one visit to the next. -/
def scanFrom {σ : Type} (step : σ → Visit → σ × List Finding) (state : σ) :
    List Visit → List (List Finding)
  | [] => []
  | visit :: rest => (step state visit).2 :: scanFrom step (step state visit).1 rest

/-- The report of a rule that carries a state from one visit to the next. -/
def scan {σ : Type} (start : σ) (step : Setting → σ → Visit → σ × List Finding) : Report :=
  fun setting visits => scanFrom (step setting) start visits

end Report

end GraphQLCheck
