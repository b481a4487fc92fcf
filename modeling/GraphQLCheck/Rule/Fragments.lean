import GraphQLCheck.Document.Spreads
import GraphQLCheck.Rule.Report

/-!
# Fragments of a document

The rules that every fragment is referred to somewhere, and that no fragment contains itself. Cycles
are searched depth first: every fragment is explored once, and a reference to a fragment on the path
that leads to it closes a cycle.
-/

namespace GraphQLCheck

/-- The state of a search for cycles. -/
structure CycleSearch where
  /-- The references followed to the fragment being explored, the first one first. -/
  path : List FragmentSpread
  /-- For each fragment being explored the number of references followed to it. -/
  steps : List (String × Nat)
  /-- The names of the fragments explored so far. -/
  explored : List String
  deriving Repr, Inhabited

namespace CycleSearch

/-- The state before anything is explored. -/
def start : CycleSearch := ⟨[], [], []⟩

/-- The references followed after a given number of them, if so many were followed. -/
def pathFrom? (s : CycleSearch) (step : Nat) : Option (List FragmentSpread) :=
  if step ≤ s.path.length then some (s.path.drop step) else none

/-- The finding about a reference that closes a cycle over other references. -/
def closes (spread : FragmentSpread) (between : List FragmentSpread) : Finding :=
  let via :=
    if between.isEmpty then ""
    else " via " ++ ", ".intercalate (between.map fun s => "\"" ++ s.name ++ "\"")
  ⟨"Cannot spread fragment \"" ++ spread.name ++ "\" within itself" ++ via ++ ".",
    (between ++ [spread]).map FragmentSpread.ref⟩

/-- Follow a reference, given how to explore a fragment. -/
def follow (document : Document)
    (explore : FragmentDefinition → CycleSearch → Option (CycleSearch × List Finding))
    (spread : FragmentSpread) (s : CycleSearch) : Option (CycleSearch × List Finding) := do
  match s.steps.lookup spread.name with
  | some step => return (s, [closes spread (← s.pathFrom? step)])
  | none =>
    let inside := { s with path := s.path ++ [spread] }
    let (after, found) ←
      match s.explored.contains spread.name, document.fragment? spread.name with
      | false, some f => explore f inside
      | _, _ => some (inside, [])
    return ({ after with path := after.path.dropLast }, found)

/-- Follow references one after another. -/
def followAll (document : Document)
    (explore : FragmentDefinition → CycleSearch → Option (CycleSearch × List Finding)) :
    List FragmentSpread → CycleSearch → Option (CycleSearch × List Finding)
  | [], s => some (s, [])
  | spread :: rest, s => do
    let (s, found) ← follow document explore spread s
    let (s, more) ← followAll document explore rest s
    return (s, found ++ more)

/-- Explore a fragment, with at most so many fragments on the path. There is no result if the depth
does not suffice or a step lies beyond the path; neither happens. -/
def explore (document : Document) :
    (depth : Nat) → FragmentDefinition → CycleSearch → Option (CycleSearch × List Finding)
  | 0, _, _ => none
  | depth + 1, f, s =>
    let s := { s with explored := f.name :: s.explored }
    match f.selectionSet.spreads with
    | [] => some (s, [])
    | spreads => do
      let inside := { s with steps := (f.name, s.path.length) :: s.steps }
      let (after, found) ← followAll document (explore document depth) spreads inside
      return ({ after with steps := after.steps.filter (·.1 ≠ f.name) }, found)

/-- Explore a fragment where it is defined, unless it was explored before. The fragments on a path
have different names, so there are no more of them than fragments in the document. -/
def enter (document : Document) (s : CycleSearch) (f : FragmentDefinition) :
    Option (CycleSearch × List Finding) :=
  if f.name ∈ s.explored then some (s, []) else explore document document.fragments.length f s

end CycleSearch

namespace Rule

/-- No fragment contains itself. -/
def noFragmentCycles : Report :=
  Report.scan CycleSearch.start fun setting s visit =>
    match visit.hook with
    | .enter (.fragmentDefinition f) => (s.enter setting.document f).getD (s, [])
    | _ => (s, [])

/-- Fragments are referred to somewhere. -/
def noUnusedFragments : Report :=
  Report.scan ([] : List String) fun _ used visit =>
    match visit.hook with
    | .enter (.spread s) => (s.name :: used, [])
    | .leave (.document d) =>
      (used, (d.fragments.filter fun f => !used.contains f.name).map fun f =>
        ⟨"Fragment \"" ++ f.name ++ "\" is never used.", [f.ref]⟩)
    | _ => (used, [])

end Rule

end GraphQLCheck
