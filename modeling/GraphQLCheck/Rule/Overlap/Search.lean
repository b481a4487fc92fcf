import GraphQLCheck.Document.Spreads
import GraphQLCheck.Rule.Overlap.Conflict
import GraphQLCheck.Rule.Overlap.Memory

/-!
# Fields that can be merged

The rule that all fields under one response name can be merged. In each selection set the fields are
compared with one another and with those of the fragments referred to, and the fragments with one
another. Two fields with selections of their own are compared in the same way one level further
down.

The comparisons of a level take the comparison of two fields as an argument, so that each recursion
ends for a reason of its own: a fragment is compared with a set once a level, a pair of fragments
once for good, and fields are compared to a depth that is given.
-/

namespace GraphQLCheck

namespace Document

/-- The first definition of a fragment, with the address of its selection set. -/
def placedFragment? (d : Document) (name : String) : Option (Address × FragmentDefinition) :=
  d.definitions.zipIdx.findSome? fun (definition, index) =>
    (definition.fragment?.filter (·.name = name)).map fun f => ([index], f)

/-- The selection sets of the definitions. -/
def selectionSets (d : Document) : List SelectionSet :=
  d.definitions.filterMap fun definition =>
    match definition.operation?, definition.fragment? with
    | some o, _ => some o.selectionSet
    | none, some f => some f.selectionSet
    | none, none => none

/-- The number of selection sets, at any depth. -/
def setCount (d : Document) : Nat := SelectionSet.stackCount (d.selectionSets.map (·.items))

/-- The number of references to fragments, at any depth. -/
def spreadCount (d : Document) : Nat := (d.selectionSets.flatMap (·.spreads)).length

end Document

namespace Overlap

/-- Do something for each element of a list, passing on a state, and put together what is found. -/
def forEach {α β σ : Type} (find : α → σ → List β × σ) : List α → σ → List β × σ
  | [], s => ([], s)
  | a :: rest, s =>
    let (found, s) := find a s
    let (more, s) := forEach find rest s
    (found ++ more, s)

/-- A comparison of two fields, told whether they exclude one another. -/
abbrev Comparison := Bool → Candidate → Memory → List Conflict × Memory

/-! ### Comparing sets and fragments -/

section Level

variable (schema : Schema) (document : Document) (compare : Comparison)

/-- What a fragment selects. -/
def fragmentEntry (address : Address) (f : FragmentDefinition) (m : Memory) : Entry × Memory :=
  m.entry schema (schema.type? f.condition) address f.selectionSet.items

/-- Compare the fields of a set with those of a fragment and of the fragments that it refers to, at
most so many one inside another. The state has the names of the fragments already compared with the
set. -/
def withFragment (exclusive : Bool) (entry : Entry) :
    (depth : Nat) → String → List String × Memory → List Conflict × List String × Memory
  | 0, _, s => ([], s)
  | depth + 1, name, (names, m) =>
    if name ∈ names then ([], names, m)
    else
      let names := name :: names
      match document.placedFragment? name with
      | none => ([], names, m)
      | some (address, f) =>
        let (other, m) := fragmentEntry schema address f m
        if other.address = entry.address then ([], names, m)
        else
          let (found, m) :=
            forEach (compare exclusive) (Candidate.between entry.fields other.fields) m
          let (more, s) := forEach (withFragment exclusive entry depth) other.fragments (names, m)
          (found ++ more, s)

/-- Compare two fragments and the fragments that they refer to, at most so many pairs one inside
another. -/
def betweenFragments (exclusive : Bool) :
    (depth : Nat) → String × String → Memory → List Conflict × Memory
  | 0, _, m => ([], m)
  | depth + 1, (a, b), m =>
    if a = b then ([], m)
    else if m.compared.contains a b exclusive then ([], m)
    else
      let m := { m with compared := m.compared.insert a b exclusive }
      match document.placedFragment? a, document.placedFragment? b with
      | some (address, f), some (address', g) =>
        let (entry, m) := fragmentEntry schema address f m
        let (other, m) := fragmentEntry schema address' g m
        let (found, m) :=
          forEach (compare exclusive) (Candidate.between entry.fields other.fields) m
        let (right, m) :=
          forEach (betweenFragments exclusive depth) (other.fragments.map (a, ·)) m
        let (left, m) :=
          forEach (betweenFragments exclusive depth) (entry.fragments.map (·, b)) m
        (found ++ right ++ left, m)
      | _, _ => ([], m)

/-- How many fragments can be compared with a set one inside another: each of them has another
name. -/
def fragmentDepth : Nat := document.fragments.length + 1

/-- How many pairs of fragments can be compared one inside another: each of them is another pair. -/
def pairDepth : Nat := document.fragments.length * document.fragments.length + 1

/-- Compare the fields of a set with those of fragments. -/
def withFragments (exclusive : Bool) (entry : Entry) (fragments : List String) (m : Memory) :
    List Conflict × Memory :=
  let (found, _, m) :=
    forEach (withFragment schema document compare exclusive entry (fragmentDepth document))
      fragments ([], m)
  (found, m)

/-- Compare the own selections of two fields. -/
def betweenSets (exclusive : Bool) (a b : Occurrence) (m : Memory) : List Conflict × Memory :=
  let type? (o : Occurrence) := o.definition?.bind (schema.type? ·.type.innermost)
  let (entry, m) := m.entry schema (type? a) a.address a.items
  let (other, m) := m.entry schema (type? b) b.address b.items
  let (found, m) := forEach (compare exclusive) (Candidate.between entry.fields other.fields) m
  let (right, m) := withFragments schema document compare exclusive entry other.fragments m
  let (left, m) := withFragments schema document compare exclusive other entry.fragments m
  let (both, m) :=
    forEach (betweenFragments schema document compare exclusive (pairDepth document))
      (entry.fragments.flatMap fun x => other.fragments.map (x, ·)) m
  (found ++ right ++ left ++ both, m)

/-- Compare the fragments that a set refers to with its fields and each with all later ones. The
state has the names of the fragments already compared with the set. -/
def fragmentsWithin (entry : Entry) :
    List String → List String × Memory → List Conflict × List String × Memory
  | [], s => ([], s)
  | name :: rest, s =>
    let (found, names, m) :=
      withFragment schema document compare false entry (fragmentDepth document) name s
    let (pairs, m) :=
      forEach (betweenFragments schema document compare false (pairDepth document))
        (rest.map (name, ·)) m
    let (more, s) := fragmentsWithin entry rest (names, m)
    (found ++ pairs ++ more, s)

/-- The conflicts inside a selection set that selects from a type. -/
def withinSet (parent? : Option TypeDefinition) (address : Address) (items : List Selection)
    (m : Memory) : List Conflict × Memory :=
  let (entry, m) := m.entry schema parent? address items
  let (found, m) := forEach (compare false) (Candidate.within entry.fields) m
  let (more, _, m) := fragmentsWithin schema document compare entry entry.fragments ([], m)
  (found ++ more, m)

end Level

/-! ### Comparing fields -/

/-- Compare two fields, to a given depth of selections. -/
def compareFields (schema : Schema) (document : Document) : (depth : Nat) → Comparison
  | 0, _, _, m => ([], m)
  | depth + 1, exclusive, c, m =>
    let exclusive := exclusive || fromDifferentObjects c.first c.second
    match ownReason? schema exclusive c.first c.second with
    | some reason => ([⟨c.name, reason, [c.first.node], [c.second.node]⟩], m)
    | none =>
      if c.first.items.isEmpty || c.second.items.isEmpty then ([], m)
      else
        let (parts, m) :=
          betweenSets schema document (compareFields schema document depth) exclusive c.first
            c.second m
        if parts.isEmpty then ([], m) else ([Conflict.ofParts c parts], m)

/-- How deep fields are compared. A field with selections is told by its selection set. Comparisons
inside one another differ in the two fields, in whether these are taken to exclude one another, or
in the pairs of fragments remembered; a pair of names is remembered at most twice. -/
def searchDepth (d : Document) : Nat :=
  let fieldPairs := (d.setCount + 1) * (d.setCount + 1)
  let memories := d.spreadCount * d.spreadCount + 1
  2 * fieldPairs * memories

end Overlap

namespace Rule

/-- Fields under one response name can be merged. -/
def overlappingFieldsCanBeMerged : Report :=
  Report.scan Overlap.Memory.empty fun setting memory visit =>
    match visit.hook with
    | .enter (.selectionSet address set) =>
      let compare :=
        Overlap.compareFields setting.schema setting.document (Overlap.searchDepth setting.document)
      let (conflicts, memory) :=
        Overlap.withinSet setting.schema setting.document compare visit.scope.parent? address
          set.items memory
      (memory, conflicts.map (·.finding))
    | _ => (memory, [])

end Rule

end GraphQLCheck
