import GraphQLCheck.Rule.Overlap.Entry

/-!
# What the search for conflicts remembers

What every selection set met so far selects, by its address, and which pairs of fragments were
compared. A pair compared under the assumption that its fields exclude one another has to be
compared again without that assumption, but not the other way round.
-/

namespace GraphQLCheck.Overlap

/-- The pairs of fragments compared so far. -/
structure PairSet where
  /-- For each pair, in both orders, whether its fields were taken to exclude one another; a later
  entry comes before an earlier one. -/
  flags : List ((String × String) × Bool)
  deriving Repr, Inhabited

namespace PairSet

/-- No pairs. -/
def empty : PairSet := ⟨[]⟩

/-- Whether a comparison of two fragments is covered by an earlier one. -/
def contains (s : PairSet) (a b : String) (exclusive : Bool) : Bool :=
  match s.flags.lookup (a, b) with
  | none => false
  | some stored => exclusive || !stored

/-- Remember a comparison of two fragments. -/
def insert (s : PairSet) (a b : String) (exclusive : Bool) : PairSet :=
  ⟨((b, a), exclusive) :: ((a, b), exclusive) :: s.flags⟩

end PairSet

/-- What the search remembers. -/
structure Memory where
  /-- What selection sets select. -/
  entries : List Entry
  /-- The pairs of fragments compared. -/
  compared : PairSet
  deriving Repr, Inhabited

namespace Memory

/-- Nothing is remembered. -/
def empty : Memory := ⟨[], .empty⟩

/-- What the set at an address selects: as remembered, or else as selected from the given type. -/
def entry (schema : Schema) (parent? : Option TypeDefinition) (address : Address)
    (items : List Selection) (m : Memory) : Entry × Memory :=
  match m.entries.find? (·.address = address) with
  | some known => (known, m)
  | none =>
    let new := Entry.of schema parent? address items
    (new, { m with entries := new :: m.entries })

end Memory

end GraphQLCheck.Overlap
