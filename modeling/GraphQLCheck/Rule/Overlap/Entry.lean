import GraphQLCheck.Schema.Basic
import GraphQLCheck.Traversal.Hook

/-!
# What a selection set selects

The fields of a selection set by response name, those of inline fragments included, and the names of
the fragments that it refers to. A field is kept with its definition and with the type from which it
is selected.
-/

namespace GraphQLCheck.Overlap

/-- A field where it is selected. -/
structure Occurrence where
  /-- The field. -/
  node : Field
  /-- The address of its own selection set. -/
  address : Address
  /-- Its own selections. -/
  items : List Selection
  /-- Its definition. -/
  definition? : Option FieldDefinition
  /-- The type that it is selected from. -/
  parent? : Option TypeDefinition
  deriving Repr, Inhabited

/-- Fields by response name, in the order in which the names were first met. -/
abbrev FieldMap := List (String × List Occurrence)

/-- Add a field under a response name. -/
def FieldMap.add (name : String) (o : Occurrence) : FieldMap → FieldMap
  | [] => [(name, [o])]
  | (other, list) :: rest =>
    if other = name then (other, list ++ [o]) :: rest else (other, list) :: add name o rest

/-- What a selection set selects. -/
structure Entry where
  /-- The address of the set. -/
  address : Address
  /-- Its fields. -/
  fields : FieldMap
  /-- The names of the fragments that it refers to, without repeats. -/
  fragments : List String
  deriving Repr, Inhabited

namespace Entry

/-- Add a field. -/
def addField (e : Entry) (o : Occurrence) : Entry :=
  { e with fields := e.fields.add o.node.responseName o }

/-- Add the name of a fragment. -/
def addFragment (e : Entry) (name : String) : Entry :=
  if name ∈ e.fragments then e else { e with fragments := e.fragments ++ [name] }

mutual

/-- Add a selection from a type, whose own set has the given address. -/
def addSelection (schema : Schema) (parent? : Option TypeDefinition) (address : Address) :
    Selection → Entry → Entry
  | .field node _ items, e =>
    e.addField ⟨node, address, items, parent?.bind (schema.selectedField? · node.name), parent?⟩
  | .spread node, e => e.addFragment node.name
  | .inline node _ items, e =>
    let type? := match node.condition? with
      | some name => schema.type? name
      | none => parent?
    addSelections schema type? address 0 items e

/-- Add the selections from a type in a set at an address, from the given number on. -/
def addSelections (schema : Schema) (parent? : Option TypeDefinition) (address : Address)
    (index : Nat) : List Selection → Entry → Entry
  | [], e => e
  | item :: rest, e =>
    addSelections schema parent? address (index + 1) rest
      (addSelection schema parent? (index :: address) item e)

end

/-- What the set at an address selects from a type. -/
def of (schema : Schema) (parent? : Option TypeDefinition) (address : Address)
    (items : List Selection) : Entry :=
  addSelections schema parent? address 0 items ⟨address, [], []⟩

end Entry

/-- Two fields under one response name. -/
structure Candidate where
  /-- The response name. -/
  name : String
  /-- One of the fields. -/
  first : Occurrence
  /-- The other field. -/
  second : Occurrence
  deriving Repr, Inhabited

namespace Candidate

/-- The pairs of a list, each element with every later one. -/
def pairs : List Occurrence → List (Occurrence × Occurrence)
  | [] => []
  | o :: rest => rest.map (o, ·) ++ pairs rest

/-- The pairs of fields of a map that have the same response name. -/
def within (fields : FieldMap) : List Candidate :=
  fields.flatMap fun (name, list) => (pairs list).map fun (a, b) => ⟨name, a, b⟩

/-- The pairs of a field of one map and a field of another that have the same response name. -/
def between (fields others : FieldMap) : List Candidate :=
  fields.flatMap fun (name, list) =>
    list.flatMap fun a => ((others.lookup name).getD []).map fun b => ⟨name, a, b⟩

end Candidate

end GraphQLCheck.Overlap
