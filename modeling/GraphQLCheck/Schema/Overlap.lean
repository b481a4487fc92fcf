import GraphQLCheck.Schema.Basic

/-!
# Overlapping types

Two composite types overlap if some object can be of both.
-/

namespace GraphQLCheck

namespace Schema

/-- Whether some object type satisfies both types. A type overlaps with itself; an abstract type
overlaps with its possible types and with an abstract type that has one of them. -/
def overlap (s : Schema) (a b : TypeDefinition) : Bool :=
  if a.name = b.name then true
  else
    match a.isAbstract, b.isAbstract with
    | true, true => (s.possibleTypes a.name).any (s.isPossible b.name)
    | true, false => s.isPossible a.name b.name
    | false, true => s.isPossible b.name a.name
    | false, false => false

end Schema

end GraphQLCheck
