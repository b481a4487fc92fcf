/-!
# Type references

A type reference names a type, perhaps wrapped into lists, and says at each level whether `null` is
a value of it.
-/

namespace GraphQLCheck

/-- A reference to a type. -/
inductive TypeRef where
  /-- The type of a given name. -/
  | named (name : String) (nullable : Bool)
  /-- A list of items of one type. -/
  | list (item : TypeRef) (nullable : Bool)
  deriving DecidableEq, Repr, Inhabited

namespace TypeRef

/-- Whether `null` is a value of the type. -/
def nullable : TypeRef → Bool
  | named _ nullable => nullable
  | list _ nullable => nullable

/-- The reference with `null` among the values or not. -/
def withNullable (nullable : Bool) : TypeRef → TypeRef
  | named name _ => named name nullable
  | list item _ => list item nullable

/-- The reference with `null` among the values. -/
def asNullable (t : TypeRef) : TypeRef := t.withNullable true

/-- The reference without `null` among the values. -/
def asNonNull (t : TypeRef) : TypeRef := t.withNullable false

/-- The name inside all lists. -/
def innermost : TypeRef → String
  | named name _ => name
  | list item _ => item.innermost

/-- The type of the items, for a list. -/
def item? : TypeRef → Option TypeRef
  | named _ _ => none
  | list item _ => some item

/-- The reference as it is written, a required type with its mark. -/
def render : TypeRef → String
  | named name nullable => name ++ (if nullable then "" else "!")
  | list item nullable => "[" ++ item.render ++ "]" ++ (if nullable then "" else "!")

end TypeRef

end GraphQLCheck
