import GraphQLCheck.Schema.Basic

/-!
# Subtyping

`t.isSubtype s u` says that a value of type `t` may stand where one of type `u` is expected: at no
level does `u` require a value and `t` not, both have the same list depth, and the names inside are
equal or those of an object type and of an abstract type that has it among its possible types.
-/

namespace GraphQLCheck

namespace Schema

/-- Whether a value of one type may stand for one of the other, by their names. -/
def isSubtypeName (s : Schema) (sub sup : String) : Bool :=
  if sub = sup then true
  else
    match s.type? sub, s.type? sup with
    | some t, some u => t.isObject ∧ u.isAbstract ∧ s.isPossible u.name t.name
    | _, _ => false

end Schema

namespace TypeRef

/-- Whether a value of the first type may stand where one of the second is expected. -/
def isSubtype (s : Schema) : TypeRef → TypeRef → Bool
  | named sub n, named sup m => (n = m ∧ sub = sup) ∨ ((m ∨ !n) ∧ s.isSubtypeName sub sup)
  | list sub n, list sup m => (n = m ∧ sub = sup) ∨ ((m ∨ !n) ∧ isSubtype s sub sup)
  | _, _ => false

end TypeRef

end GraphQLCheck
