import GraphQLCheck.Literal.Printer
import GraphQLCheck.Schema.Basic

/-!
# Checking literals

Whether a literal is a value of a type. A variable is let through, since its own type is checked at
its place; so is everything where the type is unknown or not one of values that can be given. A
literal that is no list stands for a list of one, at any depth, so it is checked against the name
inside all lists. Each fault says where in the literal it is.
-/

namespace GraphQLCheck

/-- A step from a literal to one of its parts. -/
inductive LiteralStep where
  /-- To the item of a list, counted from 0. -/
  | element (index : Nat)
  /-- To the field of an object. -/
  | field (name : String)
  deriving DecidableEq, Repr, Inhabited

/-- What is wrong with a literal or with one of its parts. -/
inductive CoercionCause where
  /-- There is no value where one is required. -/
  | unexpectedNull (expected : TypeRef)
  /-- Something that is no object stands for an input object. -/
  | notAnObject (typeName : String)
  /-- The input object has no such field. -/
  | unknownField
  /-- The literal is not of the kind that the type asks for. -/
  | wrongKind (typeName : String) (found : Literal)
  deriving Repr, Inhabited

/-- A fault of a literal. -/
structure CoercionFault where
  /-- The steps to the part that is at fault. -/
  path : List LiteralStep
  /-- What is wrong with it. -/
  cause : CoercionCause
  deriving Repr, Inhabited

namespace LiteralStep

/-- A step as the start of a message. -/
def render : LiteralStep → String
  | element index => "In element #" ++ toString index ++ ": "
  | field name => "In field \"" ++ name ++ "\": "

end LiteralStep

namespace CoercionCause

/-- The message of a cause. -/
def message : CoercionCause → String
  | unexpectedNull expected => "Expected \"" ++ expected.render ++ "\", found null."
  | notAnObject typeName => "Expected \"" ++ typeName ++ "\", found not an object."
  | unknownField => "Unknown field."
  | wrongKind typeName found =>
    "Expected type \"" ++ typeName ++ "\", found " ++ found.render ++ "."

end CoercionCause

namespace CoercionFault

/-- The message of a fault: the steps, then the cause. -/
def message (f : CoercionFault) : String :=
  String.join (f.path.map LiteralStep.render) ++ f.cause.message

/-- The fault as one of a literal that holds the part at fault. -/
def inside (step : LiteralStep) (f : CoercionFault) : CoercionFault :=
  { f with path := step :: f.path }

end CoercionFault

namespace Coercion

/-- Whether a whole number fits 32 bits with a sign. -/
def fitsInt32 (n : Int) : Bool := -2147483648 ≤ n ∧ n ≤ 2147483647

/-- Whether a type that is no input object takes a literal other than `null` and variables. -/
def acceptsLeaf (t : TypeDefinition) (value : Literal) : Bool :=
  match t.body, value with
  | .builtin .boolean, .atom (.bool _) => true
  | .builtin .float, .atom (.float _) => true
  | .builtin .float, .atom (.int _) => true
  | .builtin .id, .atom (.int _) => true
  | .builtin .id, .atom (.string _) => true
  | .builtin .int, .atom (.int n) => fitsInt32 n
  | .builtin .string, .atom (.string _) => true
  | .builtin _, _ => false
  | .enum _, .atom (.enum name) => (t.enumValue? name).isSome
  | .enum _, _ => false
  | .inputObject _, _ => false
  | _, _ => true

/-- A check of one literal against any type. -/
abbrev Check := TypeRef → List CoercionFault

/-- The faults of a literal that is no object, against a type by name. -/
def namedFaults (s : Schema) (name : String) (value : Literal) : List CoercionFault :=
  match s.type? name with
  | none => []
  | some t =>
    match t.body with
    | .inputObject _ => [⟨[], .notAnObject t.name⟩]
    | _ => if acceptsLeaf t value then [] else [⟨[], .wrongKind t.name value⟩]

/-- The faults of the field of an input object, given the checks of the provided fields. -/
def fieldFaults (provided : List (String × Check)) (field : InputValue) : List CoercionFault :=
  let faults :=
    match provided.lookup field.name with
    | some check => check field.type
    | none =>
      if field.type.nullable ∨ field.default?.isSome then []
      else [⟨[], .unexpectedNull field.type⟩]
  faults.map (·.inside (.field field.name))

/-- The faults of an object against a type by name, given the checks of its fields. -/
def objectFaults (s : Schema) (name : String) (value : Literal) (provided : List (String × Check)) :
    List CoercionFault :=
  match s.type? name with
  | none => []
  | some t =>
    match t.body with
    | .inputObject fields =>
      let unknown := provided.filter fun p => !fields.any (·.name = p.1)
      unknown.map (fun p => ⟨[.field p.1], .unknownField⟩) ++ fields.flatMap (fieldFaults provided)
    | _ => if acceptsLeaf t value then [] else [⟨[], .wrongKind t.name value⟩]

mutual

/-- The faults of a literal against a type. -/
def faults (s : Schema) : Literal → Check
  | .atom (.var _), _ => []
  | .atom .null, type => if type.nullable then [] else [⟨[], .unexpectedNull type⟩]
  | .atom value, type => namedFaults s type.innermost (.atom value)
  | .list items, .list item _ => itemFaults s 0 items item
  | .list items, .named name _ => namedFaults s name (.list items)
  | .object fields, type => objectFaults s type.innermost (.object fields) (fieldChecks s fields)

/-- The faults of the items of a list, which are counted from `index`. -/
def itemFaults (s : Schema) (index : Nat) : List Literal → Check
  | [], _ => []
  | item :: rest, type =>
    (faults s item type).map (·.inside (.element index)) ++ itemFaults s (index + 1) rest type

/-- The check of each field of an object. -/
def fieldChecks (s : Schema) : List (String × Literal) → List (String × Check)
  | [] => []
  | (name, value) :: rest => (name, faults s value) :: fieldChecks s rest

end

end Coercion

end GraphQLCheck
