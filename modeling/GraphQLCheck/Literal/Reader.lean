import GraphQLCheck.Document.Basic
import GraphQLCheck.Token.Reader

/-!
# Reading literals, type references and directives

Not more than `nestingLimit` brackets may be open at once. Each reader of something bracketed takes
the number of brackets that may still be opened, and its parts get one less; at zero none can open.
-/

namespace GraphQLCheck.Reader

/-- How many brackets may be open at once. -/
def nestingLimit : Nat := 50

/-! ### Literals -/

/-- Read a literal without parts. Where only constants stand, a variable is refused. -/
def atom (constant : Bool) : Reader Atom := do
  match (← take).token with
  | .punctuator .dollar => if constant then refuse else return .var (← name)
  | .name "true" => return .bool true
  | .name "false" => return .bool false
  | .name "null" => return .null
  | .name text => return .enum text
  | .int value => return .int value
  | .float value => return .float value
  | .string text => return .string text
  | .uncut place => throw (.uncut place)
  | .punctuator _ | .unknown => refuse

/-- Read a literal; `depth` brackets may still be opened. -/
def written (constant : Bool) : Nat → Reader Written
  | 0 => do return .atom (← atom constant)
  | depth + 1 => do
    match ← peek with
    | some (.punctuator .openBracket) =>
      let _ ← take
      let items ← many (!isMark .closeBracket ·) (written constant depth)
      let _ ← mark .closeBracket
      return .list items
    | some (.punctuator .openBrace) =>
      let _ ← take
      let fields ← many (!isMark .closeBrace ·) do
        let position ← here
        let field ← name
        let _ ← mark .colon
        return (⟨field, position⟩, ← written constant depth)
      let _ ← mark .closeBrace
      return .object fields
    | _ => return .atom (← atom constant)

/-! ### Type references -/

/-- A type without `null` among its values, if the mark of a required type follows. -/
def requiredMark (type : TypeRef) : Reader TypeRef := do
  if ← skip? (.punctuator .bang) then return type.asNonNull else return type

/-- Read a type reference; `depth` brackets may still be opened. -/
def typeRef : Nat → Reader TypeRef
  | 0 => do requiredMark (.named (← name) true)
  | depth + 1 => do
    if ← skip? (.punctuator .openBracket) then
      let item ← typeRef depth
      let _ ← mark .closeBracket
      requiredMark (.list item true)
    else requiredMark (.named (← name) true)

/-! ### Arguments and directives -/

/-- Read an argument: a name, a colon and a literal. -/
def argument (constant : Bool) (depth : Nat) : Reader Argument := do
  let parameter ← name
  let _ ← mark .colon
  return ⟨parameter, ← written constant depth⟩

/-- Read arguments between parentheses, if a parenthesis follows. -/
def arguments (constant : Bool) : Nat → Reader (List Argument)
  | 0 => do
    if ← skip? (.punctuator .openParen) then refuse else return []
  | depth + 1 => do
    if ← skip? (.punctuator .openParen) then
      let args ← many1 isName (argument constant depth)
      let _ ← mark .closeParen
      return args
    else return []

/-- Read a directive: its mark, its name and perhaps arguments. -/
def directive (constant : Bool) (depth : Nat) : Reader Directive := do
  let position ← mark .atSign
  let text ← name
  return ⟨position, text, ← arguments constant depth⟩

/-- Read all directives that follow. -/
def directives (constant : Bool) (depth : Nat) : Reader (List Directive) :=
  many (isMark .atSign) (directive constant depth)

end GraphQLCheck.Reader
