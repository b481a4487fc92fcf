import GraphQLCheck.Literal.Reader
import GraphQLCheck.Sdl.Basic
import GraphQLCheck.Token.Lexer

/-!
# Reading schema texts

The grammar of schema texts. A description may stand before every definition but a block of root
types and an extension; it is read and dropped. An extension must give something to its type.
-/

namespace GraphQLCheck.Reader

open Sdl

/-! ### Parts of definitions -/

/-- Whether a token is a string, perhaps one without a value. -/
def isString : Token → Bool
  | .string _ | .uncut _ => true
  | _ => false

/-- Whether a token starts something with a name and perhaps a description. -/
def startsDescribed (t : Token) : Bool := isString t ∨ isName t

/-- Read a description, if one stands here. -/
def description : Reader (Option String) := optional isString string

/-- Read what stands between two brackets if the opening one is next; `depth` brackets may still be
opened. -/
def bracketed {α : Type} (opening closing : Punctuator) (depth : Nat) (inner : Nat → Reader α) :
    Reader (Option α) := do
  if ← skip? (.punctuator opening) then
    match depth with
    | 0 => refuse
    | depth + 1 =>
      let a ← inner depth
      let _ ← mark closing
      return some a
  else return none

/-- Read an argument definition or a field of an input object. -/
def inputValue (depth : Nat) : Reader InputValueNode := do
  let position ← here
  let _ ← description
  let text ← name
  let _ ← mark .colon
  let type ← typeRef depth
  let written? ← optional (isMark .equals) (do let _ ← mark .equals; written true depth)
  let _ ← directives false depth
  return ⟨position, text, type, written?⟩

/-- Read argument definitions between parentheses, if a parenthesis follows. -/
def parameters (depth : Nat) : Reader (List InputValueNode) := do
  let found ← bracketed .openParen .closeParen depth fun inner =>
    many1 startsDescribed (inputValue inner)
  return found.getD []

/-- Read a field definition. -/
def fieldDefinition (depth : Nat) : Reader FieldNode := do
  let position ← here
  let _ ← description
  let text ← name
  let params ← parameters depth
  let _ ← mark .colon
  let type ← typeRef depth
  let dirs ← directives false depth
  return ⟨position, text, params, type, dirs⟩

/-- Read a value of an enum. -/
def enumValue (depth : Nat) : Reader EnumValueNode := do
  let position ← here
  let _ ← description
  let text ← name
  return ⟨position, text, ← directives false depth⟩

/-- Read items between braces, if a brace follows. -/
def braced {α : Type} (depth : Nat) (item : Nat → Reader α) : Reader (List α) := do
  let found ← bracketed .openBrace .closeBrace depth fun inner =>
    many1 startsDescribed (item inner)
  return found.getD []

/-- Read the interfaces after `implements`, if the word is next. -/
def interfaces : Reader (List String) := do
  if ← skip? (.name "implements") then
    let _ ← skip? (.punctuator .ampersand)
    sepBy1 .ampersand name
  else return []

/-- Read the members after an equals sign, if the sign is next. -/
def unionMembers : Reader (List String) := do
  if ← skip? (.punctuator .equals) then
    let _ ← skip? (.punctuator .pipe)
    sepBy1 .pipe name
  else return []

/-! ### Types -/

/-- What the text after a type's keyword gives: its name, its parts, and whether it gives something
that makes an extension. -/
structure TypeText where
  /-- The name of the type. -/
  name : String
  /-- What the text gives to it. -/
  parts : TypeParts
  /-- Whether the text may extend the type. -/
  extends? : Bool

/-- Whether a list has items. -/
def given {α : Type} (items : List α) : Bool := !items.isEmpty

/-- Read what follows the keyword of a type. Interfaces alone make no extension of an interface. -/
def typeText (depth : Nat) (word : String) : Reader TypeText := do
  let text ← name
  match word with
  | "scalar" =>
    let dirs ← directives false depth
    return ⟨text, .scalar, given dirs⟩
  | "type" =>
    let ifaces ← interfaces
    let dirs ← directives false depth
    let fields ← braced depth fieldDefinition
    return ⟨text, .object ifaces fields, given ifaces || given dirs || given fields⟩
  | "interface" =>
    let ifaces ← interfaces
    let dirs ← directives false depth
    let fields ← braced depth fieldDefinition
    return ⟨text, .interface ifaces fields, given dirs || given fields⟩
  | "union" =>
    let dirs ← directives false depth
    let members ← unionMembers
    return ⟨text, .union members, given dirs || given members⟩
  | "enum" =>
    let dirs ← directives false depth
    let values ← braced depth enumValue
    return ⟨text, .enum values, given dirs || given values⟩
  | "input" =>
    let dirs ← directives false depth
    let fields ← braced depth inputValue
    return ⟨text, .inputObject fields, given dirs || given fields⟩
  | _ => refuse

/-! ### Other definitions -/

/-- Read a location of directives. -/
def directiveLocation : Reader DirectiveLocation := do
  ofOption (DirectiveLocation.ofName? (← name))

/-- Read the locations after `on`: there may be none, but a leading pipe needs one. -/
def directiveLocations : Reader (List DirectiveLocation) := do
  if ← skip? (.punctuator .pipe) then sepBy1 .pipe directiveLocation
  else
    let found ← optional isName (sepBy1 .pipe directiveLocation)
    return found.getD []

/-- Read a directive definition after its keyword. -/
def directiveDefinition (depth : Nat) (position : Position) : Reader Sdl.Definition := do
  let _ ← mark .atSign
  let text ← name
  let params ← parameters depth
  let repeatable ← skip? (.name "repeatable")
  let _ ← keyword "on"
  return .directive ⟨position, text, params, repeatable, ← directiveLocations⟩

/-- Note a root type; a kind of operation that has one already, or that does not exist, is
refused. -/
def noteRoot (roots : RootNode) : String × String → Option RootNode
  | ("query", type) =>
    if roots.query?.isNone then some { roots with query? := some type } else none
  | ("mutation", type) =>
    if roots.mutation?.isNone then some { roots with mutation? := some type } else none
  | ("subscription", type) =>
    if roots.subscription?.isNone then some { roots with subscription? := some type } else none
  | _ => none

/-- Read a root type: a kind of operation, a colon and the name of a type. -/
def rootEntry : Reader (String × String) := do
  let kind ← name
  let _ ← mark .colon
  return (kind, ← name)

/-- Read a block of root types after its keyword. -/
def rootTypes (depth : Nat) (position : Position) : Reader Sdl.Definition := do
  let _ ← directives false depth
  let _ ← mark .openBrace
  let entries ← many isName rootEntry
  let _ ← mark .closeBrace
  let roots ← ofOption (entries.foldlM noteRoot ⟨position, none, none, none⟩)
  return .roots roots

/-- Read a definition of a schema text. -/
def sdlDefinition (depth : Nat) : Reader Sdl.Definition := do
  let described ← description
  let position ← here
  let word ← name
  match word, described with
  | "schema", none => rootTypes depth position
  | "extend", none =>
    let position ← here
    let text ← typeText depth (← name)
    if text.extends? then return .extension ⟨position, text.name, text.parts⟩ else refuse
  | "directive", _ => directiveDefinition depth position
  | _, _ =>
    let text ← typeText depth word
    return .type ⟨position, text.name, text.parts⟩

/-- Read a whole schema text. -/
def sdlDefinitions : Reader (List Sdl.Definition) := do
  let all ← many1 (fun _ => true) (sdlDefinition nestingLimit)
  finish
  return all

end GraphQLCheck.Reader

namespace GraphQLCheck.Sdl

/-- The definitions that a schema text spells. -/
def ofText (text : String) : Except TextFault (List Definition) := do
  let (definitions, _) ← Reader.sdlDefinitions (Token.lex text.toList)
  return definitions

end GraphQLCheck.Sdl
