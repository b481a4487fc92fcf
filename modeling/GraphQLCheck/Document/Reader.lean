import GraphQLCheck.Literal.Reader
import GraphQLCheck.Token.Lexer

/-!
# Reading executable documents

The grammar of documents. Keywords are ordinary names everywhere but where they are asked for: at
the start of a definition, and for `on` after the name of a fragment and after three dots.
-/

namespace GraphQLCheck.Reader

/-! ### Selections -/

/-- Whether a token can start a selection. -/
def startsSelection (t : Token) : Bool := isName t ∨ isMark .ellipsis t

/-- Read a field, given how to read a selection set. -/
def field (depth : Nat) (set : Reader SelectionSet) : Reader Selection := do
  let position ← here
  let first ← name
  let alias? ← optional (isMark .colon) (do let _ ← mark .colon; name)
  let args ← arguments false depth
  let dirs ← directives false depth
  let sub? ← optional (isMark .openBrace) set
  let node : Field :=
    match alias? with
    | some second => ⟨position, some first, second, args, dirs⟩
    | none => ⟨position, none, first, args, dirs⟩
  match sub? with
  | some sub => return .field node sub.span sub.items
  | none => return .field node ⟨position, position⟩ []

/-- Read an inline fragment at `position`, after its type condition. -/
def inlineFragment (depth : Nat) (set : Reader SelectionSet) (position : Position)
    (condition? : Option String) : Reader Selection := do
  let dirs ← directives false depth
  let sub ← set
  return .inline ⟨position, condition?, dirs⟩ sub.span sub.items

/-- Read what follows three dots: `on` always starts a type condition, any other name is the name of
a fragment. -/
def afterEllipsis (depth : Nat) (set : Reader SelectionSet) : Reader Selection := do
  let position ← here
  match ← peek with
  | some (.name "on") =>
    let _ ← take
    let condition ← name
    inlineFragment depth set position (some condition)
  | some (.name fragment) =>
    let _ ← take
    return .spread ⟨position, fragment, ← directives false depth⟩
  | _ => inlineFragment depth set position none

/-- Read a selection, given how to read a selection set inside it. -/
def selection (depth : Nat) (set : Reader SelectionSet) : Reader Selection := do
  if ← skip? (.punctuator .ellipsis) then afterEllipsis depth set else field depth set

/-- Read a selection set; `depth` brackets may still be opened. -/
def selectionSet : Nat → Reader SelectionSet
  | 0 => refuse
  | depth + 1 => do
    let first ← mark .openBrace
    let items ← many1 startsSelection (selection depth (selectionSet depth))
    let last ← mark .closeBrace
    return ⟨⟨first, last⟩, items⟩

/-! ### Definitions -/

/-- Read the definition of a variable. -/
def variableDefinition (depth : Nat) : Reader VariableDefinition := do
  let position ← mark .dollar
  let text ← name
  let _ ← mark .colon
  let type ← typeRef depth
  let written? ← optional (isMark .equals) (do let _ ← mark .equals; written true depth)
  return ⟨position, text, type, written?⟩

/-- Read variable definitions between parentheses, if a parenthesis follows. -/
def variableDefinitions : Nat → Reader (List VariableDefinition)
  | 0 => return []
  | depth + 1 => do
    if ← skip? (.punctuator .openParen) then
      let declared ← many1 (isMark .dollar) (variableDefinition depth)
      let _ ← mark .closeParen
      return declared
    else return []

/-- Read an operation after its keyword. -/
def operation (depth : Nat) (kind : OperationKind) (position : Position) : Reader Definition := do
  let name? ← optional isName name
  let declared ← variableDefinitions depth
  let dirs ← directives false depth
  let set ← selectionSet depth
  return .operation ⟨kind, position, name?, declared, dirs, set⟩

/-- Read a fragment definition after its keyword. -/
def fragment (depth : Nat) (position : Position) : Reader Definition := do
  let text ← name
  let _ ← keyword "on"
  let condition ← name
  let dirs ← directives false depth
  let set ← selectionSet depth
  return .fragment ⟨position, text, condition, dirs, set⟩

/-- Read a definition. -/
def definition (depth : Nat) : Reader Definition := do
  let position ← here
  match ← peek with
  | some (.name "query") =>
    let _ ← take
    operation depth .query position
  | some (.name "mutation") =>
    let _ ← take
    operation depth .mutation position
  | some (.name "subscription") =>
    let _ ← take
    operation depth .subscription position
  | some (.name "fragment") =>
    let _ ← take
    fragment depth position
  | _ => return .bare (← selectionSet depth)

/-- Read the definitions of a whole document. -/
def definitions : Reader (List Definition) := do
  let all ← many1 (fun _ => true) (definition nestingLimit)
  finish
  return all

end GraphQLCheck.Reader

namespace GraphQLCheck.Document

/-- The document that characters spell. -/
def ofChars (text : List Char) : Except TextFault Document := do
  let (definitions, _) ← Reader.definitions (Token.lex text)
  return ⟨definitions, RepeatedField.scan text⟩

/-- The document that a text spells. -/
def ofText (text : String) : Except TextFault Document := ofChars text.toList

end GraphQLCheck.Document
