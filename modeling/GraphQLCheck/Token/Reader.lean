import GraphQLCheck.Token.Basic

/-!
# Readers of lexemes

A reader takes lexemes off the front of a list and gives a result, or stops with a fault. Readers
decide by the next token and never go back, so that the first fault of a text is the one reported.
Repetition stops at the first lexeme that cannot start another item; an item that takes nothing is
refused, so that every repetition ends.
-/

namespace GraphQLCheck

/-- Why a text is not read to its end. -/
inductive TextFault where
  /-- It does not follow the grammar. -/
  | illFormed
  /-- A block string in it has no value: its common indentation ends inside a character. -/
  | uncut (place : Text.InnerPlace)
  deriving DecidableEq, Repr, Inhabited

/-- A reader of lexemes. -/
abbrev Reader (α : Type) := StateT (List Lexeme) (Except TextFault) α

namespace Reader

/-- Refuse what follows. -/
def refuse {α : Type} : Reader α := fun _ => .error .illFormed

/-- A result, or refusal if there is none. -/
def ofOption {α : Type} : Option α → Reader α
  | some a => return a
  | none => refuse

/-- The next token, which stays. -/
def peek : Reader (Option Token) := fun ts => .ok (ts.head?.map Lexeme.token, ts)

/-- The position of the next token, which stays. -/
def here : Reader Position
  | [] => .error .illFormed
  | t :: ts => .ok (t.position, t :: ts)

/-- Take the next lexeme. -/
def take : Reader Lexeme
  | [] => .error .illFormed
  | t :: ts => .ok (t, ts)

/-- Whether the next token is `token`; if so it is taken. -/
def skip? (token : Token) : Reader Bool
  | [] => .ok (false, [])
  | t :: ts => if t.token = token then .ok (true, ts) else .ok (false, t :: ts)

/-- Take the given token; the position at which it stands. -/
def expect (token : Token) : Reader Position := do
  let t ← take
  if t.token = token then return t.position else refuse

/-- Take the given punctuator. -/
def mark (m : Punctuator) : Reader Position := expect (.punctuator m)

/-- Take the given keyword. -/
def keyword (word : String) : Reader Position := expect (.name word)

/-- Take a name. -/
def name : Reader String := do
  match (← take).token with
  | .name text => return text
  | _ => refuse

/-- Take a string, which must have a value. -/
def string : Reader String := do
  match (← take).token with
  | .string text => return text
  | .uncut place => throw (.uncut place)
  | _ => refuse

/-- Whether a lexeme is next, and is a punctuator. -/
def isMark (m : Punctuator) (t : Token) : Bool := t = .punctuator m

/-- Whether a token is a name. -/
def isName : Token → Bool
  | .name _ => true
  | _ => false

/-- Read `item` if the next token can start it. -/
def optional {α : Type} (starts : Token → Bool) (item : Reader α) : Reader (Option α) := do
  match ← peek with
  | some t => if starts t then some <$> item else return none
  | none => return none

/-- Read items as long as the next token can start one. -/
def many {α : Type} (starts : Token → Bool) (item : Reader α) (ts : List Lexeme) :
    Except TextFault (List α × List Lexeme) :=
  match ts with
  | [] => .ok ([], [])
  | t :: rest =>
    if starts t.token then
      match item (t :: rest) with
      | .error fault => .error fault
      | .ok (a, ts') =>
        if ts'.length < rest.length + 1 then
          (many starts item ts').map fun (as, left) => (a :: as, left)
        else .error .illFormed
    else .ok ([], t :: rest)
termination_by ts.length

/-- Read one item, and more as long as the next token can start one. -/
def many1 {α : Type} (starts : Token → Bool) (item : Reader α) : Reader (List α) := do
  let first ← item
  let rest ← many starts item
  return first :: rest

/-- Read one item, and another after each separator. -/
def sepBy1 {α : Type} (separator : Punctuator) (item : Reader α) : Reader (List α) := do
  let first ← item
  let rest ← many (isMark separator) (do let _ ← mark separator; item)
  return first :: rest

/-- Nothing may be left. -/
def finish : Reader Unit
  | [] => .ok ((), [])
  | _ :: _ => .error .illFormed

end Reader

end GraphQLCheck
