import GraphQLCheck.Literal.Basic
import GraphQLCheck.Token.Lexer

/-!
# Repeated fields of object literals

A document keeps only the last value of a field that an object literal gives twice. The repetitions
are found in the text itself: it is cut into pieces (comments, strings, variables, numbers, names
and single characters), and a stack of open brackets tells object literals from selection sets,
since a brace inside parentheses or brackets always opens an object. Here every character counts for
one column.
-/

namespace GraphQLCheck

/-- A field that an object literal gives more than once. -/
structure RepeatedField where
  /-- The name of the field. -/
  name : String
  /-- The position of its first occurrence in the literal. -/
  first : Position
  /-- The position of the repetition. -/
  again : Position
  deriving DecidableEq, Repr, Inhabited

namespace RepeatedField

/-! ### Pieces of a text -/

/-- Whether a character ends a line. -/
def endsLine (c : Char) : Bool := c = '\n' ∨ c = '\r'

/-- How far a string reaches after its opening mark: up to its closing mark, or to the end of the
line. -/
def stringReach : List Char → Nat
  | [] => 0
  | '\\' :: _ :: cs => 2 + stringReach cs
  | c :: cs =>
    if c = '"' then 1
    else if endsLine c then 0
    else 1 + stringReach cs

/-- How far a block string reaches after its opening marks. -/
def blockReach : List Char → Nat
  | [] => 0
  | '\\' :: '"' :: '"' :: '"' :: cs => 4 + blockReach cs
  | '"' :: '"' :: '"' :: _ => 3
  | _ :: cs => 1 + blockReach cs

/-- Whether `c` goes on with a number after the character `before`. -/
def continuesNumeral (before c : Char) : Bool :=
  if c = '+' ∨ c = '-' then before = 'e' ∨ before = 'E' else c = '.' ∨ c.isAlphanum

/-- How far a number reaches after the character `before`. -/
def numeralReach (before : Char) : List Char → Nat
  | [] => 0
  | c :: cs => if continuesNumeral before c then 1 + numeralReach c cs else 0

/-- How many of the characters after `c` belong to the piece that starts with `c`. -/
def reach (c : Char) (cs : List Char) : Nat :=
  if c = '#' then (cs.takeWhile (!endsLine ·)).length
  else if c = '"' then
    match cs with
    | '"' :: '"' :: body => 2 + blockReach body
    | _ => stringReach cs
  else if c = '-' ∨ c.isDigit then numeralReach c cs
  else if c = '$' ∨ Token.startsName c then (cs.takeWhile Token.continuesName).length
  else 0

mutual

/-- The next character that is no blank, comma or part of a comment. -/
def significant? : List Char → Option Char
  | [] => none
  | c :: cs =>
    if c = '#' then significantAfterComment? cs
    else if [' ', '\t', '\n', '\r', ',', '\uFEFF'].contains c then significant? cs
    else some c

/-- The next significant character after the comment that goes on here. -/
def significantAfterComment? : List Char → Option Char
  | [] => none
  | c :: cs => if endsLine c then significant? cs else significantAfterComment? cs

end

/-! ### Open brackets -/

/-- An open bracket. -/
inductive Frame where
  /-- The parenthesis of arguments or variable definitions. -/
  | arguments
  /-- The bracket of a list. -/
  | list
  /-- The brace of an object literal, with the field names met in it. -/
  | object (seen : List FieldName)
  /-- The brace of a selection set. -/
  | selectionSet
  deriving Repr

/-- What a brace opens inside the given brackets. -/
def Frame.ofBrace : List Frame → Frame
  | [] => selectionSet
  | selectionSet :: _ => selectionSet
  | _ => object []

/-- The brackets open after a piece that starts with `c`, names apart. -/
def bracketsAfter (c : Char) (frames : List Frame) : List Frame :=
  if c = '(' then .arguments :: frames
  else if c = '[' then .list :: frames
  else if c = '\x7b' then Frame.ofBrace frames :: frames
  else if c = ')' ∨ c = ']' ∨ c = '\x7d' then frames.tail
  else frames

/-- A name at position `p`, in the innermost of the open brackets: it is a field of an object
literal if a colon follows. The repetition that it makes, if any, and the brackets with the name
noted. -/
def meetName (p : Position) (name : String) (rest : List Char) (frames : List Frame) :
    Option RepeatedField × List Frame :=
  match frames with
  | .object seen :: outer =>
    if significant? rest = some ':' then
      match seen.find? (·.name = name) with
      | some field => (some ⟨name, field.position, p⟩, frames)
      | none => (none, .object (⟨name, p⟩ :: seen) :: outer)
    else (none, frames)
  | _ => (none, frames)

/-- The repeated fields of a text that is read from position `p` on, inside open brackets. -/
def scanFrom (p : Position) (frames : List Frame) (cs : List Char) : List RepeatedField :=
  match cs with
  | [] => []
  | c :: cs =>
    let raw := c :: cs.take (reach c cs)
    let rest := cs.drop (reach c cs)
    if Token.startsName c then
      let (found?, frames) := meetName p (String.ofList raw) rest frames
      found?.toList ++ scanFrom (p.past raw) frames rest
    else scanFrom (p.past raw) (bracketsAfter c frames) rest
termination_by cs.length
decreasing_by all_goals simp only [List.length_drop, List.length_cons]; omega

/-- The repeated fields of a text, in the order of the repetitions. -/
def scan (text : List Char) : List RepeatedField := scanFrom Position.start [] text

end RepeatedField

end GraphQLCheck
