import GraphQLCheck.Decimal.Shortest
import GraphQLCheck.Literal.Basic

/-!
# Printing literals

The text of a literal. Strings escape quotation marks, backslashes, line feeds, carriage returns and
tabs, and no other character; the fields of an object come in their sorted order, so two literals
that differ in the order of fields have one text.
-/

namespace GraphQLCheck

/-- The characters of a whole number. -/
def intChars (n : Int) : List Char :=
  if n < 0 then '-' :: Nat.toDigits 10 n.natAbs else Nat.toDigits 10 n.natAbs

/-- A character of a string, escaped where it has to be. -/
def escapedChar : Char → List Char
  | '"' => ['\\', '"']
  | '\\' => ['\\', '\\']
  | '\n' => ['\\', 'n']
  | '\r' => ['\\', 'r']
  | '\t' => ['\\', 't']
  | c => [c]

/-- The characters of a string with its quotation marks. -/
def quotedChars (text : List Char) : List Char := '"' :: (text.flatMap escapedChar ++ ['"'])

/-- The characters of a literal without parts. -/
def Atom.toChars : Atom → List Char
  | var name => '$' :: name.toList
  | int value => intChars value
  | float value => value.render.toList
  | string text => quotedChars text.toList
  | bool true => ['t', 'r', 'u', 'e']
  | bool false => ['f', 'a', 'l', 's', 'e']
  | null => ['n', 'u', 'l', 'l']
  | enum name => name.toList

namespace Literal

mutual

/-- The characters of a literal. -/
def toChars : Literal → List Char
  | atom value => value.toChars
  | list items => '[' :: (itemChars items ++ [']'])
  | object fields => '{' :: (fieldChars fields ++ ['}'])

/-- The characters of the items of a list, with a comma and a blank between two. -/
def itemChars : List Literal → List Char
  | [] => []
  | [item] => item.toChars
  | item :: rest => item.toChars ++ ',' :: ' ' :: itemChars rest

/-- The characters of the fields of an object, with a comma and a blank between two. -/
def fieldChars : List (String × Literal) → List Char
  | [] => []
  | [(name, value)] => name.toList ++ ':' :: ' ' :: value.toChars
  | (name, value) :: rest =>
    name.toList ++ ':' :: ' ' :: (value.toChars ++ ',' :: ' ' :: fieldChars rest)

end

/-- The text of a literal. -/
def render (l : Literal) : String := String.ofList l.toChars

end Literal

end GraphQLCheck
