import GraphQLCheck.Decimal.Binary64
import GraphQLCheck.Text.Bytes
import GraphQLCheck.Text.Position

/-!
# Tokens

The tokens of the language. Numbers and strings are tokens with their value; a `Lexeme` is a token
with the position at which it starts. A block string has no value if its lines cannot be cut at
their common indentation, and a text may go on with something that is no token at all; both stand
among the tokens, for what comes before them is read first.
-/

namespace GraphQLCheck

/-- The tokens that are always written in one way. -/
inductive Punctuator where
  /-- An opening parenthesis. -/
  | openParen
  /-- A closing parenthesis. -/
  | closeParen
  /-- An opening square bracket. -/
  | openBracket
  /-- A closing square bracket. -/
  | closeBracket
  /-- An opening brace. -/
  | openBrace
  /-- A closing brace. -/
  | closeBrace
  /-- The mark of a required type. -/
  | bang
  /-- The mark of a variable. -/
  | dollar
  /-- A colon. -/
  | colon
  /-- The sign before a default value. -/
  | equals
  /-- The mark of a directive. -/
  | atSign
  /-- The bar between union members and between directive locations. -/
  | pipe
  /-- The sign between interfaces. -/
  | ampersand
  /-- The three dots of a spread. -/
  | ellipsis
  deriving DecidableEq, Repr, Inhabited

/-- A token with its value. -/
inductive Token where
  /-- A punctuator. -/
  | punctuator (mark : Punctuator)
  /-- A name; keywords are names too. -/
  | name (text : String)
  /-- A whole number of 64 bits. -/
  | int (value : Int)
  /-- A number with a fraction or an exponent. -/
  | float (value : Binary64)
  /-- A string or a block string, decoded. -/
  | string (text : String)
  /-- A block string whose common indentation ends inside a character. -/
  | uncut (place : Text.InnerPlace)
  /-- A text that starts with no token. -/
  | unknown
  deriving DecidableEq, Repr, Inhabited

/-- A token and where it starts. -/
structure Lexeme where
  /-- The token. -/
  token : Token
  /-- The position of its first character. -/
  position : Position
  deriving DecidableEq, Repr, Inhabited

end GraphQLCheck
