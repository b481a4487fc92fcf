import GraphQLCheck.Text.Blank
import GraphQLCheck.Text.Bytes
import GraphQLCheck.Token.Basic

/-!
# Strings and block strings

A string stands between single quotation marks on one line and knows escapes. A block string stands
between triple quotation marks; its value has the indentation common to its lines removed, and the
blank lines at either end. Indentation is counted in bytes, so that it may end inside a character of
another line: then there is no value.
-/

namespace GraphQLCheck.Token

/-! ### Strings -/

/-- Split after the quotation mark that closes a string: the characters before the mark and those
after it. A backslash protects the next mark, and a line feed may not occur. -/
def closeString (escaped : Bool) : List Char → Option (List Char × List Char)
  | [] => none
  | c :: cs =>
    if c = '"' ∧ !escaped then some ([], cs)
    else if c = '\n' then none
    else (closeString (!escaped ∧ c = '\\') cs).map fun (body, rest) => (c :: body, rest)

/-- The value of a hexadecimal digit. -/
def hexDigit? (c : Char) : Option Nat :=
  if '0' ≤ c ∧ c ≤ '9' then some (c.toNat - '0'.toNat)
  else if 'a' ≤ c ∧ c ≤ 'f' then some (c.toNat - 'a'.toNat + 10)
  else if 'A' ≤ c ∧ c ≤ 'F' then some (c.toNat - 'A'.toNat + 10)
  else none

/-- The number that hexadecimal digits spell, continuing from `start`. -/
def natOfHex? (start : Nat) (cs : List Char) : Option Nat :=
  cs.foldlM (fun n c => (hexDigit? c).map (16 * n + ·)) start

/-- The character with a given code point, if there is one. -/
def charOfNat? (n : Nat) : Option Char := if n.isValidChar then some (Char.ofNat n) else none

/-- The character of the four characters after `\u`, which may start with a plus sign. -/
def codePoint? (a b c d : Char) : Option Char := do
  charOfNat? (← natOfHex? 0 (if a = '+' then [b, c, d] else [a, b, c, d]))

/-- The character that an escape of one letter stands for. -/
def escape? : Char → Option Char
  | '"' => some '"'
  | '\\' => some '\\'
  | '/' => some '/'
  | 'b' => some '\x10'
  | 'f' => some '\x0c'
  | 'n' => some '\n'
  | 'r' => some '\r'
  | 't' => some '\t'
  | _ => none

/-- The text of a string, from the characters between its quotation marks. -/
def unescape : List Char → Option (List Char)
  | [] => some []
  | '\\' :: 'u' :: a :: b :: c :: d :: cs => do return (← codePoint? a b c d) :: (← unescape cs)
  | '\\' :: c :: cs => do return (← escape? c) :: (← unescape cs)
  | c :: cs => if c = '\\' then none else (unescape cs).map (c :: ·)

/-! ### Block strings -/

/-- Split after the three quotation marks that close a block string. Three marks directly after a
backslash do not close it. -/
def closeBlock (escaped : Bool) : List Char → Option (List Char × List Char)
  | [] => none
  | '"' :: '"' :: '"' :: cs =>
    if escaped then
      (closeBlock false cs).map fun (body, rest) => ('"' :: '"' :: '"' :: body, rest)
    else some ([], cs)
  | c :: cs => (closeBlock (c = '\\') cs).map fun (body, rest) => (c :: body, rest)

/-- The lines of a text. A line feed ends a line, together with a carriage return before it, and a
text that ends with a line feed has no empty line after it. -/
def linesOf : List Char → List (List Char)
  | [] => []
  | '\n' :: cs => [] :: linesOf cs
  | '\r' :: '\n' :: cs => [] :: linesOf cs
  | c :: cs =>
    match linesOf cs with
    | [] => [[c]]
    | line :: rest => (c :: line) :: rest

/-- Whether all characters of a line are blank. -/
def isBlankLine (line : List Char) : Bool := line.all Text.isBlank

/-- The bytes of the blank characters at the start of a line. -/
def indentOf (line : List Char) : Nat := Text.byteCount (line.takeWhile Text.isBlank)

/-- The least indentation of the lines that are not blank. -/
def commonIndent (lines : List (List Char)) : Nat :=
  ((lines.filter (!isBlankLine ·)).map indentOf).min?.getD 0

/-- A line without an indentation; a line shorter than that stays as it is. -/
def dedent (indent : Nat) (line : List Char) : Except Text.InnerPlace (List Char) :=
  if indent ≤ Text.byteCount line then Text.dropBytes indent line else .ok line

/-- Lines without the blank ones at either end, each with the indentation that it is to lose. -/
def trimLines (lines : List (Nat × List Char)) : List (Nat × List Char) :=
  let blank (line : Nat × List Char) : Bool := isBlankLine line.2
  ((lines.dropWhile blank).reverse.dropWhile blank).reverse

/-- Three quotation marks after a backslash stand for the three marks. -/
def unescapeBlock : List Char → List Char
  | '\\' :: '"' :: '"' :: '"' :: cs => '"' :: '"' :: '"' :: unescapeBlock cs
  | c :: cs => c :: unescapeBlock cs
  | [] => []

/-- The text of a block string, from the characters between its marks. The first line keeps its
indentation and has no part in the common one. -/
def blockText (body : List Char) : Except Text.InnerPlace (List Char) := do
  let lines := linesOf body
  let indent := commonIndent (lines.drop 1)
  let kept := trimLines
    ((lines.take 1).map (fun line => (0, line)) ++ (lines.drop 1).map fun line => (indent, line))
  let dedented ← kept.mapM fun (indent, line) => dedent indent line
  return ['\n'].intercalate (dedented.map unescapeBlock)

end GraphQLCheck.Token
