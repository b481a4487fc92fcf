/-!
# Positions in a text

Lines and columns are counted from 1. A `Span` is the pair of positions at which a bracketed
construct opens and closes, and a `Location` says where a definition of a schema was written.
-/

namespace GraphQLCheck

/-- A place in a text. -/
structure Position where
  /-- The line, from 1. -/
  line : Nat
  /-- The column, from 1. -/
  column : Nat
  deriving DecidableEq, Repr, Inhabited

namespace Position

/-- The first place of every text. -/
def start : Position := ⟨1, 1⟩

/-- The place `n` columns further on the same line. -/
def right (p : Position) (n : Nat) : Position := ⟨p.line, p.column + n⟩

/-- The first place of the following line. -/
def nextLine (p : Position) : Position := ⟨p.line + 1, 1⟩

/-- The place after the text `raw` read from `p`. A text with line feeds ends on a later line, in
the column after the characters that follow its last line feed. -/
def past (p : Position) (raw : List Char) : Position :=
  if '\n' ∈ raw then
    ⟨p.line + raw.count '\n', (raw.reverse.takeWhile (· ≠ '\n')).length + 1⟩
  else p.right raw.length

/-- The position as `line:column`. -/
def render (p : Position) : String := toString p.line ++ ":" ++ toString p.column

end Position

/-- Where a bracketed construct opens and where it closes. -/
structure Span where
  /-- The position of the opening bracket. -/
  first : Position
  /-- The position of the closing bracket. -/
  last : Position
  deriving DecidableEq, Repr, Inhabited

/-- Where a definition of a schema comes from. -/
inductive Location where
  /-- The definition belongs to every schema. -/
  | builtin
  /-- The definition was written in a source, at a position. -/
  | source (file : String) (position : Position)
  deriving DecidableEq, Repr, Inhabited

namespace Location

/-- The location as `builtin` or `file:line:column`. -/
def render : Location → String
  | builtin => "builtin"
  | source file position => file ++ ":" ++ position.render

end Location

end GraphQLCheck
