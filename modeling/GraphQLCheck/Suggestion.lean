/-!
# Suggestions

Names similar to one that is not known. Two names are compared by the number of edits between them:
inserting, removing or replacing a character, or swapping two neighbours. The number is computed row
by row: the row of a text has its distance to every suffix of the other text, the longest first.
-/

namespace GraphQLCheck.Suggestion

/-! ### Edit distance -/

/-- The cost of putting one character for another. -/
def replaceCost (a b : Char) : Nat := if a = b then 0 else 1

/-- The first number of a row. -/
def headOr (row : List Nat) : Nat := row.head?.getD 0

/-- The row of the empty text: its distances to `b` and to all shorter suffixes. -/
def emptyRow : List Char → List Nat
  | [] => [0]
  | _ :: bs => (bs.length + 1) :: emptyRow bs

/-- The distance between `a :: as` and `b :: bs` over a swap of their first two characters, if these
are the same crosswise; `before` is the row of the tail of `as` from the tail of `bs` on. -/
def swap? (a : Char) (second? : Option Char) (b : Char) (bs : List Char) (before : List Nat) :
    Option Nat :=
  match second?, bs with
  | some a', b' :: _ => if a = b' ∧ a' = b then some (headOr before + replaceCost a b) else none
  | _, _ => none

/-- The row of `a :: as`, from that of `as` and that of the tail of `as`; `second?` is the first
character of `as`. -/
def nextRow (a : Char) (second? : Option Char) : List Char → List Nat → List Nat → List Nat
  | [], row, _ => [headOr row + 1]
  | b :: bs, row, before =>
    let right := nextRow a second? bs row.tail before.tail
    let plain := min (min (headOr row + 1) (headOr right + 1)) (headOr row.tail + replaceCost a b)
    let best :=
      match swap? a second? b bs before.tail.tail with
      | some swapped => min plain swapped
      | none => plain
    best :: right

/-- The row of a text and that of its tail. -/
def rows : List Char → List Char → List Nat × List Nat
  | [], b => (emptyRow b, [])
  | a :: as, b =>
    let (row, before) := rows as b
    (nextRow a as.head? b row before, row)

/-- The number of edits between two texts. -/
def distance (a b : String) : Nat := headOr (rows a.toList b.toList).1

/-! ### Choosing and writing suggestions -/

/-- Whether a name is near enough to be suggested: its distance is not more than half the length of
the longer text. -/
def isNear (input option : String) : Bool :=
  2 * distance input option ≤ max input.length option.length

/-- The names to suggest, the nearest first; equally near ones keep their order. -/
def choose (input : String) (options : List String) : List String :=
  (options.filter (isNear input)).mergeSort fun a b => distance input a ≤ distance input b

/-- How many names are written at most. -/
def maxListed : Nat := 5

/-- A name between quotation marks. -/
def quoted (name : String) : String := "\"" ++ name ++ "\""

/-- Names between quotation marks as an alternative: one, two with `or` between them, or several
with commas and an `or` before the last. -/
def orList (names : List String) : String :=
  match (names.take maxListed).map quoted with
  | [] => ""
  | [a] => a
  | [a, b] => a ++ " or " ++ b
  | many => ", ".intercalate many.dropLast ++ ", or " ++ many.getLast?.getD ""

/-- The question that ends a message, if there is something to suggest. -/
def didYouMean (names : List String) : String :=
  if names.isEmpty then "" else " Did you mean " ++ orList names ++ "?"

end GraphQLCheck.Suggestion
