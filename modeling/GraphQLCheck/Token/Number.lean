import GraphQLCheck.Token.Basic

/-!
# Number tokens

A number runs up to the next blank, comma, comment or punctuator; what stands there is then read as
a whole or a fractional number. A whole number has no leading zero and fits 64 bits with a sign. An
exponent starts with a sign or with one of the digits 1 to 8.
-/

namespace GraphQLCheck.Token

/-- The characters before which a number ends. -/
def numberEnds : List Char :=
  [' ', '\n', '\r', '\t', ',', '#', '!', '$', ':', '=', '@', '|', '&', '(', ')', '[', ']', '{', '}']

/-- Whether a character goes on with a number. -/
def continuesNumber (c : Char) : Bool := !numberEnds.contains c

/-- Split at the last character with property `p`: what is before it and what is after it. -/
def splitLast (p : Char → Bool) : List Char → Option (List Char × List Char)
  | [] => none
  | c :: cs =>
    match splitLast p cs with
    | some (before, after) => some (c :: before, after)
    | none => if p c then some ([], cs) else none

/-- The number that decimal digits spell, continuing from `start`. -/
def natOfDigits (start : Nat) (digits : List Char) : Nat :=
  digits.foldl (fun n c => 10 * n + (c.toNat - '0'.toNat)) start

/-- One or more digits, and nothing else. -/
def digits? (cs : List Char) : Option (List Char) :=
  if !cs.isEmpty ∧ cs.all Char.isDigit then some cs else none

/-- The digits of a whole number without a sign: `0`, or digits that do not start with a zero. -/
def wholeDigits? (cs : List Char) : Option (List Char) :=
  match cs with
  | ['0'] => some cs
  | '0' :: _ => none
  | _ => digits? cs

/-- The sign and the digits of a whole number. -/
def whole? : List Char → Option (Bool × List Char)
  | '-' :: cs => (wholeDigits? cs).map fun ds => (true, ds)
  | cs => (wholeDigits? cs).map fun ds => (false, ds)

/-- The exponent of a number: a sign and digits, or digits of which the first is one of 1 to 8. -/
def exponent? : List Char → Option Int
  | '+' :: cs => (digits? cs).map fun ds => (natOfDigits 0 ds : Int)
  | '-' :: cs => (digits? cs).map fun ds => -(natOfDigits 0 ds : Int)
  | c :: cs =>
    if '1' ≤ c ∧ c ≤ '8' ∧ cs.all Char.isDigit then some (natOfDigits 0 (c :: cs)) else none
  | [] => none

/-- A fractional number from its whole part, the digits after the point and the exponent. -/
def floatOf (whole : Bool × List Char) (fraction : List Char) (exponent : Int) : Token :=
  .float (Binary64.ofDecimal whole.1 (natOfDigits 0 (whole.2 ++ fraction))
    (exponent - fraction.length))

/-- A whole number, if it fits 64 bits. -/
def intOf (whole : Bool × List Char) : Option Token :=
  let n : Int := natOfDigits 0 whole.2
  let value := if whole.1 then -n else n
  if -9223372036854775808 ≤ value ∧ value ≤ 9223372036854775807 then some (.int value) else none

/-- The token of a number's text. The point and the exponent mark are the last ones in it, and a
point after the exponent mark is refused. -/
def number? (cs : List Char) : Option Token :=
  match splitLast (fun c => c = 'e' ∨ c = 'E') cs with
  | some (mantissa, exponentPart) => do
    let e ← exponent? exponentPart
    match splitLast (· = '.') mantissa with
    | some (whole, fraction) => return floatOf (← whole? whole) (← digits? fraction) e
    | none => return floatOf (← whole? mantissa) [] e
  | none =>
    match splitLast (· = '.') cs with
    | some (whole, fraction) => do return floatOf (← whole? whole) (← digits? fraction) 0
    | none => do intOf (← whole? cs)

end GraphQLCheck.Token
