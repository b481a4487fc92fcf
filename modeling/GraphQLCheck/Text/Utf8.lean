/-!
# UTF-8

Decoding bytes as UTF-8. A fault is met at the first byte with which no text can go on; it is
counted from the first byte of its character. A text that ends inside a character is incomplete.
-/

namespace GraphQLCheck.Utf8

/-- Why bytes are not UTF-8. -/
inductive Fault where
  /-- `length` bytes from `index` on start no character. -/
  | invalid (length index : Nat)
  /-- The bytes end inside the character that starts at `index`. -/
  | incomplete (index : Nat)
  deriving DecidableEq, Repr, Inhabited

namespace Fault

/-- The message of a fault. -/
def message : Fault → String
  | invalid length index =>
    "invalid utf-8 sequence of " ++ toString length ++ " bytes from index " ++ toString index
  | incomplete index => "incomplete utf-8 byte sequence from index " ++ toString index

end Fault

/-- A range of bytes, both ends included. -/
structure ByteRange where
  /-- The least byte. -/
  low : UInt8
  /-- The greatest byte. -/
  high : UInt8
  deriving DecidableEq, Repr, Inhabited

namespace ByteRange

/-- Whether a byte is in the range. -/
def holds (r : ByteRange) (b : UInt8) : Bool := r.low ≤ b ∧ b ≤ r.high

/-- The bytes that continue a character. -/
def tail : ByteRange := ⟨0x80, 0xBF⟩

end ByteRange

/-- What the first byte of a character says: its share of the code point, and the ranges of the
bytes that must follow. -/
def lead? (b : UInt8) : Option (Nat × List ByteRange) :=
  let n := b.toNat
  if n ≤ 0x7F then some (n, [])
  else if n < 0xC2 then none
  else if n ≤ 0xDF then some (n - 0xC0, [.tail])
  else if n = 0xE0 then some (n - 0xE0, [⟨0xA0, 0xBF⟩, .tail])
  else if n = 0xED then some (n - 0xE0, [⟨0x80, 0x9F⟩, .tail])
  else if n ≤ 0xEF then some (n - 0xE0, [.tail, .tail])
  else if n = 0xF0 then some (n - 0xF0, [⟨0x90, 0xBF⟩, .tail, .tail])
  else if n ≤ 0xF3 then some (n - 0xF0, [.tail, .tail, .tail])
  else if n = 0xF4 then some (n - 0xF0, [⟨0x80, 0x8F⟩, .tail, .tail])
  else none

/-- A character of which bytes are still owed. -/
structure Pending where
  /-- The index of its first byte. -/
  index : Nat
  /-- How many of its bytes have been read. -/
  taken : Nat
  /-- The code point so far. -/
  code : Nat
  /-- The range of the next byte. -/
  next : ByteRange
  /-- The ranges of the bytes after that. -/
  more : List ByteRange
  deriving Repr

/-- Decode bytes from `index` on, perhaps inside a character. -/
def decodeFrom (index : Nat) (pending? : Option Pending) :
    List UInt8 → Except Fault (List Char)
  | [] =>
    match pending? with
    | none => .ok []
    | some p => .error (.incomplete p.index)
  | b :: bs =>
    match pending? with
    | none =>
      match lead? b with
      | none => .error (.invalid 1 index)
      | some (code, []) => (decodeFrom (index + 1) none bs).map (Char.ofNat code :: ·)
      | some (code, next :: more) => decodeFrom (index + 1) (some ⟨index, 1, code, next, more⟩) bs
    | some p =>
      if p.next.holds b then
        let code := 64 * p.code + b.toNat % 64
        match p.more with
        | [] => (decodeFrom (index + 1) none bs).map (Char.ofNat code :: ·)
        | next :: more =>
          decodeFrom (index + 1) (some ⟨p.index, p.taken + 1, code, next, more⟩) bs
      else .error (.invalid p.taken p.index)

/-- The text that bytes spell, or why they spell none. -/
def decode (bytes : List UInt8) : Except Fault String :=
  (decodeFrom 0 none bytes).map String.ofList

end GraphQLCheck.Utf8
