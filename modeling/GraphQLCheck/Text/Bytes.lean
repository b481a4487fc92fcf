/-!
# Bytes of characters

How many bytes characters take in UTF-8, and cutting a text after a number of bytes. A cut inside a
character is no cut of the text: `dropBytes` then says which character is in its way.
-/

namespace GraphQLCheck.Text

/-- The bytes that characters take in UTF-8. -/
def byteCount : List Char → Nat
  | [] => 0
  | c :: cs => c.utf8Size + byteCount cs

/-- A place inside a character of a text. -/
structure InnerPlace where
  /-- The place, in bytes from the start of the text. -/
  index : Nat
  /-- The first byte of the character. -/
  first : Nat
  /-- The character. -/
  char : Char
  deriving DecidableEq, Repr, Inhabited

namespace InnerPlace

/-- The message about a place inside a blank character, which is shown by its code point. -/
def message (p : InnerPlace) : String :=
  "start byte index " ++ toString p.index ++ " is not a char boundary; it is inside '\\u\x7b"
    ++ String.ofList (Nat.toDigits 16 p.char.toNat) ++ "\x7d' (bytes " ++ toString p.first ++ ".."
    ++ toString (p.first + p.char.utf8Size) ++ " of string)"

end InnerPlace

/-- The characters after the next `n` bytes of a text of which `passed` bytes are gone. -/
def dropBytesFrom (passed : Nat) : Nat → List Char → Except InnerPlace (List Char)
  | 0, cs => .ok cs
  | _, [] => .ok []
  | n, c :: cs =>
    if c.utf8Size ≤ n then dropBytesFrom (passed + c.utf8Size) (n - c.utf8Size) cs
    else .error ⟨passed + n, passed, c⟩

/-- The characters after the first `n` bytes of a text. -/
def dropBytes (n : Nat) (cs : List Char) : Except InnerPlace (List Char) := dropBytesFrom 0 n cs

end GraphQLCheck.Text
