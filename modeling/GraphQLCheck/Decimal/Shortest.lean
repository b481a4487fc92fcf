import GraphQLCheck.Decimal.Binary64

/-!
# The shortest decimal of a double

`shortest` finds the fewest decimal digits that read back as a given double, and among the decimals
of that length the nearest one; of two equally near the larger. `Binary64.render` writes them
positionally, without an exponent and without a fraction when there is none.
-/

namespace GraphQLCheck

/-- The number `digits * 10 ^ exponent`. -/
structure Decimal where
  /-- The digits as one number. -/
  digits : Nat
  /-- The power of ten of the last digit. -/
  exponent : Int
  deriving DecidableEq, Repr, Inhabited

namespace Decimal

/-- The numbers that round to a double, over the common denominator `den`: those between `low` and
`high`, the ends included when `closed`. The double itself is `value / den`. -/
structure Window where
  /-- The numerator of the double. -/
  value : Nat
  /-- The numerator of the lower end. -/
  low : Nat
  /-- The numerator of the upper end. -/
  high : Nat
  /-- The common denominator. -/
  den : Nat
  /-- Whether the ends round to the double too. -/
  closed : Bool
  deriving Repr

/-- The window of `m * 2 ^ e`: its ends lie halfway to the neighbouring doubles, and the neighbour
below a power of two is half as far. The ends belong to it when `m` is even. -/
def window (m : Nat) (e : Int) : Window :=
  let e' := e - 2
  let up := if 0 ≤ e' then Nat.pow 2 e'.toNat else 1
  let den := if 0 ≤ e' then 1 else Nat.pow 2 (-e').toNat
  let below := if m = Nat.pow 2 52 ∧ Binary64.minExponent < e then 1 else 2
  { value := 4 * m * up
    low := (4 * m - below) * up
    high := (4 * m + 2) * up
    den
    closed := m % 2 = 0 }

namespace Window

/-- The `k` with `10 ^ (k - 1) ≤ value / den < 10 ^ k`, for a positive value. -/
def magnitude (w : Window) : Int :=
  if w.den ≤ w.value then Binary64.digitCount (w.value / w.den)
  else 1 - (Binary64.digitCount ((w.den + w.value - 1) / w.value - 1) : Int)

/-- `num / den` and `10 ^ k` brought to one denominator: the numerators of both. -/
def scaled (num den : Nat) (k : Int) : Nat × Nat :=
  if 0 ≤ k then (num, den * Nat.pow 10 k.toNat) else (num * Nat.pow 10 (-k).toNat, den)

/-- Whether `c * 10 ^ k` lies in the window. -/
def holds (w : Window) (c : Nat) (k : Int) : Bool :=
  let (low, unit) := scaled w.low w.den k
  let (high, _) := scaled w.high w.den k
  if w.closed then low ≤ c * unit ∧ c * unit ≤ high else low < c * unit ∧ c * unit < high

/-- The multiple of `10 ^ k` in the window that is nearest to the value, if one of the value's two
neighbours among them is in it; the larger one when both are equally near. -/
def nearest? (w : Window) (k : Int) : Option Decimal :=
  let (value, unit) := scaled w.value w.den k
  let c := value / unit
  let rest := value % unit
  match w.holds c k, w.holds (c + 1) k with
  | true, true => some ⟨if 2 * rest < unit then c else c + 1, k⟩
  | true, false => some ⟨c, k⟩
  | false, true => some ⟨c + 1, k⟩
  | false, false => none

end Window

/-- The shortest decimal that reads back as `m * 2 ^ e`. Seventeen digits suffice for every
double. -/
def shortest (m : Nat) (e : Int) : Decimal :=
  let w := window m e
  let lengths := List.range' 1 17
  (lengths.findSome? fun (n : Nat) => w.nearest? (w.magnitude - n)).getD ⟨m, e⟩

/-- The decimal in positional notation. -/
def render (d : Decimal) : String :=
  let digits := Nat.toDigits 10 d.digits
  if 0 ≤ d.exponent then
    String.ofList (digits ++ List.replicate d.exponent.toNat '0')
  else
    let places := (-d.exponent).toNat
    let padded := List.replicate (places + 1 - digits.length) '0' ++ digits
    let whole := padded.take (padded.length - places)
    let fraction := padded.drop (padded.length - places)
    let fraction := (fraction.reverse.dropWhile (· = '0')).reverse
    if fraction.isEmpty then String.ofList whole
    else String.ofList (whole ++ '.' :: fraction)

end Decimal

namespace Binary64

/-- The double as its shortest decimal; infinities are `inf` and `-inf`, and a negative zero keeps
its sign. -/
def render : Binary64 → String
  | infinite negative => if negative then "-inf" else "inf"
  | finite negative m e =>
    let digits := if m = 0 then "0" else (Decimal.shortest m e).render
    if negative then "-" ++ digits else digits

end Binary64

end GraphQLCheck
