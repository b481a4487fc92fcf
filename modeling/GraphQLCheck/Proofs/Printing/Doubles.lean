import GraphQLCheck.Decimal.Shortest
import Mathlib.Algebra.Field.Rat
import Mathlib.Algebra.Order.Field.Power
import Mathlib.Algebra.Order.Ring.Rat
import Mathlib.Data.Nat.Cast.Order.Field
import Mathlib.Tactic.FieldSimp
import Mathlib.Tactic.Linarith
import Mathlib.Tactic.Positivity
import Mathlib.Tactic.Ring

/-!
# Doubles and their shortest decimals

The significand of a double has 53 bits, or the exponent is the least one (`Binary64.Canonical`).
Rounding gives such doubles only. The numbers that round to one of them lie around it
(`Decimal.Rounds`), and no number rounds to two.

The shortest decimal of a double is one of the numbers that round to it: when it is looked for among
the multiples of a power of ten, one of the two neighbours of the double rounds to it at the latest
when they have seventeen digits, since then they are nearer to one another than the ends of the
window.

## What is proved

* `canonical_ofDecimal` — rounding a decimal gives a canonical double.
* `Rounds.unique` — no number rounds to two doubles.
* `rounds_shortest` — the shortest decimal rounds to the double.
* `value_shortest_inj` — different doubles have different shortest decimals.
-/

namespace GraphQLCheck

/-! ### Fractions at a scale -/

/-- A fraction divided by a power of a base, as it is written with natural numbers. -/
theorem scaled_div {base den : ℕ} (hbase : 0 < base) (num : ℕ) (hden : 0 < den) (k : ℤ) :
    let scaled : ℕ × ℕ :=
      if 0 ≤ k then (num, den * Nat.pow base k.toNat) else (num * Nat.pow base (-k).toNat, den)
    0 < scaled.2 ∧ (scaled.1 : ℚ) / scaled.2 = num / den / (base : ℚ) ^ k := by
  have hb : (base : ℚ) ≠ 0 := by positivity
  have hd : (den : ℚ) ≠ 0 := by positivity
  by_cases hk : 0 ≤ k
  · obtain ⟨n, rfl⟩ := Int.eq_ofNat_of_zero_le hk
    simp only [hk, if_true, Int.toNat_natCast, Nat.pow_eq]
    refine ⟨by positivity, ?_⟩
    push_cast
    rw [zpow_natCast, div_div]
  · obtain ⟨n, hn⟩ := Int.eq_ofNat_of_zero_le (by omega : 0 ≤ -k)
    obtain rfl : k = -(n : ℤ) := by omega
    simp only [hk, if_false, neg_neg, Int.toNat_natCast, Nat.pow_eq]
    refine ⟨hden, ?_⟩
    push_cast
    rw [zpow_neg, zpow_natCast]
    field_simp

namespace Binary64

/-- Significand and exponent of a double: a significand of 53 bits, or of fewer with the least
exponent. -/
structure Canonical (m : ℕ) (e : ℤ) : Prop where
  /-- There are no more than 53 bits. -/
  lt : m < 2 ^ 53
  /-- The exponent is not too small. -/
  least : minExponent ≤ e
  /-- There are 53 bits if the exponent can be made smaller. -/
  full : minExponent < e → 2 ^ 52 ≤ m

/-- The double has the form that rounding gives it. -/
def IsCanonical : Binary64 → Prop
  | finite _ m e => Canonical m e
  | infinite _ => True

theorem canonical_zero : Canonical 0 minExponent :=
  ⟨by decide, le_rfl, fun h => absurd h (lt_irrefl _)⟩

/-! ### Rounding -/

theorem scaleDown_spec (num : ℕ) {den : ℕ} (hden : 0 < den) (e : ℤ) :
    0 < (scaleDown num den e).2 ∧
      ((scaleDown num den e).1 : ℚ) / (scaleDown num den e).2 = num / den / 2 ^ e :=
  scaled_div two_pos num hden e

theorem roundHalfEven_bounds (num den : ℕ) :
    num / den ≤ roundHalfEven num den ∧ roundHalfEven num den ≤ num / den + 1 := by
  unfold roundHalfEven
  dsimp only
  split_ifs <;> omega

variable {num den : ℕ}

theorem unitExponent_eq (num den : ℕ) :
    let guess : ℤ := (num.log2 : ℤ) - den.log2 - 52
    unitExponent num den = max minExponent
      (if (scaleDown num den guess).1 < (scaleDown num den guess).2 * Nat.pow 2 52 then guess - 1
        else guess) := by
  unfold unitExponent
  dsimp only
  rw [max_def]
  split_ifs <;> omega

/-- The exponent at which a fraction is rounded: there it has a whole part of 53 bits, or of fewer
if the exponent is the least one. -/
theorem unitExponent_spec (hnum : 0 < num) (hden : 0 < den) :
    minExponent ≤ unitExponent num den ∧
      (num : ℚ) / den / 2 ^ unitExponent num den < 2 ^ 53 ∧
      (minExponent < unitExponent num den →
        (2 : ℚ) ^ 52 ≤ num / den / 2 ^ unitExponent num den) := by
  have htwo : (2 : ℚ) ≠ 0 := by norm_num
  set guess : ℤ := (num.log2 : ℤ) - den.log2 - 52 with hguess
  have hd : (0 : ℚ) < den := by exact_mod_cast hden
  have hnum_le : (2 : ℚ) ^ num.log2 ≤ num := by exact_mod_cast Nat.log2_self_le hnum.ne'
  have hnum_lt : (num : ℚ) < 2 ^ (num.log2 + 1) := by exact_mod_cast Nat.lt_log2_self
  have hden_le : (2 : ℚ) ^ den.log2 ≤ den := by exact_mod_cast Nat.log2_self_le hden.ne'
  have hden_lt : (den : ℚ) < 2 ^ (den.log2 + 1) := by exact_mod_cast Nat.lt_log2_self
  have hpow : (2 : ℚ) ^ guess * 2 ^ 52 * 2 ^ den.log2 = 2 ^ num.log2 := by
    rw [← zpow_natCast 2 52, ← zpow_natCast 2 den.log2, ← zpow_natCast 2 num.log2,
      ← zpow_add₀ htwo, ← zpow_add₀ htwo]
    congr 1
    push_cast
    omega
  have hg : (0 : ℚ) < 2 ^ guess := by positivity
  -- At the guessed exponent there are 52 or 53 bits.
  have hupper : (num : ℚ) / den / 2 ^ guess < 2 ^ 53 := by
    rw [div_div, div_lt_iff₀ (by positivity)]
    calc (num : ℚ) < 2 ^ (num.log2 + 1) := hnum_lt
      _ = 2 ^ 53 * (2 ^ den.log2 * 2 ^ guess) := by rw [pow_succ, ← hpow]; ring
      _ ≤ 2 ^ 53 * (den * 2 ^ guess) := by gcongr
  have hlower : (2 : ℚ) ^ 51 ≤ num / den / 2 ^ guess := by
    rw [div_div, le_div_iff₀ (by positivity)]
    calc (2 : ℚ) ^ 51 * (den * 2 ^ guess) ≤ 2 ^ 51 * (2 ^ (den.log2 + 1) * 2 ^ guess) := by gcongr
      _ = 2 ^ num.log2 := by rw [pow_succ, ← hpow]; ring
      _ ≤ num := hnum_le
  obtain ⟨hunit, hscaled⟩ := scaleDown_spec num hden guess
  have hfew : (scaleDown num den guess).1 < (scaleDown num den guess).2 * Nat.pow 2 52 ↔
      (num : ℚ) / den / 2 ^ guess < 2 ^ 52 := by
    have hunit : (0 : ℚ) < (scaleDown num den guess).2 := by exact_mod_cast hunit
    rw [← hscaled, div_lt_iff₀ hunit, mul_comm, Nat.pow_eq]
    exact_mod_cast Iff.rfl
  have hone : (num : ℚ) / den / 2 ^ (guess - 1) = 2 * (num / den / 2 ^ guess) := by
    rw [zpow_sub_one₀ htwo]
    field_simp
  -- Of the two exponents the one with 53 bits is taken, if it is not too small.
  obtain ⟨e, he, hlt, hle⟩ : ∃ e, unitExponent num den = max minExponent e ∧
      (num : ℚ) / den / 2 ^ e < 2 ^ 53 ∧ (2 : ℚ) ^ 52 ≤ num / den / 2 ^ e := by
    by_cases hbits : (num : ℚ) / den / 2 ^ guess < 2 ^ 52
    · refine ⟨guess - 1, ?_, by rw [hone]; linarith, by rw [hone]; linarith⟩
      rw [unitExponent_eq, if_pos (hfew.mpr hbits)]
    · refine ⟨guess, ?_, hupper, not_lt.mp hbits⟩
      rw [unitExponent_eq, if_neg (mt hfew.mp hbits)]
  rw [he]
  refine ⟨le_max_left _ _, lt_of_le_of_lt ?_ hlt, fun h => ?_⟩
  · gcongr
    · norm_num
    · exact le_max_right _ _
  · rwa [max_eq_right (by omega)]

/-- What rounding a fraction can give: zero, infinity, the rounded significand, or the next power of
two if that has 54 bits. -/
theorem ofFraction_cases {P : Binary64 → Prop} (negative : Bool) (num den : ℕ)
    (zero : P (finite negative 0 minExponent)) (infinite : P (infinite negative))
    (rounded : ∀ n d, scaleDown num den (unitExponent num den) = (n, d) → num ≠ 0 →
      roundHalfEven n d ≠ Nat.pow 2 53 →
      P (finite negative (roundHalfEven n d) (unitExponent num den)))
    (carried : num ≠ 0 → P (finite negative (Nat.pow 2 52) (unitExponent num den + 1))) :
    P (ofFraction negative num den) := by
  rw [ofFraction]
  split_ifs with hnum
  · exact zero
  · have rounded n d (hs : _ = (n, d)) := rounded n d hs hnum
    have carried := carried hnum
    generalize unitExponent num den = e at rounded carried ⊢
    extract_lets e'
    generalize scaleDown num den e' = scaled at rounded ⊢
    obtain ⟨n, d⟩ := scaled
    have rounded := rounded n d rfl
    generalize Nat.pow 2 53 = limit at rounded ⊢
    by_cases hcarry : roundHalfEven n d = limit
    · simp only [hcarry, if_true]
      split_ifs
      · exact infinite
      · exact carried
    · simp only [hcarry, if_false]
      split_ifs
      · exact infinite
      · exact rounded hcarry

theorem canonical_ofFraction (negative : Bool) (num : ℕ) (hden : 0 < den) :
    (ofFraction negative num den).IsCanonical := by
  refine ofFraction_cases negative num den canonical_zero trivial ?_ ?_
  · intro n d hs hnum hlimit
    obtain ⟨hleast, hupper, hlower⟩ := unitExponent_spec (Nat.pos_of_ne_zero hnum) hden
    obtain ⟨hunit, hscaled⟩ := scaleDown_spec num hden (unitExponent num den)
    rw [hs] at hunit hscaled
    have hd : (0 : ℚ) < d := by exact_mod_cast hunit
    rw [← hscaled, div_lt_iff₀ hd] at hupper
    rw [← hscaled, le_div_iff₀ hd] at hlower
    obtain ⟨hle, hlt⟩ := roundHalfEven_bounds n d
    have hn : n / d < 2 ^ 53 := (Nat.div_lt_iff_lt_mul hunit).mpr (by exact_mod_cast hupper)
    have hfull : minExponent < unitExponent num den → 2 ^ 52 ≤ n / d := fun he =>
      (Nat.le_div_iff_mul_le hunit).mpr (by exact_mod_cast hlower he)
    rw [Nat.pow_eq] at hlimit
    exact ⟨by omega, hleast, fun he => (hfull he).trans hle⟩
  · intro hnum
    obtain ⟨hleast, -⟩ := unitExponent_spec (Nat.pos_of_ne_zero hnum) hden
    exact ⟨by decide, by omega, fun _ => by decide⟩

/-- Rounding a decimal gives a canonical double. -/
theorem canonical_ofDecimal (negative : Bool) (digits : ℕ) (exponent : ℤ) :
    (ofDecimal negative digits exponent).IsCanonical := by
  rw [ofDecimal]
  split_ifs
  · exact canonical_zero
  · trivial
  · exact canonical_ofFraction negative _ one_pos
  · exact canonical_ofFraction negative _ (Nat.pow_pos (by decide))

end Binary64

namespace Decimal

open Binary64

/-! ### What rounds to a double -/

/-- The number that a decimal stands for. -/
def value (d : Decimal) : ℚ := d.digits * 10 ^ d.exponent

/-- How far the numbers below a double reach that round to it, in units of its last bit. Below a
power of two the doubles are closer together. -/
def reach (m : ℕ) (e : ℤ) : ℚ := if m = 2 ^ 52 ∧ minExponent < e then 1 / 4 else 1 / 2

/-- A number rounds to the double `m * 2 ^ e`: it lies between the midpoints to its neighbours, and
is a midpoint only if the significand is even. -/
structure Rounds (m : ℕ) (e : ℤ) (q : ℚ) : Prop where
  /-- It is not below the lower midpoint. -/
  low : (m - reach m e) * 2 ^ e ≤ q
  /-- It is not above the upper midpoint. -/
  high : q ≤ (m + 1 / 2) * 2 ^ e
  /-- It is none of both, if the significand is odd. -/
  odd : m % 2 = 1 → (m - reach m e) * 2 ^ e ≠ q ∧ q ≠ (m + 1 / 2) * 2 ^ e

theorem reach_bounds (m : ℕ) (e : ℤ) : 0 < reach m e ∧ reach m e ≤ 1 / 2 := by
  unfold reach
  split_ifs <;> norm_num

/-- Of two doubles with one exponent no number rounds to both. -/
theorem Rounds.le_of_exponent {m n : ℕ} {e : ℤ} {q : ℚ} (hm : Rounds m e q) (hn : Rounds n e q) :
    n ≤ m := by
  by_contra hlt
  have hunit : (0 : ℚ) < 2 ^ e := by positivity
  have hle : (m : ℚ) + 1 ≤ n := by exact_mod_cast not_le.mp hlt
  obtain ⟨-, hreach⟩ := reach_bounds n e
  -- The lower midpoint of the one is not below the upper midpoint of the other, so both are `q`.
  have hends : (m + 1 / 2 : ℚ) * 2 ^ e ≤ (n - reach n e) * 2 ^ e := by
    gcongr
    linarith
  have hhigh : q = (m + 1 / 2) * 2 ^ e := le_antisymm hm.high (hends.trans hn.low)
  have hlow : (n - reach n e) * 2 ^ e = q := le_antisymm hn.low (hm.high.trans hends)
  have hsame : (m : ℚ) + 1 / 2 = n - reach n e :=
    mul_right_cancel₀ hunit.ne' (hhigh.symm.trans hlow.symm)
  have hnext : n = m + 1 := by
    have : (n : ℚ) ≤ m + 1 := by linarith
    exact_mod_cast le_antisymm this hle
  have heven_m : ¬ m % 2 = 1 := fun h => (hm.odd h).2 hhigh
  have heven_n : ¬ n % 2 = 1 := fun h => (hn.odd h).1 hlow
  omega

/-- Of two doubles with different exponents no number rounds to both. -/
theorem Rounds.exponent_le {m n : ℕ} {e f : ℤ} {q : ℚ} (hcm : Canonical m e) (hcn : Canonical n f)
    (hm : Rounds m e q) (hn : Rounds n f q) : f ≤ e := by
  by_contra hlt
  have hleast := hcm.least
  have hfull := hcn.full (by omega)
  have hunit : (0 : ℚ) < 2 ^ e := by positivity
  have hstep : (2 : ℚ) * 2 ^ e ≤ 2 ^ f := by
    rw [mul_comm, ← zpow_add_one₀ two_ne_zero]
    exact zpow_le_zpow_right₀ one_le_two (by omega)
  have hbits : (m : ℚ) + 1 ≤ 2 ^ 53 := by exact_mod_cast hcm.lt
  have hreach : (2 : ℚ) ^ 52 - 1 / 4 ≤ n - reach n f := by
    by_cases hpower : n = 2 ^ 52
    · rw [reach, if_pos ⟨hpower, by omega⟩, hpower]
      push_cast
      exact le_rfl
    · have hnext : (2 : ℚ) ^ 52 + 1 ≤ n := by exact_mod_cast lt_of_le_of_ne hfull (Ne.symm hpower)
      linarith [(reach_bounds n f).2]
  -- Only the greatest significand reaches up to the next exponent, and it is odd.
  have hends : ((2 : ℚ) ^ 53 - 1 / 2) * 2 ^ e ≤ (n - reach n f) * 2 ^ f :=
    calc ((2 : ℚ) ^ 53 - 1 / 2) * 2 ^ e = (2 ^ 52 - 1 / 4) * (2 * 2 ^ e) := by ring
      _ ≤ (n - reach n f) * 2 ^ f := by
        refine mul_le_mul hreach hstep (by positivity) (le_trans ?_ hreach)
        norm_num
  have hm_eq : (m : ℚ) + 1 / 2 = 2 ^ 53 - 1 / 2 := by
    have hle := le_of_mul_le_mul_right (hends.trans (hn.low.trans hm.high)) hunit
    linarith
  have hq : q = (m + 1 / 2) * 2 ^ e :=
    le_antisymm hm.high (by rw [hm_eq]; exact hends.trans hn.low)
  have hodd : m % 2 = 1 := by
    have : m + 1 = 2 ^ 53 := by exact_mod_cast (by linarith : (m : ℚ) + 1 = 2 ^ 53)
    omega
  exact (hm.odd hodd).2 hq

/-- No number rounds to two doubles. -/
theorem Rounds.unique {m n : ℕ} {e f : ℤ} {q : ℚ} (hcm : Canonical m e) (hcn : Canonical n f)
    (hm : Rounds m e q) (hn : Rounds n f q) : m = n ∧ e = f := by
  obtain rfl : e = f := le_antisymm (hn.exponent_le hcn hcm hm) (hm.exponent_le hcm hcn hn)
  exact ⟨le_antisymm (hn.le_of_exponent hm) (hm.le_of_exponent hn), rfl⟩

/-! ### Windows -/

namespace Window

variable {w : Window} {k : ℤ}

theorem scaled_spec (num : ℕ) {den : ℕ} (hden : 0 < den) (k : ℤ) :
    0 < (scaled num den k).2 ∧
      ((scaled num den k).1 : ℚ) / (scaled num den k).2 = num / den / 10 ^ k := by
  exact_mod_cast scaled_div (by decide : 0 < 10) num hden k

theorem scaled_snd (num other den : ℕ) (k : ℤ) :
    (scaled num den k).2 = (scaled other den k).2 := by
  unfold scaled
  split_ifs <;> rfl

theorem holds_iff (hden : 0 < w.den) (c : ℕ) (k : ℤ) :
    w.holds c k = true ↔
      if w.closed then (w.low : ℚ) / w.den ≤ c * 10 ^ k ∧ (c : ℚ) * 10 ^ k ≤ w.high / w.den
      else (w.low : ℚ) / w.den < c * 10 ^ k ∧ (c : ℚ) * 10 ^ k < w.high / w.den := by
  obtain ⟨hunit, hlow⟩ := scaled_spec w.low hden k
  obtain ⟨-, hhigh⟩ := scaled_spec w.high hden k
  rw [scaled_snd w.high w.low] at hhigh
  have hu : (0 : ℚ) < (scaled w.low w.den k).2 := by exact_mod_cast hunit
  have hten : (0 : ℚ) < 10 ^ k := by positivity
  rw [eq_div_iff hten.ne'] at hlow hhigh
  rw [← hlow, ← hhigh, holds]
  simp only [mul_le_mul_iff_left₀ hten, mul_lt_mul_iff_left₀ hten, div_le_iff₀ hu, le_div_iff₀ hu,
    div_lt_iff₀ hu, lt_div_iff₀ hu]
  norm_cast
  split_ifs <;> rw [decide_eq_true_iff]

/-- A multiple of a power of ten is found in the window, or the two next to the value are not in
it. -/
theorem nearest?_cases (w : Window) (k : ℤ) :
    let c := (scaled w.value w.den k).1 / (scaled w.value w.den k).2
    (∃ d, w.nearest? k = some ⟨d, k⟩ ∧ w.holds d k = true) ∨
      w.nearest? k = none ∧ w.holds c k = false ∧ w.holds (c + 1) k = false := by
  rw [nearest?]
  generalize scaled w.value w.den k = scaled
  obtain ⟨value, unit⟩ := scaled
  dsimp only
  cases hc : w.holds (value / unit) k with
  | true =>
    cases hnext : w.holds (value / unit + 1) k with
    | true =>
      refine .inl ⟨_, rfl, ?_⟩
      split_ifs
      · exact hc
      · exact hnext
    | false => exact .inl ⟨_, rfl, hc⟩
  | false =>
    cases hnext : w.holds (value / unit + 1) k with
    | true => exact .inl ⟨_, rfl, hnext⟩
    | false => exact .inr ⟨rfl, rfl, rfl⟩

/-- If none is found, the value lies between two that are not in the window. -/
theorem between_of_nearest? (hden : 0 < w.den) (h : w.nearest? k = none) :
    ∃ c : ℕ, (c : ℚ) * 10 ^ k ≤ w.value / w.den ∧ w.value / w.den < (c + 1) * (10 : ℚ) ^ k ∧
      w.holds c k = false ∧ w.holds (c + 1) k = false := by
  obtain ⟨hunit, hvalue⟩ := scaled_spec w.value hden k
  have hu : (0 : ℚ) < (scaled w.value w.den k).2 := by exact_mod_cast hunit
  have hten : (0 : ℚ) < 10 ^ k := by positivity
  rw [eq_div_iff hten.ne'] at hvalue
  refine ⟨(scaled w.value w.den k).1 / (scaled w.value w.den k).2, ?_, ?_, ?_⟩
  · rw [← hvalue, mul_le_mul_iff_left₀ hten, le_div_iff₀ hu]
    exact_mod_cast Nat.div_mul_le_self _ _
  · rw [← hvalue, mul_lt_mul_iff_left₀ hten, div_lt_iff₀ hu]
    exact_mod_cast Nat.lt_mul_of_div_lt (Nat.lt_succ_self _) hunit
  · rcases w.nearest?_cases k with ⟨d, hfound, -⟩ | ⟨-, hnot⟩
    · cases h.symm.trans hfound
    · exact hnot

theorem pow_digitCount_le {n : ℕ} (hn : 0 < n) : 10 ^ (digitCount n - 1) ≤ n := by
  rw [digitCount, if_neg hn.ne']
  have hpos : 0 < (Nat.toDigits 10 n).length := Nat.length_toDigits_pos
  rcases Nat.eq_zero_or_pos ((Nat.toDigits 10 n).length - 1) with hone | hmore
  · rw [hone]
    exact hn
  · by_contra hlt
    have := (Nat.length_toDigits_le_iff (by decide : 1 < 10) hmore).mpr (not_le.mp hlt)
    omega

theorem lt_pow_digitCount {n : ℕ} (hn : 0 < n) : n < 10 ^ digitCount n := by
  rw [digitCount, if_neg hn.ne']
  exact (Nat.length_toDigits_le_iff (by decide) Nat.length_toDigits_pos).mp le_rfl

/-- The magnitude of a window is not too great. -/
theorem pow_magnitude_le (hden : 0 < w.den) (hvalue : 0 < w.value) :
    (10 : ℚ) ^ (w.magnitude - 1) ≤ w.value / w.den := by
  have hd : (0 : ℚ) < w.den := by exact_mod_cast hden
  have hv : (0 : ℚ) < w.value := by exact_mod_cast hvalue
  rw [magnitude]
  split_ifs with hle
  · -- The whole part has that many digits.
    have hwhole : 0 < w.value / w.den := Nat.div_pos hle hden
    have hcount : 0 < digitCount (w.value / w.den) := by
      rw [digitCount, if_neg hwhole.ne']
      exact Nat.length_toDigits_pos
    rw [show (digitCount (w.value / w.den) : ℤ) - 1 = (digitCount (w.value / w.den) - 1 : ℕ) by omega,
      zpow_natCast]
    have hpow : (10 : ℚ) ^ (digitCount (w.value / w.den) - 1) ≤ (w.value / w.den : ℕ) := by
      exact_mod_cast pow_digitCount_le hwhole
    exact hpow.trans Nat.cast_div_le
  · -- The inverse, rounded up, is not greater than that power.
    set inverse := (w.den + w.value - 1) / w.value - 1 with hinverse
    have hpos : 0 < inverse := by
      have : 2 ≤ (w.den + w.value - 1) / w.value := by
        rw [Nat.le_div_iff_mul_le hvalue]
        omega
      omega
    have hceil : w.den ≤ 10 ^ digitCount inverse * w.value := by
      have hup := Nat.lt_mul_div_succ (w.den + w.value - 1) hvalue
      rw [Nat.mul_add, Nat.mul_one] at hup
      calc w.den ≤ w.value * ((w.den + w.value - 1) / w.value) := by omega
        _ ≤ w.value * 10 ^ digitCount inverse :=
          Nat.mul_le_mul_left _ (by have := lt_pow_digitCount hpos; omega)
        _ = 10 ^ digitCount inverse * w.value := Nat.mul_comm _ _
    rw [show 1 - (digitCount inverse : ℤ) - 1 = -(digitCount inverse : ℤ) by omega, zpow_neg,
      zpow_natCast, inv_le_iff_one_le_mul₀ (by positivity), div_mul_eq_mul_div, le_div_iff₀ hd,
      one_mul, mul_comm]
    exact_mod_cast hceil

end Window

/-- The window of a double, as rational numbers. -/
theorem window_spec {m : ℕ} (hm : 0 < m) (e : ℤ) :
    0 < (window m e).den ∧ ((window m e).value : ℚ) / (window m e).den = m * 2 ^ e ∧
      ((window m e).low : ℚ) / (window m e).den = (m - reach m e) * 2 ^ e ∧
      ((window m e).high : ℚ) / (window m e).den = (m + 1 / 2) * 2 ^ e := by
  set unit : ℕ := if 0 ≤ e - 2 then Nat.pow 2 (e - 2).toNat else 1 with hunit
  set den : ℕ := if 0 ≤ e - 2 then 1 else Nat.pow 2 (-(e - 2)).toNat with hden
  set below : ℕ := if m = Nat.pow 2 52 ∧ minExponent < e then 1 else 2 with hbelow
  have hscale : 0 < den ∧ (unit : ℚ) / den = 2 ^ e / 4 := by
    have hfour : (2 : ℚ) ^ e / 4 = 2 ^ (e - 2) := by
      rw [zpow_sub₀ two_ne_zero]
      norm_num
    rw [hfour, hunit, hden]
    split_ifs with he
    · obtain ⟨n, hn⟩ := Int.eq_ofNat_of_zero_le he
      simp [hn]
    · obtain ⟨n, hn⟩ := Int.eq_ofNat_of_zero_le (by omega : 0 ≤ -(e - 2))
      rw [hn, Int.toNat_natCast, Nat.pow_eq, ← neg_neg (e - 2), hn]
      simp
  have hreach : (below : ℚ) = 4 * reach m e := by
    rw [hbelow, reach, Nat.pow_eq]
    split_ifs <;> norm_num
  have hbelow_le : below ≤ 4 * m := by
    have : below ≤ 2 := by
      rw [hbelow]
      split_ifs <;> decide
    omega
  have hpart (n : ℕ) : ((n * unit : ℕ) : ℚ) / den = n / 4 * 2 ^ e := by
    push_cast
    rw [mul_div_assoc, hscale.2]
    ring
  have hvalue : (window m e).value = 4 * m * unit := rfl
  have hlow : (window m e).low = (4 * m - below) * unit := rfl
  have hhigh : (window m e).high = (4 * m + 2) * unit := rfl
  have hwindow : (window m e).den = den := rfl
  refine ⟨hscale.1, ?_, ?_, ?_⟩
  · rw [hvalue, hwindow, hpart]
    push_cast
    ring
  · rw [hlow, hwindow, hpart, Nat.cast_sub hbelow_le, hreach]
    push_cast
    ring
  · rw [hhigh, hwindow, hpart]
    push_cast
    ring

/-- The decimals in the window are those that round to the double. -/
theorem holds_window_iff {m : ℕ} (hm : 0 < m) (e : ℤ) (c : ℕ) (k : ℤ) :
    (window m e).holds c k = true ↔ Rounds m e (c * 10 ^ k) := by
  obtain ⟨hden, -, hlow, hhigh⟩ := window_spec hm e
  rw [Window.holds_iff hden, hlow, hhigh]
  have hclosed : (window m e).closed = true ↔ m % 2 = 0 := decide_eq_true_iff
  split_ifs with h
  · rw [hclosed] at h
    exact ⟨fun hq => ⟨hq.1, hq.2, fun hodd => by omega⟩, fun hq => ⟨hq.low, hq.high⟩⟩
  · rw [hclosed] at h
    have hodd : m % 2 = 1 := by omega
    refine ⟨fun hq => ⟨hq.1.le, hq.2.le, fun _ => ⟨hq.1.ne, hq.2.ne⟩⟩, fun hq => ?_⟩
    exact ⟨lt_of_le_of_ne hq.low (hq.odd hodd).1, lt_of_le_of_ne hq.high (hq.odd hodd).2⟩

/-! ### The shortest decimal -/

/-- Multiples of a power of ten that have seventeen digits are closer to one another than the ends
of the window. -/
theorem unit_lt_window {m : ℕ} {e : ℤ} (h : Canonical m e) (hm : 0 < m) :
    (10 : ℚ) ^ ((window m e).magnitude - 17) < (1 / 2 + reach m e) * 2 ^ e := by
  obtain ⟨hden, hvalue, -⟩ := window_spec hm e
  have hunit : (0 : ℚ) < 2 ^ e := by positivity
  have hpos : 0 < (window m e).value := by
    by_contra hzero
    have hm : (0 : ℚ) < m := by exact_mod_cast hm
    rw [Nat.eq_zero_of_not_pos hzero, Nat.cast_zero, zero_div] at hvalue
    exact (mul_pos hm hunit).ne hvalue
  have hmagnitude := Window.pow_magnitude_le hden hpos
  rw [hvalue] at hmagnitude
  have hsplit : (10 : ℚ) ^ ((window m e).magnitude - 1) =
      10 ^ ((window m e).magnitude - 17) * 10 ^ 16 := by
    rw [← zpow_natCast, ← zpow_add₀ (by norm_num)]
    congr 1
    push_cast
    ring
  have hwidth : (m : ℚ) < (1 / 2 + reach m e) * 10 ^ 16 := by
    have hlt : (m : ℚ) < 2 ^ 53 := by exact_mod_cast h.lt
    rw [reach]
    split_ifs with hpower
    · rw [hpower.1]
      norm_num
    · norm_num at hlt ⊢
      linarith
  rw [hsplit] at hmagnitude
  have hlt : (10 : ℚ) ^ ((window m e).magnitude - 17) * 10 ^ 16 <
      (1 / 2 + reach m e) * 2 ^ e * 10 ^ 16 :=
    calc (10 : ℚ) ^ ((window m e).magnitude - 17) * 10 ^ 16 ≤ m * 2 ^ e := hmagnitude
      _ < (1 / 2 + reach m e) * 10 ^ 16 * 2 ^ e := by gcongr
      _ = (1 / 2 + reach m e) * 2 ^ e * 10 ^ 16 := by ring
  exact lt_of_mul_lt_mul_right hlt (by positivity)

theorem rounds_of_lt {m : ℕ} {e : ℤ} {q : ℚ} (hlow : (m - reach m e) * 2 ^ e < q)
    (hhigh : q < (m + 1 / 2) * 2 ^ e) : Rounds m e q :=
  ⟨hlow.le, hhigh.le, fun _ => ⟨hlow.ne, hhigh.ne⟩⟩

/-- With seventeen digits a decimal is found. -/
theorem nearest?_seventeen {m : ℕ} {e : ℤ} (h : Canonical m e) (hm : 0 < m) :
    (window m e).nearest? ((window m e).magnitude - 17) ≠ none := by
  intro hnone
  obtain ⟨hden, hvalue, -⟩ := window_spec hm e
  obtain ⟨c, hle, hlt, hc, hnext⟩ := Window.between_of_nearest? hden hnone
  have hunit := unit_lt_window h hm
  generalize (window m e).magnitude - 17 = k at *
  rw [hvalue] at hle hlt
  have htwo : (0 : ℚ) < 2 ^ e := by positivity
  obtain ⟨hreach, -⟩ := reach_bounds m e
  have hnotc : ¬ Rounds m e (c * 10 ^ k) := by
    rw [← holds_window_iff hm, hc]
    exact Bool.false_ne_true
  have hnotnext : ¬ Rounds m e ((c + 1) * 10 ^ k) := by
    have hcast : (c : ℚ) + 1 = (c + 1 : ℕ) := by push_cast; rfl
    rw [hcast, ← holds_window_iff hm, hnext]
    exact Bool.false_ne_true
  have hbelow : (c : ℚ) * 10 ^ k ≤ (m - reach m e) * 2 ^ e := by
    by_contra hgt
    exact hnotc (rounds_of_lt (not_le.mp hgt) (by linarith))
  have habove : (m + 1 / 2 : ℚ) * 2 ^ e ≤ (c + 1) * 10 ^ k := by
    by_contra hgt
    have hless := mul_pos hreach htwo
    exact hnotnext (rounds_of_lt (by linarith) (not_le.mp hgt))
  linarith

/-- The shortest decimal of a double rounds to it. -/
theorem rounds_shortest {m : ℕ} {e : ℤ} (h : Canonical m e) (hm : 0 < m) :
    Rounds m e (shortest m e).value := by
  rw [shortest]
  cases hfind : (List.range' 1 17).findSome? fun (n : ℕ) =>
      (window m e).nearest? ((window m e).magnitude - n) with
  | none =>
    have hnone := List.findSome?_eq_none_iff.mp hfind 17 (by decide)
    exact absurd hnone (nearest?_seventeen h hm)
  | some d =>
    obtain ⟨n, -, hn⟩ := List.exists_of_findSome?_eq_some hfind
    rcases (window m e).nearest?_cases ((window m e).magnitude - n) with ⟨c, hc, hholds⟩ | ⟨hnone, -⟩
    · obtain rfl := Option.some.inj (hn.symm.trans hc)
      exact (holds_window_iff hm _ _ _).mp hholds
    · cases hn.symm.trans hnone

theorem value_shortest_pos {m : ℕ} {e : ℤ} (h : Canonical m e) (hm : 0 < m) :
    0 < (shortest m e).value := by
  have hone : (1 : ℚ) ≤ m := by exact_mod_cast hm
  have hreach := (reach_bounds m e).2
  refine lt_of_lt_of_le (mul_pos ?_ ?_) (rounds_shortest h hm).low
  · linarith
  · positivity

/-- Different doubles have different shortest decimals. -/
theorem value_shortest_inj {m n : ℕ} {e f : ℤ} (hm : Canonical m e) (hn : Canonical n f)
    (hmpos : 0 < m) (hnpos : 0 < n) (h : (shortest m e).value = (shortest n f).value) :
    m = n ∧ e = f :=
  Rounds.unique hm hn (rounds_shortest hm hmpos) (h ▸ rounds_shortest hn hnpos)

end Decimal

end GraphQLCheck
