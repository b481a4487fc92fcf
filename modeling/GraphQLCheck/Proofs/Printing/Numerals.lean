import GraphQLCheck.Literal.Printer
import GraphQLCheck.Proofs.Printing.Doubles
import Mathlib.Data.List.TakeWhile
import Mathlib.Tactic.IntervalCases

/-!
# Numerals

The texts of numbers. A whole number is written with digits of which the first is no zero, unless it
is the only one (`Plain`). A decimal is written positionally, with zeros where digits are missing
and without those at the end of its fraction. So in both cases there is a whole part without
superfluous zeros and a fraction without superfluous zeros (`Shows`), and a number can be shown in
one such way only.

A double is written as its shortest decimal. No two doubles are written in the same way, but a
double is written like a whole number if its shortest decimal is that number.

## What is proved

* `exists_shows` — the text of a decimal stands for its value.
* `Shows.eq_of_text`, `Shows.text_eq` — a text stands for one number, a whole number has one text.
* `render_inj` — different doubles have different texts.
* `intChars_eq_render_iff` — which doubles are written like a whole number.
-/

namespace GraphQLCheck

namespace Numeral

/-- The number of digits. -/
def ofDigits (ds : List Char) : ℕ := Nat.ofDigitChars 10 ds 0

theorem ofDigits_append (ds es : List Char) :
    ofDigits (ds ++ es) = 10 ^ es.length * ofDigits ds + ofDigits es := by
  rw [ofDigits, Nat.ofDigitChars_append, Nat.ofDigitChars_eq_ofDigitChars_zero]
  rfl

theorem ofDigits_zeros (n : ℕ) : ofDigits (List.replicate n '0') = 0 := by
  induction n with
  | zero => rfl
  | succ n ih => exact (Nat.ofDigitChars_cons).trans ih

theorem ofDigits_toDigits (n : ℕ) : ofDigits (Nat.toDigits 10 n) = n :=
  Nat.ofDigitChars_ten_toDigits

/-- Digits of which the first is no zero, unless it is the only one. -/
structure Plain (ds : List Char) : Prop where
  /-- There are digits only. -/
  digits : ∀ c ∈ ds, c.isDigit = true
  /-- There is a first one. -/
  ne_nil : ds ≠ []
  /-- It is no zero that could be left out. -/
  head : ∀ rest, ds = '0' :: rest → rest = []

/-- A digit is the text of its number. -/
theorem toDigits_of_isDigit {c : Char} (hc : c.isDigit = true) :
    c.toNat - '0'.toNat < 10 ∧ Nat.toDigits 10 (c.toNat - '0'.toNat) = [c] := by
  obtain ⟨hlow, hhigh⟩ : 48 ≤ c.toNat ∧ c.toNat ≤ 57 := by
    simpa [Char.isDigit, UInt32.le_iff_toNat_le] using hc
  have hdigit : c.toNat - '0'.toNat < 10 := by
    have : '0'.toNat = 48 := rfl
    omega
  refine ⟨hdigit, ?_⟩
  rw [Nat.toDigits_of_lt_base hdigit]
  have hchar := Char.ofNat_toNat c
  generalize c.toNat = n at hlow hhigh hchar ⊢
  subst hchar
  interval_cases n <;> rfl

theorem ofDigits_cons (c : Char) (ds : List Char) :
    ofDigits (c :: ds) = 10 ^ ds.length * (c.toNat - '0'.toNat) + ofDigits ds := by
  rw [ofDigits, Nat.ofDigitChars_cons, Nat.ofDigitChars_eq_ofDigitChars_zero, Nat.mul_zero,
    Nat.zero_add]
  rfl

theorem ofDigits_pos {c : Char} (hc : c.isDigit = true) (hzero : c ≠ '0') (ds : List Char) :
    0 < ofDigits (c :: ds) := by
  obtain ⟨-, htext⟩ := toDigits_of_isDigit hc
  have hpos : 0 < c.toNat - '0'.toNat := by
    by_contra h
    rw [Nat.eq_zero_of_not_pos h] at htext
    exact hzero (List.singleton_inj.mp htext).symm
  rw [ofDigits_cons]
  positivity

/-- Digits without superfluous zeros are the text of their number. -/
theorem Plain.toDigits_ofDigits {ds : List Char} (h : Plain ds) :
    Nat.toDigits 10 (ofDigits ds) = ds := by
  induction ds using List.reverseRecOn with
  | nil => exact absurd rfl h.ne_nil
  | append_singleton ds c ih =>
    obtain ⟨hlt, htext⟩ := toDigits_of_isDigit (h.digits c (by simp))
    have hlast : ofDigits [c] = c.toNat - '0'.toNat := by
      rw [ofDigits_cons, List.length_nil, Nat.pow_zero, Nat.one_mul]
      rfl
    cases ds with
    | nil => rw [List.nil_append, hlast, htext]
    | cons first rest =>
      -- The first of several digits is no zero.
      have hfirst : first ≠ '0' := by
        rintro rfl
        simpa using h.head (rest ++ [c]) rfl
      have hdigits : ∀ d ∈ first :: rest, d.isDigit = true := fun d hd =>
        h.digits d (List.mem_append_left _ hd)
      have hplain : Plain (first :: rest) :=
        ⟨hdigits, List.cons_ne_nil _ _, fun _ heq => absurd (List.cons.inj heq).1 hfirst⟩
      have hpos := ofDigits_pos (hdigits first List.mem_cons_self) hfirst rest
      rw [ofDigits_append, hlast, List.length_singleton, Nat.pow_one,
        ← Nat.toDigits_append_toDigits (by decide) hpos hlt, ih hplain, htext]

theorem plain_toDigits (n : ℕ) : Plain (Nat.toDigits 10 n) where
  digits c hc := Nat.isDigit_of_mem_toDigits (by decide) le_rfl hc
  ne_nil := Nat.toDigits_ne_nil
  head := by
    induction n using Nat.strong_induction_on with
    | _ n ih =>
      intro rest heq
      rcases lt_or_ge n 10 with hlt | hge
      · rw [Nat.toDigits_of_lt_base hlt] at heq
        exact (List.cons.inj heq).2.symm
      · rw [Nat.toDigits_of_base_le (by decide) hge] at heq
        obtain ⟨front, hfront, -⟩ : ∃ front, Nat.toDigits 10 (n / 10) = '0' :: front ∧
            front ++ [(n % 10).digitChar] = rest := by
          cases hdigits : Nat.toDigits 10 (n / 10) with
          | nil => exact absurd hdigits Nat.toDigits_ne_nil
          | cons first front =>
            rw [hdigits] at heq
            obtain ⟨rfl, hrest⟩ := List.cons.inj heq
            exact ⟨front, rfl, hrest⟩
        obtain rfl := ih (n / 10) (by omega) front hfront
        -- Then the number without its last digit is zero.
        have hzero := ofDigits_toDigits (n / 10)
        rw [hfront] at hzero
        have : ofDigits ['0'] = 0 := rfl
        omega

theorem exists_toDigits_eq_cons {n : ℕ} (hn : 0 < n) :
    ∃ first rest, Nat.toDigits 10 n = first :: rest ∧ first ≠ '0' := by
  obtain ⟨first, rest, heq⟩ := List.exists_cons_of_ne_nil (plain_toDigits n).ne_nil
  refine ⟨first, rest, heq, ?_⟩
  rintro rfl
  obtain rfl := (plain_toDigits n).head rest heq
  have hzero := ofDigits_toDigits n
  rw [heq] at hzero
  exact hn.ne hzero

/-- A text with a first part of one kind of characters, followed by none or by a character of
another kind, is divided in one way only. -/
theorem append_inj_of_stop {p : Char → Bool} {xs ys rest rest' : List Char}
    (hxs : ∀ c ∈ xs, p c = true) (hys : ∀ c ∈ ys, p c = true)
    (hrest : ∀ c ∈ rest.head?, p c = false) (hrest' : ∀ c ∈ rest'.head?, p c = false)
    (h : xs ++ rest = ys ++ rest') :
    xs = ys ∧ rest = rest' := by
  have htake {zs tail : List Char} (hzs : ∀ c ∈ zs, p c = true)
      (htail : ∀ c ∈ tail.head?, p c = false) : (zs ++ tail).takeWhile p = zs := by
    rw [List.takeWhile_append_of_pos hzs]
    cases tail with
    | nil => exact List.append_nil zs
    | cons c tail =>
      rw [List.takeWhile_cons_of_neg (by rw [htail c rfl]; exact Bool.false_ne_true)]
      exact List.append_nil zs
  have heq : xs = ys := by rw [← htake hxs hrest, h, htake hys hrest']
  subst heq
  exact ⟨rfl, List.append_cancel_left h⟩

/-! ### Decimals -/

/-- The text of a whole part and a fraction. -/
def text (whole fraction : List Char) : List Char :=
  if fraction = [] then whole else whole ++ '.' :: fraction

theorem text_eq_append (whole fraction : List Char) :
    text whole fraction = whole ++ if fraction = [] then [] else '.' :: fraction := by
  rw [text]
  split_ifs
  · exact (List.append_nil whole).symm
  · rfl

theorem mem_text {c : Char} {whole fraction : List Char} (h : c ∈ text whole fraction) :
    c ∈ whole ∨ c = '.' ∨ c ∈ fraction := by
  rw [text] at h
  split_ifs at h
  · exact .inl h
  · simpa using h

/-- A whole part without superfluous zeros in front and a fraction without superfluous zeros at its
end, for a number. -/
structure Shows (q : ℚ) (whole fraction : List Char) : Prop where
  /-- The whole part has no superfluous zeros. -/
  plain : Plain whole
  /-- The fraction has digits only. -/
  digits : ∀ c ∈ fraction, c.isDigit = true
  /-- The last of them is no zero. -/
  last : fraction.getLast? ≠ some '0'
  /-- Both together are the number. -/
  value : q = ofDigits whole + ofDigits fraction / 10 ^ fraction.length

/-- A decimal with an exponent that is not negative is written with zeros at its end. -/
theorem shows_of_nonneg {n : ℕ} (hn : 0 < n) (k : ℕ) :
    Shows (n * 10 ^ k) (Nat.toDigits 10 n ++ List.replicate k '0') [] where
  plain := by
    obtain ⟨first, rest, heq, hfirst⟩ := exists_toDigits_eq_cons hn
    refine ⟨fun c hc => ?_, by simp [heq], fun other hother => ?_⟩
    · rcases List.mem_append.mp hc with hc | hc
      · exact (plain_toDigits n).digits c hc
      · rw [List.eq_of_mem_replicate hc]
        rfl
    · rw [heq, List.cons_append] at hother
      exact absurd (List.cons.inj hother).1 hfirst
  digits c hc := absurd hc List.not_mem_nil
  last := by simp
  value := by
    rw [ofDigits_append, ofDigits_toDigits, ofDigits_zeros, List.length_replicate]
    have : ofDigits [] = 0 := rfl
    rw [this]
    push_cast
    ring

/-- Digits and the zeros at their end. -/
theorem exists_trim (ds : List Char) :
    ∃ zeros, ds = (ds.reverse.dropWhile (· = '0')).reverse ++ List.replicate zeros '0' := by
  have hzeros : ds.reverse.takeWhile (· = '0') =
      List.replicate (ds.reverse.takeWhile (· = '0')).length '0' :=
    List.eq_replicate_of_mem fun c hc => by simpa using List.mem_takeWhile_imp hc
  refine ⟨(ds.reverse.takeWhile (· = '0')).length, ?_⟩
  rw [← List.reverse_replicate, ← hzeros, ← List.reverse_append,
    List.takeWhile_append_dropWhile, List.reverse_reverse]

/-- A decimal with a negative exponent is cut before its last digits, with zeros in front if there
are not enough. -/
theorem shows_of_neg {n : ℕ} (hn : 0 < n) (places : ℕ) :
    let digits := Nat.toDigits 10 n
    let padded := List.replicate (places + 1 - digits.length) '0' ++ digits
    Shows (n / 10 ^ places) (padded.take (padded.length - places))
      ((padded.drop (padded.length - places)).reverse.dropWhile (· = '0')).reverse := by
  intro digits padded
  have hlength : padded.length = places + 1 - digits.length + digits.length := by
    rw [List.length_append, List.length_replicate]
  set cut := padded.length - places with hcut
  obtain ⟨zeros, htrim⟩ := exists_trim (padded.drop cut)
  set fraction := ((padded.drop cut).reverse.dropWhile (· = '0')).reverse with hfraction
  have hdigits : ∀ c ∈ padded, c.isDigit = true := by
    intro c hc
    rcases List.mem_append.mp hc with hc | hc
    · rw [List.eq_of_mem_replicate hc]
      rfl
    · exact (plain_toDigits n).digits c hc
  have hplaces : places = fraction.length + zeros := by
    have hdrop : (padded.drop cut).length = places := by
      rw [List.length_drop]
      omega
    rw [← hdrop, htrim, List.length_append, List.length_replicate]
  refine ⟨?plain, fun c hc => ?digits, ?last, ?value⟩
  case plain =>
    refine ⟨fun c hc => hdigits c (List.mem_of_mem_take hc), ?_, fun rest heq => ?_⟩
    · refine List.ne_nil_of_length_pos ?_
      rw [List.length_take]
      omega
    · -- A zero is put in front only if there is nothing else before the point.
      by_cases hmore : places < digits.length
      · obtain ⟨first, last, hcons, hfirst⟩ := exists_toDigits_eq_cons hn
        have hpadded : padded = first :: last := by
          rw [← hcons]
          simp only [padded, Nat.sub_eq_zero_of_le hmore, List.replicate_zero, List.nil_append]
          rfl
        rw [hpadded, List.take_cons (by omega)] at heq
        exact absurd (List.cons.inj heq).1 hfirst
      · have hone : cut = 1 := by omega
        have hshort := congrArg List.length heq
        rw [hone, List.length_take, List.length_cons] at hshort
        exact List.eq_nil_of_length_eq_zero (by omega)
  case digits =>
    refine hdigits c (List.drop_subset cut padded ?_)
    rw [htrim]
    exact List.mem_append_left _ hc
  case last =>
    rw [hfraction, List.getLast?_reverse]
    intro hzero
    have := List.head?_dropWhile_not (· = '0') (padded.drop cut).reverse
    rw [hzero] at this
    simp at this
  case value =>
    have hvalue : n = 10 ^ places * ofDigits (padded.take cut) + 10 ^ zeros * ofDigits fraction :=
      calc n = ofDigits padded := by
            rw [ofDigits_append, ofDigits_zeros, ofDigits_toDigits, Nat.mul_zero, Nat.zero_add]
        _ = ofDigits (padded.take cut ++ padded.drop cut) := by rw [List.take_append_drop]
        _ = _ := by
            rw [htrim, ofDigits_append, ofDigits_append, List.length_append, List.length_replicate,
              ofDigits_zeros, ← hplaces, Nat.add_zero]
    have hten : (10 : ℚ) ≠ 0 := by norm_num
    rw [hvalue, hplaces, pow_add]
    push_cast
    field_simp
    ring

/-- The text of a positive decimal. -/
theorem exists_shows {d : Decimal} (hd : 0 < d.digits) :
    ∃ whole fraction, Shows d.value whole fraction ∧ d.render.toList = text whole fraction := by
  obtain ⟨n, e⟩ := d
  rw [Decimal.value, Decimal.render]
  by_cases he : 0 ≤ e
  · obtain ⟨k, rfl⟩ := Int.eq_ofNat_of_zero_le he
    rw [zpow_natCast]
    refine ⟨_, [], shows_of_nonneg hd k, ?_⟩
    rw [if_pos he, String.toList_ofList, text, if_pos rfl, Int.toNat_natCast]
  · obtain ⟨places, hplaces⟩ := Int.eq_ofNat_of_zero_le (by omega : 0 ≤ -e)
    obtain rfl : e = -(places : ℤ) := by omega
    rw [zpow_neg, zpow_natCast, ← div_eq_mul_inv]
    refine ⟨_, _, shows_of_neg hd places, ?_⟩
    rw [if_neg he, text, neg_neg, Int.toNat_natCast]
    simp only [List.isEmpty_iff]
    split_ifs <;> rw [String.toList_ofList]

/-- The text of digits with a fraction has one whole part and one fraction. -/
theorem text_inj {whole whole' fraction fraction' : List Char}
    (hwhole : ∀ c ∈ whole, c.isDigit = true) (hwhole' : ∀ c ∈ whole', c.isDigit = true)
    (h : text whole fraction = text whole' fraction') : whole = whole' ∧ fraction = fraction' := by
  have hstop (fraction : List Char) :
      ∀ c ∈ (if fraction = [] then [] else '.' :: fraction).head?, c.isDigit = false := by
    intro c hc
    split_ifs at hc
    · cases hc
    · cases hc
      rfl
  rw [text_eq_append, text_eq_append] at h
  obtain ⟨rfl, hrest⟩ := append_inj_of_stop hwhole hwhole' (hstop _) (hstop _) h
  refine ⟨rfl, ?_⟩
  split_ifs at hrest with hnil hnil' hnil'
  · rw [hnil, hnil']
  · exact (List.cons.inj hrest).2

/-- Numbers with the same text are the same. -/
theorem Shows.eq_of_text {q q' : ℚ} {whole whole' fraction fraction' : List Char}
    (h : Shows q whole fraction) (h' : Shows q' whole' fraction')
    (htext : text whole fraction = text whole' fraction') : q = q' := by
  obtain ⟨rfl, rfl⟩ := text_inj h.plain.digits h'.plain.digits htext
  rw [h.value, h'.value]

theorem ofDigits_lt {ds : List Char} (h : ∀ c ∈ ds, c.isDigit = true) :
    ofDigits ds < 10 ^ ds.length := by
  induction ds with
  | nil => exact Nat.one_pos
  | cons c ds ih =>
    obtain ⟨hc, hds⟩ := List.forall_mem_cons.mp h
    obtain ⟨hdigit, -⟩ := toDigits_of_isDigit hc
    calc ofDigits (c :: ds) = 10 ^ ds.length * (c.toNat - '0'.toNat) + ofDigits ds :=
          ofDigits_cons c ds
      _ < 10 ^ ds.length * (c.toNat - '0'.toNat) + 10 ^ ds.length := by have := ih hds; omega
      _ = 10 ^ ds.length * (c.toNat - '0'.toNat + 1) := by rw [Nat.mul_add, Nat.mul_one]
      _ ≤ 10 ^ ds.length * 10 := Nat.mul_le_mul_left _ hdigit
      _ = 10 ^ (c :: ds).length := by rw [List.length_cons, pow_succ]

/-- The fraction of a whole number is empty, as it does not end with a zero. -/
theorem Shows.fraction_eq_nil {n : ℕ} {whole fraction : List Char}
    (h : Shows n whole fraction) : fraction = [] := by
  by_contra hne
  obtain ⟨front, last, rfl⟩ := (List.eq_nil_or_concat' fraction).resolve_left hne
  have hlast : last ≠ '0' := by
    rintro rfl
    exact h.last List.getLast?_concat
  have hpos : 0 < ofDigits (front ++ [last]) := by
    rw [ofDigits_append]
    exact Nat.add_pos_right _ (ofDigits_pos (h.digits last (by simp)) hlast [])
  have hlt := ofDigits_lt h.digits
  have hvalue : n * 10 ^ (front ++ [last]).length =
      ofDigits whole * 10 ^ (front ++ [last]).length + ofDigits (front ++ [last]) := by
    have hq := h.value
    have hten : (10 : ℚ) ^ (front ++ [last]).length ≠ 0 := by positivity
    field_simp at hq
    exact_mod_cast hq
  generalize 10 ^ (front ++ [last]).length = unit at hlt hvalue
  generalize ofDigits (front ++ [last]) = rest at hpos hlt hvalue
  rcases Nat.lt_or_ge (ofDigits whole) n with hmore | hless
  · have := Nat.mul_le_mul_right unit hmore
    rw [Nat.succ_mul] at this
    omega
  · have := Nat.mul_le_mul_right unit hless
    omega

/-- Every whole number is written with its digits. -/
theorem shows_toDigits (n : ℕ) : Shows n (Nat.toDigits 10 n) [] where
  plain := plain_toDigits n
  digits c hc := absurd hc List.not_mem_nil
  last := by simp
  value := by
    rw [ofDigits_toDigits]
    have : ofDigits [] = 0 := rfl
    rw [this]
    simp

/-- A whole number is written in one way only. -/
theorem Shows.text_eq {n : ℕ} {whole fraction : List Char} (h : Shows n whole fraction) :
    text whole fraction = Nat.toDigits 10 n := by
  obtain rfl := h.fraction_eq_nil
  have hvalue : n = ofDigits whole := by
    have hq := h.value
    have : ofDigits [] = 0 := rfl
    rw [this] at hq
    simpa using hq
  rw [text, if_pos rfl, hvalue, h.plain.toDigits_ofDigits]

end Numeral

/-! ### Signed numbers -/

open Numeral Binary64

/-- A text with a sign in front if it is that of a negative number. -/
def Numeral.signed (negative : Bool) (body : List Char) : List Char :=
  if negative then '-' :: body else body

theorem Numeral.mem_signed {c : Char} {negative : Bool} {body : List Char}
    (h : c ∈ signed negative body) : c = '-' ∨ c ∈ body := by
  cases negative with
  | false => exact .inr h
  | true => exact List.mem_cons.mp h

/-- A text after a sign does not start with another one. -/
def Numeral.Unsigned (body : List Char) : Prop := ∀ rest, body ≠ '-' :: rest

theorem Numeral.signed_inj {negative negative' : Bool} {body body' : List Char}
    (hbody : Unsigned body) (hbody' : Unsigned body') :
    signed negative body = signed negative' body' ↔ negative = negative' ∧ body = body' := by
  cases negative <;> cases negative' <;> simp [signed, hbody _, (hbody' _).symm]

theorem Numeral.Plain.unsigned {ds : List Char} (h : Plain ds) (rest : List Char) :
    Unsigned (ds ++ rest) := by
  obtain ⟨c, ds, rfl⟩ := List.exists_cons_of_ne_nil h.ne_nil
  intro other heq
  obtain ⟨rfl, -⟩ := List.cons.inj heq
  cases h.digits _ List.mem_cons_self

theorem Numeral.Shows.unsigned {q : ℚ} {whole fraction : List Char} (h : Shows q whole fraction) :
    Unsigned (text whole fraction) := by
  rw [text_eq_append]
  exact h.plain.unsigned _

theorem intChars_eq_signed (n : ℤ) :
    intChars n = signed (n < 0) (text (Nat.toDigits 10 n.natAbs) []) := by
  by_cases hn : n < 0 <;> simp [intChars, signed, text, hn]

/-- Different whole numbers have different texts. -/
theorem intChars_inj {m n : ℤ} (h : intChars m = intChars n) : m = n := by
  have hm := shows_toDigits m.natAbs
  have hn := shows_toDigits n.natAbs
  rw [intChars_eq_signed, intChars_eq_signed, signed_inj hm.unsigned hn.unsigned] at h
  have habs : m.natAbs = n.natAbs := by exact_mod_cast hm.eq_of_text hn h.2
  have hsign := decide_eq_decide.mp h.1
  omega

namespace Binary64

/-- The absolute value of a finite double, as its shortest decimal shows it. -/
def magnitude (m : ℕ) (e : ℤ) : ℚ := if m = 0 then 0 else (Decimal.shortest m e).value

/-- The number that is shown in place of a double: its shortest decimal. A negative zero and the
infinities are shown as no number. -/
def shown? : Binary64 → Option ℚ
  | infinite _ => none
  | finite false m e => some (magnitude m e)
  | finite true m e => if m = 0 then none else some (-magnitude m e)

variable {m : ℕ} {e : ℤ}

theorem magnitude_pos_iff (h : Canonical m e) : 0 < magnitude m e ↔ m ≠ 0 := by
  rw [magnitude]
  split_ifs with hm
  · simp [hm]
  · exact iff_of_true (Decimal.value_shortest_pos h (Nat.pos_of_ne_zero hm)) hm

theorem magnitude_nonneg (h : Canonical m e) : 0 ≤ magnitude m e := by
  by_cases hm : m = 0
  · rw [magnitude, if_pos hm]
  · exact ((magnitude_pos_iff h).mpr hm).le

/-- Different finite doubles have different magnitudes. -/
theorem magnitude_inj {n : ℕ} {f : ℤ} (hm : Canonical m e) (hn : Canonical n f)
    (h : magnitude m e = magnitude n f) : m = n ∧ e = f := by
  have hzero : m ≠ 0 ↔ n ≠ 0 := by
    rw [← magnitude_pos_iff hm, h, magnitude_pos_iff hn]
  by_cases hm0 : m = 0
  · -- The exponent of zero is the least one.
    have hn0 : n = 0 := not_not.mp (mt hzero.mpr (not_not.mpr hm0))
    have hleast {m : ℕ} {e : ℤ} (h : Canonical m e) (hm : m = 0) : e = minExponent := by
      by_contra hne
      have := h.full (lt_of_le_of_ne h.least (Ne.symm hne))
      rw [hm] at this
      exact absurd this (by decide)
    exact ⟨hm0.trans hn0.symm, (hleast hm hm0).trans (hleast hn hn0).symm⟩
  · have hn0 := hzero.mp hm0
    rw [magnitude, magnitude, if_neg hm0, if_neg hn0] at h
    exact Decimal.value_shortest_inj hm hn (Nat.pos_of_ne_zero hm0) (Nat.pos_of_ne_zero hn0) h

/-- The text of a finite double. -/
theorem exists_render_finite (h : Canonical m e) :
    ∃ whole fraction, Shows (magnitude m e) whole fraction ∧
      ∀ negative, (finite negative m e).render.toList = signed negative (text whole fraction) := by
  have hsign (digits : String) (negative : Bool) :
      (if negative then "-" ++ digits else digits).toList = signed negative digits.toList := by
    cases negative with
    | false => rfl
    | true => exact String.toList_append
  by_cases hm : m = 0
  · refine ⟨['0'], [], ?_, fun negative => ?_⟩
    · have hzero := shows_toDigits 0
      rw [magnitude, if_pos hm]
      exact_mod_cast hzero
    · rw [render, if_pos hm, hsign]
      rfl
  · have hpos := Decimal.value_shortest_pos h (Nat.pos_of_ne_zero hm)
    have hdigits : 0 < (Decimal.shortest m e).digits := by
      by_contra hzero
      rw [Decimal.value, Nat.eq_zero_of_not_pos hzero, Nat.cast_zero, zero_mul] at hpos
      exact lt_irrefl _ hpos
    obtain ⟨whole, fraction, hshows, htext⟩ := exists_shows hdigits
    refine ⟨whole, fraction, ?_, fun negative => ?_⟩
    · rwa [magnitude, if_neg hm]
    · rw [render, if_neg hm, hsign, htext]

theorem render_infinite (negative : Bool) :
    (infinite negative).render.toList = signed negative ['i', 'n', 'f'] := by
  cases negative <;> rfl

theorem unsigned_inf : Unsigned ['i', 'n', 'f'] := fun _ h => by cases h

/-- Digits are not the text of an infinity. -/
theorem text_ne_inf {q : ℚ} {whole fraction : List Char} (h : Shows q whole fraction) :
    text whole fraction ≠ ['i', 'n', 'f'] := by
  obtain ⟨c, ds, rfl⟩ := List.exists_cons_of_ne_nil h.plain.ne_nil
  intro heq
  rw [text_eq_append] at heq
  obtain ⟨rfl, -⟩ := List.cons.inj heq
  cases h.plain.digits _ List.mem_cons_self

/-- Different doubles have different texts. -/
theorem render_inj {x y : Binary64} (hx : x.IsCanonical) (hy : y.IsCanonical)
    (h : x.render.toList = y.render.toList) : x = y := by
  cases x with
  | infinite negative =>
    cases y with
    | infinite negative' =>
      rw [render_infinite, render_infinite, signed_inj unsigned_inf unsigned_inf] at h
      rw [h.1]
    | finite negative' n f =>
      obtain ⟨whole, fraction, hshows, htext⟩ := exists_render_finite hy
      rw [render_infinite, htext, signed_inj unsigned_inf hshows.unsigned] at h
      exact absurd h.2.symm (text_ne_inf hshows)
  | finite negative m e =>
    obtain ⟨whole, fraction, hshows, htext⟩ := exists_render_finite hx
    cases y with
    | infinite negative' =>
      rw [render_infinite, htext, signed_inj hshows.unsigned unsigned_inf] at h
      exact absurd h.2 (text_ne_inf hshows)
    | finite negative' n f =>
      obtain ⟨whole', fraction', hshows', htext'⟩ := exists_render_finite hy
      rw [htext, htext', signed_inj hshows.unsigned hshows'.unsigned] at h
      obtain ⟨rfl, rfl⟩ := magnitude_inj hx hy (hshows.eq_of_text hshows' h.2)
      rw [h.1]

/-- A double has the text of a whole number if it is shown as that number. -/
theorem intChars_eq_render_iff {x : Binary64} (hx : x.IsCanonical) (n : ℤ) :
    intChars n = x.render.toList ↔ x.shown? = some (n : ℚ) := by
  have hnat := shows_toDigits n.natAbs
  rw [intChars_eq_signed]
  cases x with
  | infinite negative =>
    rw [render_infinite, signed_inj hnat.unsigned unsigned_inf]
    exact iff_of_false (fun h => text_ne_inf hnat h.2) (by simp [shown?])
  | finite negative m e =>
    obtain ⟨whole, fraction, hshows, htext⟩ := exists_render_finite hx
    have hbody : text (Nat.toDigits 10 n.natAbs) [] = text whole fraction ↔
        magnitude m e = n.natAbs := by
      constructor
      · intro h
        exact hshows.eq_of_text hnat h.symm
      · intro h
        rw [h] at hshows
        rw [hshows.text_eq]
        rfl
    rw [htext, signed_inj hnat.unsigned hshows.unsigned, hbody]
    cases negative with
    | false =>
      rw [shown?, Option.some_inj, decide_eq_false_iff_not, not_lt]
      constructor
      · rintro ⟨hn, h⟩
        rw [h, Nat.cast_natAbs, abs_of_nonneg hn]
      · intro h
        have hn : 0 ≤ n := by exact_mod_cast h ▸ magnitude_nonneg hx
        exact ⟨hn, by rw [h, Nat.cast_natAbs, abs_of_nonneg hn]⟩
    | true =>
      rw [shown?, decide_eq_true_iff]
      split_ifs with hm
      · refine iff_of_false (fun h => ?_) (by simp)
        rw [magnitude, if_pos hm] at h
        have hzero : n.natAbs = 0 := by exact_mod_cast h.2.symm
        omega
      · have hpos := (magnitude_pos_iff hx).mpr hm
        rw [Option.some_inj, neg_eq_iff_eq_neg]
        constructor
        · rintro ⟨hn, h⟩
          rw [h, Nat.cast_natAbs, abs_of_neg hn]
          push_cast
          rfl
        · intro h
          have hn : n < 0 := by
            rw [h] at hpos
            exact_mod_cast neg_pos.mp hpos
          refine ⟨hn, ?_⟩
          rw [h, Nat.cast_natAbs, abs_of_neg hn]
          push_cast
          rfl

end Binary64

end GraphQLCheck
