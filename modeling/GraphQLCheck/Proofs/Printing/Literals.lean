import GraphQLCheck.Proofs.Printing.Numerals
import GraphQLCheck.Proofs.Scanning.Reading

/-!
# Texts of literals

What the text of a literal says about the literal. Names, numbers and words end before the first
comma or closing bracket, strings at their quotation mark, lists and objects at their own bracket.
So the text of a literal is found in a longer text, and inside it the texts of its parts.

Names and numbers have to be of the form that the reader gives them (`Literal.Readable`): a name of
nothing at all, or an enum value `true`, would be taken for something else. With that, a text tells
which literal it is of, but for one thing: a number is written without a fraction if it has none,
and an infinite one as `inf`. So a float may have the text of a whole number or of an enum value,
and in the text of a literal it stands for that (`Literal.asPrinted`).

## What is proved

* `closeString_escaped`, `unescape_escaped` — a string is found in a text and read back.
* `Literal.tells_toChars` — literals that stand for themselves are told apart by their texts, in any
  place of a text.
* `Literal.render_eq_iff` — literals have the same text if they are the same as printed.
* `Literal.OwnTexts.asPrinted_eq` — without floats that are printed like other literals, a literal
  stands for itself.
-/

namespace GraphQLCheck

/-! ### Strings -/

namespace Token

/-- A character is escaped by a backslash and a letter, or stands for itself. -/
theorem escapedChar_cases (c : Char) :
    (∃ k, escapedChar c = ['\\', k] ∧ k ≠ 'u' ∧ k ≠ '\n' ∧ escape? k = some c) ∨
      escapedChar c = [c] ∧ c ≠ '"' ∧ c ≠ '\\' ∧ c ≠ '\n' := by
  unfold escapedChar
  split
  · exact .inl ⟨_, rfl, by decide, by decide, rfl⟩
  · exact .inl ⟨_, rfl, by decide, by decide, rfl⟩
  · exact .inl ⟨_, rfl, by decide, by decide, rfl⟩
  · exact .inl ⟨_, rfl, by decide, by decide, rfl⟩
  · exact .inl ⟨_, rfl, by decide, by decide, rfl⟩
  · exact .inr ⟨rfl, by assumption, by assumption, by assumption⟩

theorem closeString_escapedChar (c : Char) (cs : List Char) :
    closeString false (escapedChar c ++ cs) =
      (closeString false cs).map fun (body, rest) => (escapedChar c ++ body, rest) := by
  rcases escapedChar_cases c with ⟨k, hk, -, hline, -⟩ | ⟨hc, hquote, hslash, hline⟩
  · rw [hk]
    simp [closeString, hline, Option.map_map, Function.comp_def]
  · rw [hc]
    simp [closeString, hquote, hslash, hline]

/-- The text of a string ends with its quotation mark. -/
theorem closeString_escaped (text rest : List Char) :
    closeString false (text.flatMap escapedChar ++ '"' :: rest) =
      some (text.flatMap escapedChar, rest) := by
  induction text with
  | nil => rfl
  | cons c text ih => rw [List.flatMap_cons, List.append_assoc, closeString_escapedChar, ih]; rfl

theorem unescape_escapedChar (c : Char) (cs : List Char) :
    unescape (escapedChar c ++ cs) = (unescape cs).map (c :: ·) := by
  rcases escapedChar_cases c with ⟨k, hk, hcode, -, hescape⟩ | ⟨hc, -, hslash, -⟩
  · rw [hk]
    change unescape ('\\' :: k :: cs) = _
    rw [unescape, hescape]
    · cases unescape cs <;> rfl
    · intro _ _ _ _ _ h
      exact absurd h hcode
  · rw [hc]
    change unescape (c :: cs) = _
    rw [unescape, if_neg hslash]
    · intro _ _ _ _ _ h
      exact absurd h hslash
    · intro _ _ h
      exact absurd h hslash

/-- Escapes are undone. -/
theorem unescape_escaped (text : List Char) :
    unescape (text.flatMap escapedChar) = some text := by
  induction text with
  | nil => rfl
  | cons c text ih => rw [List.flatMap_cons, unescape_escapedChar, ih]; rfl

/-- The text of a string and what follows it are found in one way only. -/
theorem quotedChars_inj {text text' rest rest' : List Char}
    (h : quotedChars text ++ rest = quotedChars text' ++ rest') : text = text' ∧ rest = rest' := by
  have happend (text rest : List Char) :
      quotedChars text ++ rest = '"' :: (text.flatMap escapedChar ++ '"' :: rest) := by
    rw [quotedChars, List.cons_append, List.append_assoc, List.singleton_append]
  rw [happend, happend] at h
  have hclose := congrArg (closeString false) (List.cons.inj h).2
  rw [closeString_escaped, closeString_escaped] at hclose
  obtain ⟨hbody, hrest⟩ := Prod.mk.inj (Option.some.inj hclose)
  have htext := congrArg unescape hbody
  rw [unescape_escaped, unescape_escaped] at htext
  exact ⟨Option.some.inj htext, hrest⟩

/-! ### Readable literals -/

/-- The characters of a name. -/
structure IsName (cs : List Char) : Prop where
  /-- With the first of them a name may start. -/
  first : ∃ c rest, cs = c :: rest ∧ startsName c = true
  /-- All of them may stand in a name. -/
  continues : ∀ c ∈ cs, continuesName c = true

theorem IsName.cons {c : Char} {cs : List Char} (hc : startsName c = true)
    (hcs : cs.all continuesName = true) : IsName (c :: cs) where
  first := ⟨c, cs, rfl, hc⟩
  continues := by
    refine List.forall_mem_cons.mpr ⟨?_, List.all_eq_true.mp hcs⟩
    simp only [startsName, Bool.decide_or, Bool.or_eq_true, decide_eq_true_eq] at hc
    simp only [continuesName, Char.isAlphanum, Bool.decide_or, Bool.or_eq_true, decide_eq_true_eq]
    tauto

end Token

open Token Numeral

/-- A literal without parts as the reader gives it: a name is a name, an enum value none of the
words with a meaning of their own, and a float is a double. -/
def Atom.Readable : Atom → Prop
  | var text => IsName text.toList
  | float value => value.IsCanonical
  | enum text => IsName text.toList ∧ text ∉ ["true", "false", "null"]
  | int _ | string _ | bool _ | null => True

namespace Literal

/-- All literals without parts in a literal have one property, and all names of fields another. -/
inductive All (ofAtom : Atom → Prop) (ofName : String → Prop) : Literal → Prop where
  /-- A literal without parts. -/
  | atom {value : Atom} : ofAtom value → All ofAtom ofName (.atom value)
  /-- A list. -/
  | list {items : List Literal} : (∀ item ∈ items, All ofAtom ofName item) →
      All ofAtom ofName (.list items)
  /-- An object. -/
  | object {fields : List (String × Literal)} : (∀ field ∈ fields, ofName field.1) →
      (∀ field ∈ fields, All ofAtom ofName field.2) → All ofAtom ofName (.object fields)

/-- A literal as the reader gives it. -/
def Readable : Literal → Prop := All Atom.Readable fun text => IsName text.toList

end Literal

/-! ### What a text stands for -/

/-- The whole number that is shown in place of a double. -/
def Binary64.whole? (x : Binary64) : Option ℤ :=
  x.shown?.bind fun q => if q.den = 1 then some q.num else none

theorem Binary64.whole?_eq_some_iff {x : Binary64} {n : ℤ} :
    x.whole? = some n ↔ x.shown? = some (n : ℚ) := by
  simp only [whole?, Option.bind_eq_some_iff]
  constructor
  · rintro ⟨q, hq, h⟩
    split_ifs at h with hden
    cases h
    rw [hq, Rat.coe_int_num_of_den_eq_one hden]
  · intro h
    exact ⟨n, h, by simp⟩

namespace Atom

/-- What the text of a literal stands for: a float may be printed as a whole number, or as the word
for infinity. -/
def asPrinted : Atom → Atom
  | float x =>
    match x.whole? with
    | some n => int n
    | none => if x = .infinite false then enum "inf" else float x
  | a => a

theorem asPrinted_float_cases (x : Binary64) :
    (∃ n, x.whole? = some n ∧ (float x).asPrinted = int n) ∨
      (x = .infinite false ∧ (float x).asPrinted = enum "inf") ∨
      x.whole? = none ∧ x ≠ .infinite false ∧ (float x).asPrinted = float x := by
  rw [asPrinted]
  cases hwhole : x.whole? with
  | some n => exact .inl ⟨n, rfl, rfl⟩
  | none =>
    by_cases hx : x = .infinite false
    · exact .inr (.inl ⟨hx, if_pos hx⟩)
    · exact .inr (.inr ⟨rfl, hx, if_neg hx⟩)

theorem toChars_asPrinted {a : Atom} (ha : a.Readable) : a.asPrinted.toChars = a.toChars := by
  cases a with
  | var _ | int _ | string _ | bool _ | null | enum _ => rfl
  | float x =>
    rcases asPrinted_float_cases x with ⟨n, hwhole, h⟩ | ⟨rfl, h⟩ | ⟨-, -, h⟩
    · rw [h]
      exact (Binary64.intChars_eq_render_iff ha n).mpr (Binary64.whole?_eq_some_iff.mp hwhole)
    · rw [h]
      rfl
    · rw [h]

/-- A literal without parts that is printed like no other one: no float that is shown as a whole
number, nor the one that is printed as a word. -/
def OwnText : Atom → Prop
  | float x => x.whole? = none ∧ x ≠ .infinite false
  | var _ | int _ | string _ | bool _ | null | enum _ => True

theorem OwnText.asPrinted_eq {a : Atom} (h : a.OwnText) : a.asPrinted = a := by
  cases a with
  | var _ | int _ | string _ | bool _ | null | enum _ => rfl
  | float x =>
    obtain ⟨hwhole, hinfinite⟩ := h
    rw [asPrinted, hwhole]
    exact if_neg hinfinite

/-- A literal that stands for itself, as the reader gives it. -/
structure Clear (a : Atom) : Prop where
  /-- It is as the reader gives it. -/
  readable : a.Readable
  /-- It is printed like no other one. -/
  own : a.OwnText

theorem Readable.clear_asPrinted {a : Atom} (ha : a.Readable) : a.asPrinted.Clear := by
  cases a with
  | var _ | int _ | string _ | bool _ | null | enum _ => exact ⟨ha, trivial⟩
  | float x =>
    rcases asPrinted_float_cases x with ⟨n, -, h⟩ | ⟨-, h⟩ | ⟨hwhole, hinfinite, h⟩
    · rw [h]
      exact ⟨trivial, trivial⟩
    · rw [h]
      exact ⟨⟨.cons (by decide) (by decide), by decide⟩, trivial⟩
    · rw [h]
      exact ⟨ha, hwhole, hinfinite⟩

end Atom

/-! ### First characters -/

/-- What the text of a literal can start with. -/
inductive Opening where
  /-- The sign of a variable. -/
  | dollar
  /-- A quotation mark. -/
  | quote
  /-- The first character of a name. -/
  | letter
  /-- A digit or a sign. -/
  | number
  /-- The bracket of a list. -/
  | bracket
  /-- The brace of an object. -/
  | brace
  deriving DecidableEq, Repr

namespace Opening

/-- What a text starts with, given its first character. -/
def ofChar? (c : Char) : Option Opening :=
  if c = '$' then some dollar
  else if c = '"' then some quote
  else if c = '[' then some bracket
  else if c = '{' then some brace
  else if startsName c then some letter
  else if c = '-' ∨ c.isDigit then some number
  else none

theorem ofChar?_of_startsName {c : Char} (h : startsName c = true) : ofChar? c = some letter := by
  have hne {d : Char} (hd : startsName d = false) : c ≠ d := by
    rintro rfl
    rw [hd] at h
    cases h
  rw [ofChar?, if_neg (hne (by decide)), if_neg (hne (by decide)), if_neg (hne (by decide)),
    if_neg (hne (by decide)), if_pos h]

theorem ofChar?_of_isDigit {c : Char} (h : c.isDigit = true) : ofChar? c = some number := by
  have hne {d : Char} (hd : d.isDigit = false) : c ≠ d := by
    rintro rfl
    rw [hd] at h
    cases h
  have hname : ¬ startsName c = true := by
    intro hname
    rw [RepeatedField.not_isDigit_of_startsName hname] at h
    cases h
  rw [ofChar?, if_neg (hne rfl), if_neg (hne rfl), if_neg (hne rfl), if_neg (hne rfl),
    if_neg hname, if_pos (.inr h)]

/-- How a text starts. -/
def Opens (opening : Opening) (text : List Char) : Prop :=
  ∃ c rest, text = c :: rest ∧ ofChar? c = some opening

/-- A text starts in one way. -/
theorem Opens.unique {opening opening' : Opening} {text text' rest rest' : List Char}
    (h : opening.Opens text) (h' : opening'.Opens text') (heq : text ++ rest = text' ++ rest') :
    opening = opening' := by
  obtain ⟨c, tail, rfl, hc⟩ := h
  obtain ⟨c', tail', rfl, hc'⟩ := h'
  rw [(List.cons.inj heq).1, hc'] at hc
  exact (Option.some.inj hc).symm

/-- What the text of a literal without parts starts with. -/
def ofAtom : Atom → Opening
  | .var _ => dollar
  | .string _ => quote
  | .int _ | .float _ => number
  | .bool _ | .null | .enum _ => letter

/-- What the text of a literal starts with. -/
def ofLiteral : Literal → Opening
  | .atom value => ofAtom value
  | .list _ => bracket
  | .object _ => brace

end Opening

namespace Atom

open Opening

/-- The word that is the text of a literal. -/
theorem exists_word {a : Atom} (ha : a.Readable) (hopening : ofAtom a = letter) :
    ∃ word, IsName word.toList ∧ a.toChars = word.toList ∧ a = ofWord word := by
  cases a with
  | var _ | int _ | float _ | string _ => cases hopening
  | bool value =>
    cases value with
    | true => exact ⟨"true", .cons (by decide) (by decide), rfl, rfl⟩
    | false => exact ⟨"false", .cons (by decide) (by decide), rfl, rfl⟩
  | null => exact ⟨"null", .cons (by decide) (by decide), rfl, rfl⟩
  | enum text =>
    refine ⟨text, ha.1, rfl, ?_⟩
    have hword := ha.2
    simp only [List.mem_cons, List.not_mem_nil, or_false, not_or] at hword
    rw [ofWord, if_neg hword.1, if_neg hword.2.1, if_neg hword.2.2]

theorem readable_ofWord {word : String} (h : IsName word.toList) : (ofWord word).Readable := by
  rw [ofWord]
  split_ifs with htrue hfalse hnull
  · trivial
  · trivial
  · trivial
  · exact ⟨h, by simp [htrue, hfalse, hnull]⟩

/-- The text of a number: digits with a sign, or the negative infinity. -/
theorem exists_signed {a : Atom} (ha : a.Clear) (hopening : ofAtom a = number) :
    (∃ negative q whole fraction, Shows q whole fraction ∧
      a.toChars = signed negative (text whole fraction)) ∨ a.toChars = ['-', 'i', 'n', 'f'] := by
  cases a with
  | var _ | string _ | bool _ | null | enum _ => cases hopening
  | int n => exact .inl ⟨_, _, _, _, shows_toDigits n.natAbs, intChars_eq_signed n⟩
  | float x =>
    cases x with
    | finite negative m e =>
      obtain ⟨whole, fraction, hshows, htext⟩ := Binary64.exists_render_finite ha.readable
      exact .inl ⟨negative, _, whole, fraction, hshows, htext negative⟩
    | infinite negative =>
      cases negative with
      | false => exact absurd rfl ha.own.2
      | true => exact .inr rfl

theorem opens_toChars {a : Atom} (ha : a.Clear) : (ofAtom a).Opens a.toChars := by
  cases hopening : ofAtom a with
  | dollar =>
    cases a with
    | var _ => exact ⟨_, _, rfl, rfl⟩
    | _ => cases hopening
  | quote =>
    cases a with
    | string _ => exact ⟨_, _, rfl, rfl⟩
    | _ => cases hopening
  | letter =>
    obtain ⟨word, hname, htext, -⟩ := exists_word ha.readable hopening
    obtain ⟨c, rest, hcons, hfirst⟩ := hname.first
    exact ⟨c, rest, htext.trans hcons, ofChar?_of_startsName hfirst⟩
  | number =>
    rcases exists_signed ha hopening with ⟨negative, q, whole, fraction, hshows, htext⟩ | htext
    · cases negative with
      | true => exact ⟨_, _, htext, by decide⟩
      | false =>
        obtain ⟨c, rest, hcons⟩ := List.exists_cons_of_ne_nil hshows.plain.ne_nil
        rw [htext, text_eq_append, hcons]
        exact ⟨c, _, rfl, ofChar?_of_isDigit (hshows.plain.digits c (hcons ▸ List.mem_cons_self))⟩
    · exact ⟨_, _, htext, by decide⟩
  | bracket | brace => cases a <;> cases hopening

/-- Literals without parts that stand for themselves are told apart by their texts. -/
theorem toChars_inj {a b : Atom} (ha : a.Clear) (hb : b.Clear) (h : a.toChars = b.toChars) :
    a = b := by
  have hopening : ofAtom a = ofAtom b :=
    (opens_toChars ha).unique (opens_toChars hb) (congrArg (· ++ []) h)
  -- A float that stands for itself does not have the text of a whole number.
  have hwhole {n : ℤ} {x : Binary64} (hx : Clear (float x)) : intChars n ≠ x.render.toList := by
    intro h
    rw [Binary64.intChars_eq_render_iff hx.readable, ← Binary64.whole?_eq_some_iff,
      hx.own.1] at h
    cases h
  cases a with
  | var text =>
    cases b with
    | var text' => rw [String.toList_inj.mp (List.cons.inj h).2]
    | _ => cases hopening
  | string text =>
    cases b with
    | string text' => rw [String.toList_inj.mp (quotedChars_inj (congrArg (· ++ []) h)).1]
    | _ => cases hopening
  | int n =>
    cases b with
    | int n' => rw [intChars_inj h]
    | float x => exact absurd h (hwhole hb)
    | _ => cases hopening
  | float x =>
    cases b with
    | int n => exact absurd h.symm (hwhole ha)
    | float x' => rw [Binary64.render_inj ha.readable hb.readable h]
    | _ => cases hopening
  | bool _ | null | enum _ =>
    obtain ⟨word, -, htext, hword⟩ := exists_word ha.readable rfl
    obtain ⟨word', -, htext', hword'⟩ := exists_word hb.readable hopening.symm
    rw [hword, hword', String.toList_inj.mp (htext.symm.trans (h.trans htext'))]

end Atom

/-! ### Places in a text -/

/-- The characters that can follow a literal inside another one. -/
def endsLiteral (c : Char) : Bool := [',', ']', '}'].contains c

theorem endsLiteral_cases {c : Char} (h : endsLiteral c = true) : c = ',' ∨ c = ']' ∨ c = '}' := by
  simpa [endsLiteral] using h

theorem endsLiteral_of_continuesName {c : Char} (h : continuesName c = true) :
    endsLiteral c = false := by
  by_contra hends
  rw [Bool.not_eq_false] at hends
  rcases endsLiteral_cases hends with rfl | rfl | rfl <;> revert h <;> decide

theorem endsLiteral_of_isDigit {c : Char} (h : c.isDigit = true) : endsLiteral c = false := by
  refine endsLiteral_of_continuesName ?_
  simp [continuesName, Char.isAlphanum, h]

/-- What can follow a literal: nothing, or one of these characters and more. -/
def Ended (rest : List Char) : Prop := ∀ c ∈ rest.head?, endsLiteral c = true

/-- Two things are told apart by their texts, wherever these stand. -/
def Tells {α : Type} (print : α → List Char) (x y : α) : Prop :=
  ∀ rest rest', Ended rest → Ended rest' → print x ++ rest = print y ++ rest' → x = y ∧ rest = rest'

namespace Atom

open Opening

/-- Only in a string there are characters that can follow a literal. -/
theorem endsLiteral_of_mem_toChars {a : Atom} (ha : a.Clear) (hquote : ofAtom a ≠ quote) :
    ∀ c ∈ a.toChars, endsLiteral c = false := by
  cases hopening : ofAtom a with
  | dollar =>
    cases a with
    | var text =>
      exact List.forall_mem_cons.mpr
        ⟨rfl, fun c hc => endsLiteral_of_continuesName (ha.readable.continues c hc)⟩
    | _ => cases hopening
  | quote => exact absurd hopening hquote
  | letter =>
    obtain ⟨word, hname, htext, -⟩ := exists_word ha.readable hopening
    rw [htext]
    exact fun c hc => endsLiteral_of_continuesName (hname.continues c hc)
  | number =>
    rcases exists_signed ha hopening with ⟨negative, q, whole, fraction, hshows, htext⟩ | htext
    · intro c hc
      rw [htext] at hc
      rcases mem_signed hc with rfl | hc
      · rfl
      rcases mem_text hc with hc | rfl | hc
      · exact endsLiteral_of_isDigit (hshows.plain.digits c hc)
      · rfl
      · exact endsLiteral_of_isDigit (hshows.digits c hc)
    · rw [htext]
      simp [endsLiteral]
  | bracket | brace => cases a <;> cases hopening

theorem tells_toChars {a b : Atom} (ha : a.Clear) (hb : b.Clear) : Tells toChars a b := by
  intro rest rest' hrest hrest' h
  have hopening := (opens_toChars ha).unique (opens_toChars hb) h
  by_cases hquote : ofAtom a = quote
  · cases a with
    | string text =>
      cases b with
      | string text' =>
        obtain ⟨htext, hrest⟩ := quotedChars_inj h
        exact ⟨congrArg string (String.toList_inj.mp htext), hrest⟩
      | _ => cases hopening
    | _ => cases hquote
  · have hinner {a : Atom} (ha : a.Clear) (hquote : ofAtom a ≠ quote) :
        ∀ c ∈ a.toChars, (!endsLiteral c) = true := by
      intro c hc
      rw [endsLiteral_of_mem_toChars ha hquote c hc]
      rfl
    have houter {rest : List Char} (hrest : Ended rest) :
        ∀ c ∈ rest.head?, (!endsLiteral c) = false := by
      intro c hc
      rw [hrest c hc]
      rfl
    obtain ⟨htext, hrest⟩ := append_inj_of_stop (hinner ha hquote) (hinner hb (hopening ▸ hquote))
      (houter hrest) (houter hrest') h
    exact ⟨toChars_inj ha hb htext, hrest⟩

end Atom

/-! ### Parts -/

/-- Texts with a comma and a blank between two. -/
def joined (texts : List (List Char)) : List Char := [',', ' '].intercalate texts

/-- Such texts after another one. -/
def continued : List (List Char) → List Char
  | [] => []
  | texts => ',' :: ' ' :: joined texts

theorem joined_cons (text : List Char) (texts : List (List Char)) :
    joined (text :: texts) = text ++ continued texts := by
  cases texts with
  | nil => simp [joined, continued]
  | cons other texts => simp [joined, continued, List.intercalate_cons_cons]

section Closed

variable {close : Char} {rest rest' : List Char}

theorem ended_continued (hends : endsLiteral close = true) (texts : List (List Char)) :
    Ended (continued texts ++ close :: rest) := by
  intro c hc
  cases texts with
  | nil =>
    cases hc
    exact hends
  | cons text texts =>
    cases hc
    rfl

theorem joined_of_continued (hcomma : close ≠ ',') {texts texts' : List (List Char)}
    (h : continued texts ++ close :: rest = continued texts' ++ close :: rest') :
    joined texts ++ close :: rest = joined texts' ++ close :: rest' := by
  cases texts with
  | nil =>
    cases texts' with
    | nil => exact h
    | cons text' texts' => exact absurd (List.cons.inj h).1 hcomma
  | cons text texts =>
    cases texts' with
    | nil => exact absurd (List.cons.inj h).1.symm hcomma
    | cons text' texts' => exact (List.cons.inj (List.cons.inj h).2).2

variable {α : Type} {print : α → List Char}

theorem joined_ne_close (hends : endsLiteral close = true) {x : α}
    (hx : ∃ c tail, print x = c :: tail ∧ endsLiteral c = false) (xs : List α) :
    joined ((x :: xs).map print) ++ close :: rest ≠ close :: rest' := by
  obtain ⟨c, tail, htext, hc⟩ := hx
  intro h
  rw [List.map_cons, joined_cons, htext] at h
  rw [(List.cons.inj h).1, hends] at hc
  cases hc

/-- Things between commas are told apart if each two of them are, and if no text of one starts like
the end of all. -/
theorem joined_inj (hends : endsLiteral close = true) (hcomma : close ≠ ',') {xs ys : List α}
    (htells : ∀ x ∈ xs, ∀ y ∈ ys, Tells print x y)
    (hxs : ∀ x ∈ xs, ∃ c tail, print x = c :: tail ∧ endsLiteral c = false)
    (hys : ∀ y ∈ ys, ∃ c tail, print y = c :: tail ∧ endsLiteral c = false)
    (h : joined (xs.map print) ++ close :: rest = joined (ys.map print) ++ close :: rest') :
    xs = ys ∧ rest = rest' := by
  induction xs generalizing ys with
  | nil =>
    cases ys with
    | nil => exact ⟨rfl, (List.cons.inj h).2⟩
    | cons y ys => exact absurd h.symm (joined_ne_close hends (hys y List.mem_cons_self) ys)
  | cons x xs ih =>
    cases ys with
    | nil => exact absurd h (joined_ne_close hends (hxs x List.mem_cons_self) xs)
    | cons y ys =>
      rw [List.map_cons, List.map_cons, joined_cons, joined_cons, List.append_assoc,
        List.append_assoc] at h
      obtain ⟨rfl, hmore⟩ := htells x List.mem_cons_self y List.mem_cons_self _ _
        (ended_continued hends _) (ended_continued hends _) h
      obtain ⟨rfl, hrest⟩ := ih
        (fun a ha b hb => htells a (List.mem_cons_of_mem _ ha) b (List.mem_cons_of_mem _ hb))
        (fun a ha => hxs a (List.mem_cons_of_mem _ ha))
        (fun b hb => hys b (List.mem_cons_of_mem _ hb)) (joined_of_continued hcomma hmore)
      exact ⟨rfl, hrest⟩

end Closed

namespace Literal

/-- The characters of a field of an object. -/
def fieldText (field : String × Literal) : List Char :=
  field.1.toList ++ ':' :: ' ' :: field.2.toChars

theorem itemChars_eq_joined (items : List Literal) :
    itemChars items = joined (items.map toChars) := by
  induction items with
  | nil => rfl
  | cons item rest ih =>
    rw [List.map_cons, joined_cons]
    cases rest with
    | nil => exact (List.append_nil _).symm
    | cons other rest => simp [itemChars, continued, ih]

theorem fieldChars_eq_joined (fields : List (String × Literal)) :
    fieldChars fields = joined (fields.map fieldText) := by
  induction fields with
  | nil => rfl
  | cons field rest ih =>
    rw [List.map_cons, joined_cons, fieldText]
    cases rest with
    | nil => simp [fieldChars, continued]
    | cons other rest => simp [fieldChars, continued, ih]

theorem toChars_list_append (items : List Literal) (rest : List Char) :
    (list items).toChars ++ rest = '[' :: (joined (items.map toChars) ++ ']' :: rest) := by
  simp [toChars, itemChars_eq_joined]

theorem toChars_object_append (fields : List (String × Literal)) (rest : List Char) :
    (object fields).toChars ++ rest = '{' :: (joined (fields.map fieldText) ++ '}' :: rest) := by
  simp [toChars, fieldChars_eq_joined]

/-- A literal that stands for itself, as the reader gives it. -/
def Clear : Literal → Prop := All Atom.Clear fun text => IsName text.toList

theorem opens_toChars {l : Literal} (hl : l.Clear) : (Opening.ofLiteral l).Opens l.toChars := by
  cases hl with
  | atom ha =>
    rw [toChars]
    exact Atom.opens_toChars ha
  | list _ => exact ⟨_, _, by rw [toChars], rfl⟩
  | object _ _ => exact ⟨_, _, by rw [toChars], rfl⟩

theorem exists_toChars_eq_cons {l : Literal} (hl : l.Clear) :
    ∃ c rest, l.toChars = c :: rest ∧ endsLiteral c = false := by
  obtain ⟨c, rest, htext, hc⟩ := opens_toChars hl
  refine ⟨c, rest, htext, ?_⟩
  by_contra hends
  rw [Bool.not_eq_false] at hends
  rcases endsLiteral_cases hends with rfl | rfl | rfl <;> cases hc

theorem exists_fieldText_eq_cons {field : String × Literal} (hname : IsName field.1.toList) :
    ∃ c rest, fieldText field = c :: rest ∧ endsLiteral c = false := by
  obtain ⟨c, rest, hcons, -⟩ := hname.first
  rw [fieldText, hcons]
  exact ⟨c, _, rfl, endsLiteral_of_continuesName (hname.continues c (hcons ▸ List.mem_cons_self))⟩

theorem tells_fieldText {field other : String × Literal} (hname : IsName field.1.toList)
    (hname' : IsName other.1.toList) (hvalue : Tells toChars field.2 other.2) :
    Tells fieldText field other := by
  intro rest rest' hrest hrest' h
  have hcolon (tail : List Char) : ∀ c ∈ (':' :: tail).head?, continuesName c = false := by
    intro c hc
    cases hc
    decide
  rw [fieldText, fieldText, List.append_assoc, List.append_assoc] at h
  obtain ⟨htext, hmore⟩ := append_inj_of_stop hname.continues hname'.continues (hcolon _)
    (hcolon _) h
  obtain ⟨heq, hrest⟩ := hvalue rest rest' hrest hrest' (List.cons.inj (List.cons.inj hmore).2).2
  exact ⟨Prod.ext (String.toList_inj.mp htext) heq, hrest⟩

/-- Literals that stand for themselves are told apart by their texts. -/
theorem tells_toChars {l l' : Literal} (hl : l.Clear) (hl' : l'.Clear) : Tells toChars l l' := by
  induction hl generalizing l' with
  | @atom a ha =>
    intro rest rest' hrest hrest' h
    have hopening := (opens_toChars (.atom ha)).unique (opens_toChars hl') h
    cases hl' with
    | atom hb =>
      rw [toChars, toChars] at h
      obtain ⟨rfl, hrest⟩ := Atom.tells_toChars ha hb rest rest' hrest hrest' h
      exact ⟨rfl, hrest⟩
    | list _ => cases a <;> cases hopening
    | object _ _ => cases a <;> cases hopening
  | list hitems ih =>
    intro rest rest' hrest hrest' h
    have hopening := (opens_toChars (.list hitems)).unique (opens_toChars hl') h
    cases hl' with
    | @atom b _ => cases b <;> cases hopening
    | list hothers =>
      rw [toChars_list_append, toChars_list_append] at h
      obtain ⟨rfl, hrest⟩ := joined_inj rfl (by decide)
        (fun item hitem other hother => ih item hitem (hothers other hother))
        (fun item hitem => exists_toChars_eq_cons (hitems item hitem))
        (fun other hother => exists_toChars_eq_cons (hothers other hother)) (List.cons.inj h).2
      exact ⟨rfl, hrest⟩
    | object _ _ => cases hopening
  | object hnames hvalues ih =>
    intro rest rest' hrest hrest' h
    have hopening := (opens_toChars (.object hnames hvalues)).unique (opens_toChars hl') h
    cases hl' with
    | @atom b _ => cases b <;> cases hopening
    | list _ => cases hopening
    | object hnames' hvalues' =>
      rw [toChars_object_append, toChars_object_append] at h
      obtain ⟨rfl, hrest⟩ := joined_inj rfl (by decide)
        (fun field hfield other hother => tells_fieldText (hnames field hfield)
          (hnames' other hother) (ih field hfield (hvalues' other hother)))
        (fun field hfield => exists_fieldText_eq_cons (hnames field hfield))
        (fun other hother => exists_fieldText_eq_cons (hnames' other hother)) (List.cons.inj h).2
      exact ⟨rfl, hrest⟩

mutual

/-- What the text of a literal stands for. -/
def asPrinted : Literal → Literal
  | atom value => atom value.asPrinted
  | list items => list (itemsAsPrinted items)
  | object fields => object (fieldsAsPrinted fields)

/-- What the texts of items stand for. -/
def itemsAsPrinted : List Literal → List Literal
  | [] => []
  | item :: rest => item.asPrinted :: itemsAsPrinted rest

/-- What the texts of fields stand for. -/
def fieldsAsPrinted : List (String × Literal) → List (String × Literal)
  | [] => []
  | (field, value) :: rest => (field, value.asPrinted) :: fieldsAsPrinted rest

end

theorem itemsAsPrinted_eq_map (items : List Literal) :
    itemsAsPrinted items = items.map asPrinted := by
  induction items with
  | nil => rfl
  | cons item rest ih => rw [itemsAsPrinted, ih, List.map_cons]

theorem fieldsAsPrinted_eq_map (fields : List (String × Literal)) :
    fieldsAsPrinted fields = fields.map (Prod.map id asPrinted) := by
  induction fields with
  | nil => rfl
  | cons field rest ih => rw [fieldsAsPrinted, ih]; rfl

theorem Readable.clear_asPrinted {l : Literal} (hl : l.Readable) : l.asPrinted.Clear := by
  induction hl with
  | atom ha =>
    rw [asPrinted]
    exact .atom ha.clear_asPrinted
  | list _ ih =>
    rw [asPrinted, itemsAsPrinted_eq_map]
    exact .list (List.forall_mem_map.mpr ih)
  | object hnames _ ih =>
    rw [asPrinted, fieldsAsPrinted_eq_map]
    exact .object (List.forall_mem_map.mpr hnames) (List.forall_mem_map.mpr ih)

theorem toChars_asPrinted {l : Literal} (hl : l.Readable) : l.asPrinted.toChars = l.toChars := by
  induction hl with
  | atom ha => rw [asPrinted, toChars, toChars, Atom.toChars_asPrinted ha]
  | list _ ih =>
    have htexts := List.map_congr_left ih
    rw [asPrinted, toChars, toChars, itemsAsPrinted_eq_map, itemChars_eq_joined,
      itemChars_eq_joined, List.map_map, ← htexts]
    rfl
  | @object fields _ _ ih =>
    have htexts : fields.map (fieldText ∘ Prod.map id asPrinted) = fields.map fieldText := by
      refine List.map_congr_left fun field hfield => ?_
      rw [Function.comp_apply, fieldText, Prod.map_snd, ih field hfield]
      rfl
    rw [asPrinted, toChars, toChars, fieldsAsPrinted_eq_map, fieldChars_eq_joined,
      fieldChars_eq_joined, List.map_map, htexts]

/-- Literals have the same text if they are the same as printed. -/
theorem render_eq_iff {l l' : Literal} (hl : l.Readable) (hl' : l'.Readable) :
    l.render = l'.render ↔ l.asPrinted = l'.asPrinted := by
  rw [render, render, String.ofList_inj]
  constructor
  · intro h
    rw [← toChars_asPrinted hl, ← toChars_asPrinted hl'] at h
    have hnil : Ended [] := fun c hc => by cases hc
    exact (tells_toChars hl.clear_asPrinted hl'.clear_asPrinted [] [] hnil hnil
      (congrArg (· ++ []) h)).1
  · intro h
    rw [← toChars_asPrinted hl, h, toChars_asPrinted hl']

/-- All literals without parts in a literal are printed like no other one. -/
def OwnTexts : Literal → Prop := All Atom.OwnText fun _ => True

theorem OwnTexts.asPrinted_eq {l : Literal} (h : l.OwnTexts) : l.asPrinted = l := by
  induction h with
  | atom ha => rw [asPrinted, ha.asPrinted_eq]
  | list _ ih => rw [asPrinted, itemsAsPrinted_eq_map, List.map_congr_left ih, List.map_id']
  | @object fields _ _ ih =>
    have hfields : fields.map (Prod.map id asPrinted) = fields.map id :=
      List.map_congr_left fun field hfield => Prod.ext rfl (ih field hfield)
    rw [asPrinted, fieldsAsPrinted_eq_map, hfields, List.map_id]

end Literal

end GraphQLCheck
