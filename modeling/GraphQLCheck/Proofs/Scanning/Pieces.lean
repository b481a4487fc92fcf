import GraphQLCheck.Document.RepeatedFields
import Mathlib.Data.Int.Notation
import Mathlib.Data.List.TakeWhile
import Mathlib.Tactic.Common

/-!
# Tokens and pieces

The search for repeated fields cuts a text into pieces of its own, without the tokens. Here the two
are compared: what stands between tokens are pieces that change nothing, and each token is one
piece. Strings are the exception: a carriage return is an ordinary character of a string for the
tokens and ends the piece.

## What is proved

* `gap_induction` — what stands before a token is passed over blank by blank and comment by comment.
* `scanFrom_afterGap` — the search passes over it in the same way.
* `Spelled` — the tokens by the characters that they are written with.
* `scanFrom_mark`, `scanFrom_name`, `scanFrom_value` — what the search does at a token.
-/

namespace GraphQLCheck

/-! ### Positions -/

namespace Position

theorem past_of_not_mem {raw : List Char} (h : '\n' ∉ raw) (p : Position) :
    p.past raw = ⟨p.line, p.column + raw.length⟩ := by
  rw [past, if_neg h, right]

theorem past_of_mem {raw : List Char} (h : '\n' ∈ raw) (p : Position) :
    p.past raw =
      ⟨p.line + raw.count '\n', (raw.reverse.takeWhile (· ≠ '\n')).length + 1⟩ := by
  rw [past, if_pos h]

/-- A text is passed in two parts. -/
theorem past_append (p : Position) (a b : List Char) : p.past (a ++ b) = (p.past a).past b := by
  by_cases hb : '\n' ∈ b
  · have hline : (p.past a).line = p.line + a.count '\n' := by
      by_cases ha : '\n' ∈ a
      · rw [past_of_mem ha]
      · rw [past_of_not_mem ha, List.count_eq_zero_of_not_mem ha, Nat.add_zero]
    have hstop : (b.reverse.takeWhile (· ≠ '\n')).length ≠ b.reverse.length := by
      intro hlength
      have hall := List.takeWhile_eq_self_iff.mp
        ((List.takeWhile_prefix _).eq_of_length hlength) '\n' (List.mem_reverse.mpr hb)
      simp at hall
    rw [past_of_mem (List.mem_append_right a hb), past_of_mem hb, hline, List.count_append,
      Nat.add_assoc, List.reverse_append, List.takeWhile_append, if_neg hstop]
  · rw [past_of_not_mem hb]
    by_cases ha : '\n' ∈ a
    · have hall : b.reverse.takeWhile (· ≠ '\n') = b.reverse := by
        rw [List.takeWhile_eq_self_iff]
        intro c hc
        rw [decide_eq_true_eq]
        rintro rfl
        exact hb (List.mem_reverse.mp hc)
      rw [past_of_mem (List.mem_append_left b ha), past_of_mem ha, List.count_append,
        List.count_eq_zero_of_not_mem hb, List.reverse_append, List.takeWhile_append, hall,
        if_pos rfl, List.length_append, List.length_reverse]
      simp only [Nat.add_zero]
      congr 1
      omega
    · have hab : '\n' ∉ a ++ b := by simp [ha, hb]
      rw [past_of_not_mem hab, past_of_not_mem ha, List.length_append, Nat.add_assoc]

end Position

/-! ### Gaps -/

namespace Token

/-- The characters that may stand between tokens, comments apart. -/
def blanks : List Char := [' ', '\t', '\n', '\r', ',', '\uFEFF']

/-- The text from the next token on. -/
def afterGap (cs : List Char) : List Char := (skipGap Position.start cs).2

/-- The characters before the next token. -/
def gap (cs : List Char) : List Char := cs.take (cs.length - (afterGap cs).length)

theorem skipGap_blank {c : Char} (hc : c ∈ blanks) (p : Position) (cs : List Char) :
    ∃ q, skipGap p (c :: cs) = skipGap q cs := by
  simp only [blanks, List.mem_cons, List.not_mem_nil, or_false] at hc
  rcases hc with rfl | rfl | rfl | rfl | rfl | rfl <;> exact ⟨_, rfl⟩

theorem skipGap_token {c : Char} (hc : c ∉ blanks) (hcomment : c ≠ '#') (p : Position)
    (cs : List Char) : skipGap p (c :: cs) = (p, c :: cs) := by
  simp only [blanks, List.mem_cons, List.not_mem_nil, or_false, not_or] at hc
  simp [skipGap, hc, hcomment]

/-- A comment is skipped up to the end of its line. -/
theorem skipComment_eq (p : Position) (cs : List Char) :
    ∃ q, (skipComment p cs).2 =
      (skipGap q (cs.dropWhile (!RepeatedField.endsLine ·))).2 := by
  induction cs with
  | nil => exact ⟨p, rfl⟩
  | cons c cs ih =>
    rw [skipComment]
    by_cases hc : c = '\n' ∨ c = '\r'
    · rw [if_pos hc, List.dropWhile_cons_of_neg (by simp [RepeatedField.endsLine, hc])]
      rcases hc with rfl | rfl
      · exact ⟨p, rfl⟩
      · exact ⟨p.nextLine, rfl⟩
    · rw [if_neg hc, List.dropWhile_cons_of_pos (by simpa [RepeatedField.endsLine] using hc)]
      exact ih

/-- What stands before the next token, one blank or comment after another. -/
theorem gap_induction {P : List Char → Prop} (nil : P [])
    (blank : ∀ c cs, c ∈ blanks → P cs → P (c :: cs))
    (comment : ∀ cs, P (cs.dropWhile (!RepeatedField.endsLine ·)) → P ('#' :: cs))
    (token : ∀ c cs, c ∉ blanks → c ≠ '#' → P (c :: cs)) (cs : List Char) : P cs := by
  induction hlength : cs.length using Nat.strongRecOn generalizing cs with
  | _ n ih =>
    cases cs with
    | nil => exact nil
    | cons c cs =>
      rw [List.length_cons] at hlength
      by_cases hblank : c ∈ blanks
      · exact blank c cs hblank (ih cs.length (by omega) cs rfl)
      · by_cases hcomment : c = '#'
        · subst hcomment
          have hle := (List.dropWhile_suffix (!RepeatedField.endsLine ·) (l := cs)).length_le
          exact comment cs (ih _ (by omega) _ rfl)
        · exact token c cs hblank hcomment

/-- The text of the next token is the same from wherever it is counted. -/
theorem skipGap_snd (p : Position) (cs : List Char) : (skipGap p cs).2 = afterGap cs := by
  suffices h : ∀ q, (skipGap p cs).2 = (skipGap q cs).2 from h Position.start
  induction cs using gap_induction generalizing p with
  | nil => exact fun q => rfl
  | blank c cs hc ih =>
    intro q
    obtain ⟨p', hp⟩ := skipGap_blank hc p cs
    obtain ⟨q', hq⟩ := skipGap_blank hc q cs
    rw [hp, hq]
    exact ih p' q'
  | comment cs ih =>
    intro q
    obtain ⟨p', hp⟩ := skipComment_eq p cs
    obtain ⟨q', hq⟩ := skipComment_eq q cs
    have hskip (r : Position) : skipGap r ('#' :: cs) = skipComment r cs := rfl
    rw [hskip, hskip, hp, hq]
    exact ih p' q'
  | token c cs hc hcomment =>
    intro q
    rw [skipGap_token hc hcomment, skipGap_token hc hcomment]

theorem afterGap_nil : afterGap [] = [] := rfl

theorem afterGap_blank {c : Char} (hc : c ∈ blanks) (cs : List Char) :
    afterGap (c :: cs) = afterGap cs := by
  obtain ⟨q, hq⟩ := skipGap_blank hc Position.start cs
  rw [afterGap, hq, skipGap_snd]

theorem afterGap_comment (cs : List Char) :
    afterGap ('#' :: cs) = afterGap (cs.dropWhile (!RepeatedField.endsLine ·)) := by
  obtain ⟨q, hq⟩ := skipComment_eq Position.start cs
  exact hq.trans (skipGap_snd q _)

theorem afterGap_token {c : Char} (hc : c ∉ blanks) (hcomment : c ≠ '#') (cs : List Char) :
    afterGap (c :: cs) = c :: cs := by
  rw [afterGap, skipGap_token hc hcomment]

theorem afterGap_suffix (cs : List Char) : afterGap cs <:+ cs := by
  induction cs using gap_induction with
  | nil => exact List.suffix_rfl
  | blank c cs hc ih =>
    rw [afterGap_blank hc]
    exact ih.trans (List.suffix_cons c cs)
  | comment cs ih =>
    rw [afterGap_comment]
    exact (ih.trans (List.dropWhile_suffix _)).trans (List.suffix_cons _ cs)
  | token c cs hc hcomment =>
    exact ⟨[], afterGap_token hc hcomment cs⟩

theorem gap_append (cs : List Char) : gap cs ++ afterGap cs = cs := by
  obtain ⟨before, hbefore⟩ := afterGap_suffix cs
  have hlength := congrArg List.length hbefore
  rw [List.length_append] at hlength
  have hgap : gap cs = before := by
    rw [gap, ← hlength, Nat.add_sub_cancel]
    conv_lhs => rw [← hbefore]
    exact List.take_left
  rw [hgap, hbefore]

theorem gap_eq {before cs : List Char} (h : before ++ afterGap cs = cs) : gap cs = before :=
  List.append_cancel_right ((gap_append cs).trans h.symm)

/-! ### How tokens are written -/

/-- Whether a token is a number or a string. -/
def isValue : Token → Bool
  | .int _ | .float _ | .string _ | .uncut _ => true
  | .punctuator _ | .name _ | .unknown => false

/-- The tokens at the start of a text, by the characters that they are written with. -/
inductive Spelled : List Char → Cut → Prop where
  /-- Three dots. -/
  | ellipsis (cs : List Char) :
      Spelled ('.' :: '.' :: '.' :: cs) ⟨.punctuator .ellipsis, ['.', '.', '.'], cs⟩
  /-- A punctuator of one character. -/
  | mark {c : Char} {m : Punctuator} (cs : List Char) :
      punctuator? c = some m → Spelled (c :: cs) ⟨.punctuator m, [c], cs⟩
  /-- A name. -/
  | name {c : Char} (cs : List Char) : startsName c = true →
      Spelled (c :: cs) ⟨.name (String.ofList (c :: cs.takeWhile continuesName)),
        c :: cs.takeWhile continuesName, cs.dropWhile continuesName⟩
  /-- A number. -/
  | number {c : Char} {cs : List Char} {token : Token} :
      c = '-' ∨ c.isDigit = true → number? (c :: cs.takeWhile continuesNumber) = some token →
      token.isValue = true →
      Spelled (c :: cs) ⟨token, c :: cs.takeWhile continuesNumber, cs.dropWhile continuesNumber⟩
  /-- A string. -/
  | string {cs body rest : List Char} (text : String) :
      (∀ other, cs ≠ '"' :: '"' :: other) → closeString false cs = some (body, rest) →
      Spelled ('"' :: cs) ⟨.string text, '"' :: (body ++ ['"']), rest⟩
  /-- A block string. -/
  | block {cs body rest : List Char} {token : Token} :
      closeBlock false cs = some (body, rest) → token.isValue = true →
      Spelled ('"' :: '"' :: '"' :: cs)
        ⟨token, '"' :: '"' :: '"' :: (body ++ ['"', '"', '"']), rest⟩

theorem isValue_blockToken (body : List Char) : (blockToken body).isValue = true := by
  unfold blockToken
  split <;> rfl

/-- A whole number of 64 bits. -/
def Is64Bit (n : ℤ) : Prop := -9223372036854775808 ≤ n ∧ n ≤ 9223372036854775807

/-- A number is a fractional or a whole one. -/
theorem number?_cases {raw : List Char} {token : Token} (h : number? raw = some token) :
    (∃ whole fraction exponent, token = floatOf whole fraction exponent) ∨
      ∃ n, Is64Bit n ∧ token = .int n := by
  unfold number? at h
  split at h
  · obtain ⟨e, -, h⟩ := Option.bind_eq_some_iff.mp h
    split at h
    · obtain ⟨whole, -, h⟩ := Option.bind_eq_some_iff.mp h
      obtain ⟨fraction, -, h⟩ := Option.bind_eq_some_iff.mp h
      exact .inl ⟨whole, fraction, e, (Option.some.inj h).symm⟩
    · obtain ⟨whole, -, h⟩ := Option.bind_eq_some_iff.mp h
      exact .inl ⟨whole, [], e, (Option.some.inj h).symm⟩
  · split at h
    · obtain ⟨whole, -, h⟩ := Option.bind_eq_some_iff.mp h
      obtain ⟨fraction, -, h⟩ := Option.bind_eq_some_iff.mp h
      exact .inl ⟨whole, fraction, 0, (Option.some.inj h).symm⟩
    · obtain ⟨whole, -, h⟩ := Option.bind_eq_some_iff.mp h
      simp only [intOf, Option.ite_none_right_eq_some, Option.some.injEq] at h
      exact .inr ⟨_, h.1, h.2.symm⟩

theorem isValue_of_number? {raw : List Char} {token : Token} (h : number? raw = some token) :
    token.isValue = true := by
  rcases number?_cases h with ⟨whole, fraction, exponent, rfl⟩ | ⟨n, -, rfl⟩ <;> rfl

theorem Spelled.of_mark {text raw rest : List Char} {m : Punctuator}
    (h : Spelled text ⟨.punctuator m, raw, rest⟩) :
    (m = .ellipsis ∧ raw = ['.', '.', '.'] ∧ text = '.' :: '.' :: '.' :: rest) ∨
      ∃ c, punctuator? c = some m ∧ raw = [c] ∧ text = c :: rest := by
  cases h with
  | ellipsis => exact .inl ⟨rfl, rfl, rfl⟩
  | mark _ hc => exact .inr ⟨_, hc, rfl, rfl⟩
  | number _ _ hvalue => cases hvalue
  | block _ hvalue => cases hvalue

theorem Spelled.of_name {text raw rest : List Char} {name : String}
    (h : Spelled text ⟨.name name, raw, rest⟩) :
    ∃ c cs, text = c :: cs ∧ startsName c = true ∧ raw = c :: cs.takeWhile continuesName ∧
      rest = cs.dropWhile continuesName ∧ name = String.ofList raw := by
  cases h with
  | name cs hc => exact ⟨_, cs, rfl, hc, rfl, rfl, rfl⟩
  | number _ _ hvalue => cases hvalue
  | block _ hvalue => cases hvalue

/-- A token that is cut off is written in one of the ways. -/
theorem spelled_of_lexeme? {text : List Char} {cut : Cut} (h : lexeme? text = some cut) :
    Spelled text cut := by
  unfold lexeme? at h
  split at h
  · cases h
  · cases h
    exact .ellipsis _
  · simp only [cutBlock?, Option.bind_eq_bind, Option.bind_eq_some_iff] at h
    obtain ⟨⟨body, rest⟩, hbody, hcut⟩ := h
    cases hcut
    exact .block hbody (isValue_blockToken body)
  · rename_i cs hblock
    simp only [cutString?, Option.bind_eq_bind, Option.bind_eq_some_iff] at h
    obtain ⟨⟨body, rest⟩, hbody, text, -, hcut⟩ := h
    cases hcut
    exact .string _ hblock hbody
  · rename_i c cs _ _ _
    split at h
    · rename_i m hm
      cases h
      exact .mark cs hm
    · split_ifs at h with hname hnumber
      · cases h
        exact .name cs hname
      · simp only [cutNumber?, Option.bind_eq_bind, Option.bind_eq_some_iff] at h
        obtain ⟨token, htoken, hcut⟩ := h
        cases hcut
        exact .number hnumber htoken (isValue_of_number? htoken)

end Token

namespace RepeatedField

open Token

/-! ### How far pieces reach -/

/-- A comment or blank is no part of a name. -/
theorem continuesName_blank {c : Char} (hc : c ∈ blanks) : continuesName c = false := by
  simp only [blanks, List.mem_cons, List.not_mem_nil, or_false] at hc
  rcases hc with rfl | rfl | rfl | rfl | rfl | rfl <;> rfl

/-- A string reaches to its closing mark, if there is no carriage return in it. -/
theorem stringReach_eq {cs body rest : List Char} (h : closeString false cs = some (body, rest))
    (hreturn : '\r' ∉ body) : stringReach cs = body.length + 1 := by
  fun_induction stringReach cs generalizing body with
  | case1 => cases h
  | case2 c cs ih =>
    -- The character after a backslash belongs to the string whatever it is.
    simp [closeString] at h
    obtain ⟨inner, ⟨-, hinner⟩, rfl⟩ := h
    rw [ih hinner (fun hmem => hreturn (by simp [hmem])), List.length_cons, List.length_cons]
    omega
  | case3 cs =>
    simp [closeString] at h
    simp [h.1]
  | case4 c cs hescape hquote hends =>
    simp only [endsLine, Bool.decide_or, Bool.or_eq_true, decide_eq_true_eq] at hends
    rcases hends with rfl | rfl
    · simp [closeString] at h
    · simp [closeString] at h
      obtain ⟨inner, -, rfl⟩ := h
      exact absurd List.mem_cons_self hreturn
  | case5 c cs hescape hquote hends ih =>
    have hline : c ≠ '\n' := by
      rintro rfl
      exact hends rfl
    by_cases hbackslash : c = '\\'
    · cases cs with
      | nil => simp [closeString, hquote, hline] at h
      | cons head cs => exact (hescape head cs hbackslash rfl).elim
    · simp [closeString, hquote, hline, hbackslash] at h
      obtain ⟨inner, hinner, rfl⟩ := h
      rw [ih hinner (fun hmem => hreturn (by simp [hmem])), List.length_cons]
      omega

theorem blockReach_cons {c : Char} {cs : List Char}
    (hescape : ∀ other, c = '\\' → cs = '"' :: '"' :: '"' :: other → False)
    (hclose : ∀ other, c = '"' → cs = '"' :: '"' :: other → False) :
    blockReach (c :: cs) = 1 + blockReach cs :=
  blockReach.eq_4 c cs hescape hclose

/-- A block string reaches to its closing marks. A backslash before the text that is left protects
the marks at its start. -/
theorem blockReach_eq {escaped : Bool} {cs body rest : List Char}
    (h : closeBlock escaped cs = some (body, rest)) :
    (escaped = false → blockReach cs = body.length + 3) ∧
      (escaped = true → blockReach ('\\' :: cs) = body.length + 4) := by
  fun_induction closeBlock escaped cs generalizing body rest with
  | case1 => cases h
  | case2 cs ih =>
    obtain ⟨⟨inner, other⟩, hinner, heq⟩ := Option.map_eq_some_iff.mp h
    cases heq
    refine ⟨fun hfalse => Bool.noConfusion hfalse, fun _ => ?_⟩
    rw [blockReach, (ih hinner).1 rfl]
    simp only [List.length_cons]
    omega
  | case3 escaped cs hescaped =>
    cases h
    exact ⟨fun _ => by rw [blockReach]; rfl, fun htrue => absurd htrue hescaped⟩
  | case4 escaped c cs hclose ih =>
    obtain ⟨⟨inner, other⟩, hinner, heq⟩ := Option.map_eq_some_iff.mp h
    cases heq
    have hcons : blockReach (c :: cs) = inner.length + 4 := by
      by_cases hbackslash : c = '\\'
      · subst hbackslash
        exact (ih hinner).2 rfl
      · rw [blockReach_cons (fun other heq => absurd heq hbackslash) hclose,
          (ih hinner).1 (by simpa using hbackslash)]
        omega
    rw [List.length_cons]
    refine ⟨fun _ => hcons, fun _ => ?_⟩
    rw [blockReach_cons _ (fun other heq => by cases heq), hcons]
    · omega
    · rintro other - heq
      obtain ⟨rfl, rfl⟩ := List.cons.inj heq
      exact hclose other rfl rfl

/-! ### Numbers -/

/-- Whether every character goes on with the number that the one before it belongs to. -/
def goesOn (before : Char) : List Char → Bool
  | [] => true
  | c :: cs => continuesNumeral before c && goesOn c cs

theorem numeralReach_of_goesOn {before : Char} {cs rest : List Char} (h : goesOn before cs = true)
    (hrest : ∀ c ∈ rest.head?, ∀ x, continuesNumeral x c = false) :
    numeralReach before (cs ++ rest) = cs.length := by
  induction cs generalizing before with
  | nil =>
    cases rest with
    | nil => rfl
    | cons c rest =>
      rw [List.nil_append, numeralReach, if_neg (by simp [hrest c rfl])]
      rfl
  | cons c cs ih =>
    rw [goesOn, Bool.and_eq_true] at h
    rw [List.cons_append, numeralReach, if_pos h.1, ih h.2, List.length_cons, Nat.add_comm]

/-- Letters, digits and points go on with every number. -/
def inNumeral (c : Char) : Bool := c = '.' ∨ c.isAlphanum

theorem continuesNumeral_of_inNumeral {c : Char} (h : inNumeral c = true) (before : Char) :
    continuesNumeral before c = true := by
  have hsign : ¬ (c = '+' ∨ c = '-') := by
    rintro (rfl | rfl) <;> exact absurd h (by decide)
  rw [continuesNumeral, if_neg hsign]
  exact h

theorem goesOn_append {before : Char} {xs ys : List Char} (hxs : ∀ c ∈ xs, inNumeral c = true)
    (hys : ∀ x, goesOn x ys = true) : goesOn before (xs ++ ys) = true := by
  induction xs generalizing before with
  | nil => exact hys before
  | cons c xs ih =>
    obtain ⟨hc, hxs⟩ := List.forall_mem_cons.mp hxs
    rw [List.cons_append, goesOn, continuesNumeral_of_inNumeral hc, ih hxs]
    rfl

theorem goesOn_of_forall {before : Char} {xs : List Char} (hxs : ∀ c ∈ xs, inNumeral c = true) :
    goesOn before xs = true := by
  have h : goesOn before (xs ++ []) = true := goesOn_append hxs fun x => rfl
  rwa [List.append_nil] at h

theorem splitLast_eq_some {p : Char → Bool} {cs before after : List Char}
    (h : splitLast p cs = some (before, after)) :
    ∃ x, p x = true ∧ cs = before ++ x :: after := by
  induction cs generalizing before after with
  | nil => cases h
  | cons c cs ih =>
    rw [splitLast] at h
    split at h
    · rename_i inner after' hinner
      cases h
      obtain ⟨x, hx, rfl⟩ := ih hinner
      exact ⟨x, hx, rfl⟩
    · split_ifs at h with hc
      cases h
      exact ⟨c, hc, rfl⟩

theorem inNumeral_of_digits? {cs ds : List Char} (h : digits? cs = some ds) :
    ∀ c ∈ cs, inNumeral c = true := by
  unfold digits? at h
  split_ifs at h with hdigits
  intro c hc
  have hdigit := List.all_eq_true.mp hdigits.2 c hc
  simp [inNumeral, Char.isAlphanum, hdigit]

/-- After its first character a whole number has digits only. -/
theorem inNumeral_of_whole? {cs : List Char} {whole : Bool × List Char}
    (h : whole? cs = some whole) : ∃ c ds, cs = c :: ds ∧ ∀ d ∈ ds, inNumeral d = true := by
  have hdigits : ∀ cs ds, wholeDigits? cs = some ds →
      cs ≠ [] ∧ ∀ d ∈ cs, inNumeral d = true := by
    intro cs ds h
    unfold wholeDigits? at h
    split at h
    · exact ⟨by simp, by simp [inNumeral]⟩
    · cases h
    · refine ⟨?_, inNumeral_of_digits? h⟩
      rintro rfl
      cases h
  unfold whole? at h
  split at h
  · obtain ⟨ds, hds, -⟩ := Option.map_eq_some_iff.mp h
    exact ⟨_, _, rfl, (hdigits _ _ hds).2⟩
  · obtain ⟨ds, hds, -⟩ := Option.map_eq_some_iff.mp h
    obtain ⟨hne, hall⟩ := hdigits _ _ hds
    obtain ⟨c, ds', rfl⟩ := List.exists_cons_of_ne_nil hne
    exact ⟨c, ds', rfl, fun d hd => hall d (List.mem_cons_of_mem c hd)⟩

/-- An exponent goes on after its mark. -/
theorem goesOn_of_exponent? {x : Char} (hx : x = 'e' ∨ x = 'E') {cs : List Char} {e : ℤ}
    (h : exponent? cs = some e) : goesOn x cs = true := by
  have hsign : ∀ c, c = '+' ∨ c = '-' → continuesNumeral x c = true := by
    intro c hc
    rw [continuesNumeral, if_pos hc]
    simpa using hx
  unfold exponent? at h
  split at h
  · obtain ⟨ds, hds, -⟩ := Option.map_eq_some_iff.mp h
    rw [goesOn, hsign '+' (.inl rfl), goesOn_of_forall (inNumeral_of_digits? hds)]
    rfl
  · obtain ⟨ds, hds, -⟩ := Option.map_eq_some_iff.mp h
    rw [goesOn, hsign '-' (.inr rfl), goesOn_of_forall (inNumeral_of_digits? hds)]
    rfl
  · rename_i c cs _ _
    split_ifs at h with hdigits
    obtain ⟨hlow, hhigh, hall⟩ := hdigits
    apply goesOn_of_forall
    intro d hd
    have hdigit : d.isDigit = true := by
      rcases List.mem_cons.mp hd with rfl | hd
      · have hzero : '0' ≤ d := Char.le_trans (by decide) hlow
        have hnine : d ≤ '9' := Char.le_trans hhigh (by decide)
        simp only [Char.isDigit, Bool.and_eq_true, decide_eq_true_eq]
        exact ⟨hzero, hnine⟩
      · exact List.all_eq_true.mp hall d hd
    simp [inNumeral, Char.isAlphanum, hdigit]
  · cases h

/-- After its first character a number without an exponent has digits and points only. -/
theorem inNumeral_of_point {cs whole fraction f : List Char} {w : Bool × List Char}
    (hsplit : splitLast (· = '.') cs = some (whole, fraction)) (hw : whole? whole = some w)
    (hf : digits? fraction = some f) : ∃ c ds, cs = c :: ds ∧ ∀ d ∈ ds, inNumeral d = true := by
  obtain ⟨x, hx, rfl⟩ := splitLast_eq_some hsplit
  obtain rfl : x = '.' := by simpa using hx
  obtain ⟨c, ds, rfl, hds⟩ := inNumeral_of_whole? hw
  refine ⟨c, ds ++ '.' :: fraction, rfl, List.forall_mem_append.mpr ⟨hds, ?_⟩⟩
  exact List.forall_mem_cons.mpr ⟨rfl, inNumeral_of_digits? hf⟩

/-- What is read as a number goes on to its end. -/
theorem goesOn_of_number? {c : Char} {cs : List Char} {token : Token}
    (h : number? (c :: cs) = some token) : goesOn c cs = true := by
  unfold number? at h
  split at h
  · rename_i mantissa exponentPart hsplit
    obtain ⟨x, hx, hcs⟩ := splitLast_eq_some hsplit
    have hmark : x = 'e' ∨ x = 'E' := by simpa using hx
    obtain ⟨e, he, hmantissa⟩ := Option.bind_eq_some_iff.mp h
    have htail : ∀ y, goesOn y (x :: exponentPart) = true := by
      intro y
      rw [goesOn, goesOn_of_exponent? hmark he, continuesNumeral_of_inNumeral]
      · rfl
      · rcases hmark with rfl | rfl <;> rfl
    have hdigits : ∃ c ds, mantissa = c :: ds ∧ ∀ d ∈ ds, inNumeral d = true := by
      split at hmantissa
      · rename_i whole fraction hpoint
        obtain ⟨w, hw, hfraction⟩ := Option.bind_eq_some_iff.mp hmantissa
        obtain ⟨f, hf, -⟩ := Option.bind_eq_some_iff.mp hfraction
        exact inNumeral_of_point hpoint hw hf
      · obtain ⟨w, hw, -⟩ := Option.bind_eq_some_iff.mp hmantissa
        exact inNumeral_of_whole? hw
    obtain ⟨c', ds, rfl, hds⟩ := hdigits
    obtain ⟨-, rfl⟩ := List.cons.inj hcs
    exact goesOn_append hds htail
  · have hdigits : ∃ c' ds, c :: cs = c' :: ds ∧ ∀ d ∈ ds, inNumeral d = true := by
      split at h
      · rename_i whole fraction hpoint
        obtain ⟨w, hw, hfraction⟩ := Option.bind_eq_some_iff.mp h
        obtain ⟨f, hf, -⟩ := Option.bind_eq_some_iff.mp hfraction
        exact inNumeral_of_point hpoint hw hf
      · obtain ⟨w, hw, -⟩ := Option.bind_eq_some_iff.mp h
        exact inNumeral_of_whole? hw
    obtain ⟨c', ds, hcs, hds⟩ := hdigits
    obtain ⟨-, rfl⟩ := List.cons.inj hcs
    exact goesOn_of_forall hds

/-- A number ends where it has to end for both. -/
theorem continuesNumeral_of_ends {c : Char} (hc : continuesNumber c = false) (before : Char) :
    continuesNumeral before c = false := by
  have hmem : c ∈ numberEnds := by simpa [continuesNumber] using hc
  have hsign : ¬ (c = '+' ∨ c = '-') := by
    rintro (rfl | rfl) <;> exact absurd hmem (by decide)
  have hrest : numberEnds.all (!inNumeral ·) = true := by decide
  rw [continuesNumeral, if_neg hsign]
  exact (Bool.not_eq_true' _).mp (List.all_eq_true.mp hrest c hmem)

/-! ### The search along a text -/

variable {p : Position} {frames : List Frame}

theorem scanFrom_nil (p : Position) (frames : List Frame) : scanFrom p frames [] = [] := by
  rw [scanFrom]

theorem take_drop_of_append {cs raw rest : List Char} (h : raw ++ rest = cs) :
    cs.take raw.length = raw ∧ cs.drop raw.length = rest := by
  subst h
  exact ⟨List.take_left, List.drop_left⟩

/-- The search passes over a piece that is no name. -/
theorem scanFrom_piece {c : Char} {cs raw rest : List Char} (hname : startsName c = false)
    (hraw : c :: raw ++ rest = c :: cs) (hreach : reach c cs = raw.length) :
    scanFrom p frames (c :: cs) = scanFrom (p.past (c :: raw)) (bracketsAfter c frames) rest := by
  obtain ⟨htake, hdrop⟩ := take_drop_of_append (List.cons.inj hraw).2
  rw [scanFrom, hname, hreach]
  simp only [Bool.false_eq_true, if_false]
  rw [htake, hdrop]

/-- A character that is a piece of its own. -/
theorem scanFrom_single {c : Char} {cs : List Char} (hname : startsName c = false)
    (hreach : reach c cs = 0) :
    scanFrom p frames (c :: cs) = scanFrom (p.past [c]) (bracketsAfter c frames) cs :=
  scanFrom_piece hname rfl hreach

theorem scanFrom_blank {c : Char} (hc : c ∈ blanks) (cs : List Char) :
    scanFrom p frames (c :: cs) = scanFrom (p.past [c]) frames cs := by
  simp only [blanks, List.mem_cons, List.not_mem_nil, or_false] at hc
  rcases hc with rfl | rfl | rfl | rfl | rfl | rfl <;> exact scanFrom_single rfl rfl

theorem scanFrom_comment (cs : List Char) :
    scanFrom p frames ('#' :: cs) =
      scanFrom (p.past ('#' :: cs.takeWhile (!endsLine ·))) frames
        (cs.dropWhile (!endsLine ·)) := by
  refine scanFrom_piece rfl ?_ rfl
  rw [List.cons_append, List.takeWhile_append_dropWhile]

/-- The search passes over what stands before a token. -/
theorem scanFrom_afterGap (p : Position) (frames : List Frame) (cs : List Char) :
    scanFrom p frames cs = scanFrom (p.past (gap cs)) frames (afterGap cs) := by
  induction cs using gap_induction generalizing p with
  | nil => rw [afterGap_nil, scanFrom_nil, scanFrom_nil]
  | blank c cs hc ih =>
    have hgap : gap (c :: cs) = [c] ++ gap cs := gap_eq (by
      rw [afterGap_blank hc, List.append_assoc, gap_append]
      rfl)
    rw [scanFrom_blank hc, ih, afterGap_blank hc, hgap, Position.past_append]
  | comment cs ih =>
    have hgap : gap ('#' :: cs) =
        ('#' :: cs.takeWhile (!endsLine ·)) ++ gap (cs.dropWhile (!endsLine ·)) := gap_eq (by
      rw [afterGap_comment, List.append_assoc, gap_append, List.cons_append,
        List.takeWhile_append_dropWhile])
    rw [scanFrom_comment, ih, afterGap_comment, hgap, Position.past_append]
  | token c cs hc hcomment =>
    have hgap : gap (c :: cs) = [] := gap_eq (by rw [afterGap_token hc hcomment]; rfl)
    rw [hgap, afterGap_token hc hcomment]
    rfl

/-- The next character that counts is the first of the next token. -/
theorem significant?_eq (cs : List Char) : significant? cs = (afterGap cs).head? := by
  induction cs using gap_induction with
  | nil => rfl
  | blank c cs hc ih =>
    rw [afterGap_blank hc, ← ih]
    simp only [blanks, List.mem_cons, List.not_mem_nil, or_false] at hc
    rcases hc with rfl | rfl | rfl | rfl | rfl | rfl <;> rfl
  | comment cs ih =>
    rw [afterGap_comment, ← ih]
    have hcomment : significant? ('#' :: cs) = significantAfterComment? cs := rfl
    rw [hcomment]
    clear ih hcomment
    induction cs with
    | nil => rfl
    | cons c cs ih =>
      rw [significantAfterComment?]
      cases hends : endsLine c with
      | true =>
        rw [List.dropWhile_cons_of_neg (by simp [hends]), if_pos rfl]
        simp only [endsLine, Bool.decide_or, Bool.or_eq_true, decide_eq_true_eq] at hends
        rcases hends with rfl | rfl <;> rfl
      | false =>
        rw [List.dropWhile_cons_of_pos (by simp [hends]), if_neg (by simp)]
        exact ih
  | token c cs hc hcomment =>
    rw [afterGap_token hc hcomment, List.head?_cons, significant?, if_neg hcomment, if_neg]
    simpa [blanks] using hc

/-! ### The search at a token -/

/-- The brackets open after a punctuator. -/
def afterMark (m : Punctuator) (frames : List Frame) : List Frame :=
  match m with
  | .openParen => .arguments :: frames
  | .openBracket => .list :: frames
  | .openBrace => Frame.ofBrace frames :: frames
  | .closeParen | .closeBracket | .closeBrace => frames.tail
  | _ => frames

/-- A carriage return inside a string that is no block string. -/
def breaksLine (raw : List Char) : Bool := '\r' ∈ raw ∧ raw.take 3 ≠ ['"', '"', '"']

theorem bracketsAfter_of_punctuator? {c : Char} {m : Punctuator} (h : punctuator? c = some m)
    (frames : List Frame) : bracketsAfter c frames = afterMark m frames := by
  unfold punctuator? at h
  split at h <;> cases h <;> rfl

theorem startsName_of_punctuator? {c : Char} {m : Punctuator} (h : punctuator? c = some m) :
    startsName c = false := by
  unfold punctuator? at h
  split at h <;> cases h <;> rfl

theorem reach_of_punctuator? {c : Char} {m : Punctuator} (h : punctuator? c = some m)
    (hm : m ≠ .dollar) (cs : List Char) : reach c cs = 0 := by
  unfold punctuator? at h
  split at h <;> cases h <;> first | rfl | exact absurd rfl hm

theorem scanFrom_mark {text raw rest : List Char} {m : Punctuator}
    (h : Spelled text ⟨.punctuator m, raw, rest⟩) (hm : m ≠ .dollar) :
    scanFrom p frames text = scanFrom (p.past raw) (afterMark m frames) rest := by
  rcases h.of_mark with ⟨rfl, rfl, rfl⟩ | ⟨c, hc, rfl, rfl⟩
  · -- Each of the three dots is a piece of its own.
    have hdot (q : Position) (cs : List Char) :
        scanFrom q frames ('.' :: cs) = scanFrom (q.past ['.']) frames cs := scanFrom_single rfl rfl
    rw [hdot, hdot, hdot, ← Position.past_append, ← Position.past_append]
    rfl
  · rw [← bracketsAfter_of_punctuator? hc]
    exact scanFrom_single (startsName_of_punctuator? hc) (reach_of_punctuator? hc hm rest)

theorem not_isDigit_of_startsName {c : Char} (hc : startsName c = true) : c.isDigit = false := by
  rcases of_decide_eq_true hc with rfl | hletter
  · rfl
  · -- The letters stand past the digits.
    have hpast : '9'.val < c.val := by
      rcases (Bool.or_eq_true _ _).mp hletter with hupper | hlower
      · exact UInt32.lt_of_lt_of_le (by decide) (of_decide_eq_true hupper).1
      · obtain ⟨hleast, -⟩ := (Bool.and_eq_true _ _).mp hlower
        exact UInt32.lt_of_lt_of_le (by decide) (of_decide_eq_true hleast)
    simp only [Char.isDigit, Bool.and_eq_false_iff, decide_eq_false_iff_not]
    exact .inr (UInt32.not_le.mpr hpast)

theorem reach_name {c : Char} (hc : startsName c = true) (cs : List Char) :
    reach c cs = (cs.takeWhile continuesName).length := by
  have hcomment : c ≠ '#' := by
    rintro rfl
    cases hc
  have hquote : c ≠ '"' := by
    rintro rfl
    cases hc
  have hnumber : ¬ (c = '-' ∨ c.isDigit = true) := by
    rw [not_isDigit_of_startsName hc]
    rintro (rfl | h)
    · cases hc
    · cases h
  unfold reach
  rw [if_neg hcomment, if_neg hquote, if_neg hnumber, if_pos (.inr hc)]

theorem scanFrom_name {text raw rest : List Char} {name : String}
    (h : Spelled text ⟨.name name, raw, rest⟩) :
    scanFrom p frames text =
      (meetName p name rest frames).1.toList ++
        scanFrom (p.past raw) (meetName p name rest frames).2 rest := by
  obtain ⟨c, cs, rfl, hc, rfl, rfl, rfl⟩ := h.of_name
  obtain ⟨htake, hdrop⟩ := take_drop_of_append
    (List.takeWhile_append_dropWhile (p := continuesName) (l := cs))
  rw [scanFrom, reach_name hc, htake, hdrop, if_pos hc]

/-- Numbers start with a character that is a bracket or starts a name for neither. -/
theorem bracketsAfter_number {c : Char} (hc : c = '-' ∨ c.isDigit = true) (frames : List Frame) :
    bracketsAfter c frames = frames ∧ startsName c = false := by
  constructor
  · have hother : c ≠ '(' ∧ c ≠ '[' ∧ c ≠ '\x7b' ∧ ¬ (c = ')' ∨ c = ']' ∨ c = '\x7d') := by
      refine ⟨?_, ?_, ?_, ?_⟩
      · rintro rfl
        exact absurd hc (by decide)
      · rintro rfl
        exact absurd hc (by decide)
      · rintro rfl
        exact absurd hc (by decide)
      · rintro (rfl | rfl | rfl) <;> exact absurd hc (by decide)
    rw [bracketsAfter, if_neg hother.1, if_neg hother.2.1, if_neg hother.2.2.1,
      if_neg hother.2.2.2]
  · rw [Bool.eq_false_iff]
    intro hname
    rcases hc with rfl | hc
    · cases hname
    · rw [not_isDigit_of_startsName hname] at hc
      cases hc

theorem reach_number {c : Char} (hc : c = '-' ∨ c.isDigit = true) (cs : List Char) :
    reach c cs = numeralReach c cs := by
  have hcomment : c ≠ '#' := by
    rintro rfl
    exact absurd hc (by decide)
  have hquote : c ≠ '"' := by
    rintro rfl
    exact absurd hc (by decide)
  unfold reach
  rw [if_neg hcomment, if_neg hquote, if_pos hc]

theorem reach_string {cs : List Char} (h : ∀ other, cs ≠ '"' :: '"' :: other) :
    reach '"' cs = stringReach cs := by
  unfold reach
  rw [if_neg (by decide), if_pos rfl]
  split
  · exact absurd rfl (h _)
  · rfl

/-- A string with a carriage return in it breaks the line. -/
theorem not_mem_of_breaksLine {body rest : List Char}
    (hblock : ∀ other, body ++ '"' :: rest ≠ '"' :: '"' :: other)
    (hline : breaksLine ('"' :: (body ++ ['"'])) = false) : '\r' ∉ body := by
  intro hmem
  have hmarks : ('"' :: (body ++ ['"'])).take 3 = ['"', '"', '"'] := by
    simpa [breaksLine, hmem] using hline
  cases body with
  | nil => cases hmem
  | cons x body =>
    cases body with
    | nil =>
      cases List.mem_singleton.mp hmem
      cases hmarks
    | cons y body =>
      simp only [List.cons_append, List.take_succ_cons, List.take_zero, List.cons.injEq] at hmarks
      obtain ⟨-, rfl, rfl, -⟩ := hmarks
      exact hblock _ rfl

/-- A number or a string is one piece, unless a carriage return stands in it. -/
theorem scanFrom_value {text : List Char} {cut : Cut} (h : Spelled text cut)
    (hvalue : cut.token.isValue = true) (hline : breaksLine cut.raw = false) :
    scanFrom p frames text = scanFrom (p.past cut.raw) frames cut.rest := by
  cases h with
  | ellipsis => cases hvalue
  | mark => cases hvalue
  | name => cases hvalue
  | @number c cs token hc hnumber _ =>
    have hends : ∀ x ∈ (cs.dropWhile continuesNumber).head?, ∀ y, continuesNumeral y x = false := by
      intro x hx
      have hnot := List.head?_dropWhile_not continuesNumber cs
      rw [hx] at hnot
      exact continuesNumeral_of_ends hnot
    have hreach := numeralReach_of_goesOn (goesOn_of_number? hnumber) hends
    rw [List.takeWhile_append_dropWhile] at hreach
    obtain ⟨hbrackets, hname⟩ := bracketsAfter_number hc frames
    rw [scanFrom_piece hname _ ((reach_number hc cs).trans hreach), hbrackets]
    rw [List.cons_append, List.takeWhile_append_dropWhile]
  | @string cs body rest text hblock hbody =>
    have hclose := closeString_append hbody
    have hreturn : '\r' ∉ body := not_mem_of_breaksLine (hclose ▸ hblock) hline
    refine scanFrom_piece rfl (by simpa using hclose) ?_
    rw [reach_string hblock, stringReach_eq hbody hreturn, List.length_append]
    rfl
  | @block cs body rest token hbody _ =>
    have hclose := closeBlock_append hbody
    refine scanFrom_piece rfl (by simpa using hclose) ?_
    have hreach : reach '"' ('"' :: '"' :: cs) = 2 + blockReach cs := rfl
    rw [hreach, (blockReach_eq hbody).1 rfl]
    simp only [List.length_cons, List.length_append, List.length_nil]
    omega

/-- What stands before a token is no part of a name. -/
theorem takeWhile_of_gap {cs : List Char} (h : gap cs ≠ []) : cs.takeWhile continuesName = [] := by
  cases cs with
  | nil => rfl
  | cons c cs =>
    by_cases hc : c ∈ blanks
    · rw [List.takeWhile_cons_of_neg (by simp [continuesName_blank hc])]
    · by_cases hcomment : c = '#'
      · subst hcomment
        rfl
      · refine absurd (gap_eq ?_) h
        rw [afterGap_token hc hcomment]
        rfl

/-- A variable is one piece, or its mark and its name are two with a gap between. Where a name is
not noted both are passed over. -/
theorem scanFrom_variable {rest raw rest' : List Char} {name : String}
    (h : Spelled (afterGap rest) ⟨.name name, raw, rest'⟩)
    (hignored : ∀ q, meetName q name rest' frames = (none, frames)) :
    scanFrom p frames ('$' :: rest) =
      scanFrom (((p.past ['$']).past (gap rest)).past raw) frames rest' := by
  have hdollar (cs : List Char) : reach '$' cs = (cs.takeWhile continuesName).length := rfl
  by_cases hgap : gap rest = []
  · obtain ⟨c, cs, htext, hc, rfl, rfl, -⟩ := h.of_name
    have hcontinues : continuesName c = true := by
      simp only [startsName, continuesName, Char.isAlphanum, Bool.decide_or, Bool.or_eq_true,
        decide_eq_true_eq] at hc ⊢
      tauto
    have hrest : rest = c :: cs := by
      have happend := gap_append rest
      rw [hgap, htext] at happend
      exact happend.symm
    subst hrest
    rw [hgap]
    have hpiece : scanFrom p frames ('$' :: c :: cs) =
        scanFrom (p.past ('$' :: c :: cs.takeWhile continuesName)) (bracketsAfter '$' frames)
          (cs.dropWhile continuesName) := by
      refine scanFrom_piece rfl ?_ ?_
      · rw [List.cons_append, List.cons_append, List.takeWhile_append_dropWhile]
      · rw [hdollar, List.takeWhile_cons_of_pos hcontinues]
    rw [hpiece, ← Position.past_append, ← Position.past_append]
    rfl
  · have hsingle : scanFrom p frames ('$' :: rest) = scanFrom (p.past ['$']) frames rest :=
      scanFrom_single rfl (by rw [hdollar, takeWhile_of_gap hgap]; rfl)
    rw [hsingle, scanFrom_afterGap, scanFrom_name h, hignored]
    rfl

end RepeatedField

end GraphQLCheck
