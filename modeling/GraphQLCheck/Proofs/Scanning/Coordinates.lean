import GraphQLCheck.Proofs.Scanning.Lexemes

/-!
# Two ways to count columns

The reader and the search for repeated fields count positions in different ways. For the search
every character is one column and a line feed starts a line. For the reader a tab between tokens is eight
columns, a carriage return or a byte order mark there is none, and a carriage return that ends a
comment starts a line. Inside tokens both count alike. So the two positions of a token differ by a
`Drift` that is computed from what stands before it: lines, which only grow, and columns, which
start again with each line.

## What is proved

* `ahead_gap` — what happens between two tokens, one character after another.
* `moved_lexFrom` — what happens along the tokens of a text.
* `Ahead.eq_iff` — the two positions are the same if and only if there is no drift.
-/

namespace GraphQLCheck

/-- How far the position of the reader is ahead of the one that counts characters. -/
structure Drift where
  /-- The lines. -/
  lines : ℕ
  /-- The columns, on the line that both are on. -/
  columns : ℤ
  deriving DecidableEq, Repr

namespace Drift

/-- No drift. -/
def zero : Drift := ⟨0, 0⟩

mutual

/-- The drift after characters between tokens. -/
def acrossGap (δ : Drift) : List Char → Drift
  | [] => δ
  | c :: cs =>
    if c = '\t' then acrossGap ⟨δ.lines, δ.columns + 7⟩ cs
    else if c = '\r' ∨ c = '\uFEFF' then acrossGap ⟨δ.lines, δ.columns - 1⟩ cs
    else if c = '\n' then acrossGap ⟨δ.lines, 0⟩ cs
    else if c = '#' then acrossComment δ cs
    else acrossGap δ cs

/-- The drift after characters between tokens, of which the first belong to a comment. -/
def acrossComment (δ : Drift) : List Char → Drift
  | [] => δ
  | c :: cs =>
    if c = '\n' then acrossGap ⟨δ.lines, 0⟩ cs
    else if c = '\r' then acrossGap ⟨δ.lines + 1, 0⟩ cs
    else acrossComment δ cs

end

/-- The drift after a token. -/
def acrossToken (δ : Drift) (raw : List Char) : Drift :=
  if '\n' ∈ raw then ⟨δ.lines, 0⟩ else δ

/-- The drift after tokens and what stands before each of them. -/
def across (δ : Drift) : List (List Char × Token.Cut) → Drift
  | [] => δ
  | (before, cut) :: rest => ((δ.acrossGap before).acrossToken cut.raw).across rest

theorem across_concat (δ : Drift) (list : List (List Char × Token.Cut))
    (x : List Char × Token.Cut) :
    δ.across (list ++ [x]) = ((δ.across list).acrossGap x.1).acrossToken x.2.raw := by
  induction list generalizing δ with
  | nil => rfl
  | cons y list ih => exact ih _

/-- There is no tab, carriage return or byte order mark among characters. -/
def isPlain (cs : List Char) : Bool := cs.all fun c => !(c = '\t' || c = '\r' || c = '\uFEFF')

mutual

theorem zero_acrossGap {cs : List Char} (h : isPlain cs = true) : zero.acrossGap cs = zero := by
  cases cs with
  | nil => rfl
  | cons c cs =>
    obtain ⟨⟨⟨htab, hreturn⟩, hmark⟩, hcs⟩ :
        ((c ≠ '\t' ∧ c ≠ '\r') ∧ c ≠ '\uFEFF') ∧ isPlain cs := by
      simpa [isPlain, and_assoc] using h
    rw [acrossGap, if_neg htab, if_neg (by simp [hreturn, hmark])]
    split_ifs
    · exact zero_acrossGap hcs
    · exact zero_acrossComment hcs
    · exact zero_acrossGap hcs

theorem zero_acrossComment {cs : List Char} (h : isPlain cs = true) :
    zero.acrossComment cs = zero := by
  cases cs with
  | nil => rfl
  | cons c cs =>
    obtain ⟨hreturn, hcs⟩ : c ≠ '\r' ∧ isPlain cs := by
      simp only [isPlain, List.all_cons, Bool.and_eq_true] at h
      refine ⟨?_, h.2⟩
      rintro rfl
      cases h.1
    rw [acrossComment, if_neg hreturn]
    split_ifs
    · exact zero_acrossGap hcs
    · exact zero_acrossComment hcs

end

theorem zero_across {list : List (List Char × Token.Cut)} (h : ∀ x ∈ list, isPlain x.1 = true) :
    zero.across list = zero := by
  induction list with
  | nil => rfl
  | cons x list ih =>
    rw [List.forall_mem_cons] at h
    rw [across, zero_acrossGap h.1, acrossToken]
    split_ifs <;> exact ih h.2

end Drift

/-- A position is ahead of another one by a drift. On different lines the columns say nothing. -/
structure Ahead (δ : Drift) (p q : Position) : Prop where
  line : p.line = q.line + δ.lines
  column : δ.lines = 0 → (p.column : ℤ) = q.column + δ.columns

theorem Ahead.eq_iff {δ : Drift} {p q : Position} (h : Ahead δ p q) : p = q ↔ δ = .zero := by
  obtain ⟨lines, columns⟩ := δ
  obtain ⟨hline, hcolumn⟩ := h
  constructor
  · rintro rfl
    obtain rfl : lines = 0 := by simpa using hline
    have hsame : (p.column : ℤ) = p.column + columns := hcolumn rfl
    obtain rfl : columns = 0 := by omega
    rfl
  · intro h
    cases h
    obtain ⟨line, column⟩ := p
    obtain ⟨line', column'⟩ := q
    have hcolumns := hcolumn rfl
    simp only [Int.add_zero, Int.natCast_inj, Nat.add_zero] at hline hcolumns
    rw [hline, hcolumns]

/-! ### Between tokens -/

namespace Position

theorem past_cons (q : Position) (c : Char) (cs : List Char) :
    q.past (c :: cs) = (q.past [c]).past cs := past_append q [c] cs

theorem past_single {c : Char} (hc : c ≠ '\n') (q : Position) : q.past [c] = q.right 1 := by
  rw [past_of_not_mem (by simpa using hc.symm)]
  rfl

end Position

variable {δ : Drift} {p q r : Position} {c : Char} {text : List Char}

/-- A character that is `m` columns for the reader. -/
theorem Ahead.right (h : Ahead δ p q) (m : ℕ) (k : ℤ) (hk : k = δ.columns + m - 1) :
    Ahead ⟨δ.lines, k⟩ (p.right m) (q.right 1) := by
  refine ⟨h.line, fun hlines => ?_⟩
  have hcolumn := h.column hlines
  simp only [Position.right]
  omega

theorem Ahead.nextLine (h : p.line = q.line + δ.lines) :
    Ahead ⟨δ.lines, 0⟩ p.nextLine q.nextLine :=
  ⟨by simp only [Position.nextLine]; omega, fun _ => rfl⟩

namespace Token

/-- A gap ends where it is skipped to. -/
theorem skipGap_end (h : skipGap p (c :: text) = (r, c :: text)) :
    c ∉ blanks ∧ c ≠ '#' ∧ r = p := by
  have hlength {x : Position × List Char} (hx : x = (r, c :: text)) : text.length < x.2.length := by
    rw [hx]
    exact Nat.lt_succ_self _
  by_cases hblank : c ∈ blanks
  · obtain ⟨q, hq⟩ := skipGap_blank hblank p text
    exact absurd (hlength (hq.symm.trans h)) (skipGap_length q text).not_gt
  · by_cases hcomment : c = '#'
    · subst hcomment
      exact absurd (hlength (x := skipComment p text) h) (skipComment_length p text).not_gt
    · rw [skipGap_token hblank hcomment] at h
      exact ⟨hblank, hcomment, (Prod.mk.inj h).1.symm⟩

theorem skipComment_ne_end : skipComment p (c :: text) ≠ (r, c :: text) := by
  intro h
  have hlength : text.length < (skipComment p (c :: text)).2.length := by
    rw [h]
    exact Nat.lt_succ_self _
  rw [skipComment] at hlength
  split at hlength
  · exact absurd hlength (skipGap_length _ text).not_gt
  · exact absurd hlength (skipComment_length p text).not_gt

mutual

/-- The drift is what the reader is ahead by, before the next token. -/
theorem ahead_gap {δ : Drift} {p q r : Position} {before : List Char} (h : Ahead δ p q)
    (hskip : skipGap p (before ++ c :: text) = (r, c :: text)) :
    Ahead (δ.acrossGap before) r (q.past before) := by
  cases before with
  | nil =>
    obtain ⟨-, -, rfl⟩ := skipGap_end hskip
    exact h
  | cons b before =>
    rw [List.cons_append] at hskip
    rw [Position.past_cons]
    by_cases hblank : b ∈ blanks
    · simp only [blanks, List.mem_cons, List.not_mem_nil, or_false] at hblank
      rcases hblank with rfl | rfl | rfl | rfl | rfl | rfl
      · exact ahead_gap (h.right 1 δ.columns (by omega)) hskip
      · exact ahead_gap (h.right 8 (δ.columns + 7) (by omega)) hskip
      · exact ahead_gap (.nextLine h.line) hskip
      · exact ahead_gap (h.right 0 (δ.columns - 1) (by omega)) hskip
      · exact ahead_gap (h.right 1 δ.columns (by omega)) hskip
      · exact ahead_gap (h.right 0 (δ.columns - 1) (by omega)) hskip
    · by_cases hcomment : b = '#'
      · subst hcomment
        exact ahead_comment (q := q.right 1) h.line hskip
      · -- The gap ends here, but the next token comes later.
        rw [skipGap_token hblank hcomment] at hskip
        have hlength := congrArg List.length (Prod.mk.inj hskip).2
        simp only [List.length_cons, List.length_append] at hlength
        omega

theorem ahead_comment {δ : Drift} {p q r : Position} {before : List Char}
    (h : p.line = q.line + δ.lines)
    (hskip : skipComment p (before ++ c :: text) = (r, c :: text)) :
    Ahead (δ.acrossComment before) r (q.past before) := by
  cases before with
  | nil => exact absurd hskip skipComment_ne_end
  | cons b before =>
    rw [List.cons_append, skipComment] at hskip
    rw [Drift.acrossComment, Position.past_cons]
    by_cases hfeed : b = '\n'
    · subst hfeed
      rw [if_pos (.inl rfl)] at hskip
      rw [if_pos rfl]
      exact ahead_gap (.nextLine h) hskip
    · rw [if_neg hfeed, Position.past_single hfeed]
      by_cases hreturn : b = '\r'
      · subst hreturn
        rw [if_pos (.inr rfl)] at hskip
        rw [if_pos rfl]
        have hnext : Ahead ⟨δ.lines + 1, 0⟩ p.nextLine (q.right 1) :=
          ⟨by simp only [Position.nextLine, Position.right]; omega, fun hlines => by cases hlines⟩
        exact ahead_gap hnext hskip
      · rw [if_neg (by simp [hfeed, hreturn])] at hskip
        rw [if_neg hreturn]
        exact ahead_comment (q := q.right 1) h hskip

end

/-- Inside a token both count alike. -/
theorem ahead_token (h : Ahead δ p q) (raw : List Char) :
    Ahead (δ.acrossToken raw) (p.past raw) (q.past raw) := by
  obtain ⟨hline, hcolumn⟩ := h
  unfold Drift.acrossToken
  split_ifs with hfeed
  · rw [Position.past_of_mem hfeed, Position.past_of_mem hfeed]
    exact ⟨by dsimp only; omega, fun _ => (Int.add_zero _).symm⟩
  · rw [Position.past_of_not_mem hfeed, Position.past_of_not_mem hfeed]
    refine ⟨hline, fun hlines => ?_⟩
    have := hcolumn hlines
    dsimp only
    omega

/-! ### Along the tokens of a text -/

/-- The characters of tokens and of what stands before each of them. -/
def chars (list : List (List Char × Cut)) : List Char := list.flatMap fun x => x.1 ++ x.2.raw

theorem chars_concat (list : List (List Char × Cut)) (x : List Char × Cut) :
    chars (list ++ [x]) = chars list ++ x.1 ++ x.2.raw := by
  simp [chars]

/-- A name in a text, its positions for the reader and for the search, and the drift between the
two. -/
structure NameAt (text : List Char) (name : String) (δ : Drift) (p q : Position) : Prop where
  place : ∃ earlier before rest later,
    cuts text = earlier ++ (before, ⟨.name name, name.toList, rest⟩) :: later ∧
    text = chars earlier ++ (before ++ (name.toList ++ rest)) ∧
    (lex text)[earlier.length]? = some ⟨.name name, p⟩ ∧
    q = Position.start.past (chars earlier ++ before) ∧
    δ = (Drift.zero.across earlier).acrossGap before
  ahead : Ahead δ p q

/-- A place between two tokens of a text that both have come to. -/
structure Reached (text : List Char) (earlier : List (List Char × Cut)) (p q : Position)
    (cs : List Char) : Prop where
  cuts : cuts text = earlier ++ cuts cs
  chars : text = chars earlier ++ cs
  lexemes : ∃ ts : List Lexeme, lex text = ts ++ lexFrom p cs ∧ ts.length = earlier.length
  position : q = Position.start.past (Token.chars earlier)
  ahead : Ahead (Drift.zero.across earlier) p q

theorem reached_start (text : List Char) : Reached text [] Position.start Position.start text :=
  ⟨rfl, rfl, ⟨[], rfl, rfl⟩, rfl, ⟨rfl, fun _ => rfl⟩⟩

/-- Both go on past the next token. -/
theorem Reached.step {earlier : List (List Char × Cut)} {cs : List Char} {cut : Cut}
    (h : Reached text earlier p q cs) (hnext : next? cs = some cut) :
    ∃ r, lexFrom p cs = ⟨cut.token, r⟩ :: lexFrom (r.past cut.raw) cut.rest ∧
      Ahead ((Drift.zero.across earlier).acrossGap (gap cs)) r (q.past (gap cs)) ∧
      Reached text (earlier ++ [(gap cs, cut)]) (r.past cut.raw)
        ((q.past (gap cs)).past cut.raw) cut.rest := by
  obtain ⟨r, c, after, hskip, hcut, hlex⟩ := lexFrom_of_some hnext p
  have hcs : gap cs ++ c :: after = cs := by
    have hafter := skipGap_snd p cs
    rw [hskip] at hafter
    exact (congrArg (gap cs ++ ·) hafter).trans (gap_append cs)
  have hahead : Ahead ((Drift.zero.across earlier).acrossGap (gap cs)) r (q.past (gap cs)) := by
    have hgap : skipGap p (gap cs ++ c :: after) = (r, c :: after) := by rw [hcs, hskip]
    exact ahead_gap h.ahead hgap
  refine ⟨r, hlex, hahead, ?_, ?_, ?_, ?_, ?_⟩
  · rw [h.cuts, cuts_of_some hnext]
    simp
  · rw [chars_concat, List.append_assoc, List.append_assoc, hcut, hcs]
    exact h.chars
  · obtain ⟨ts, hts, hlength⟩ := h.lexemes
    exact ⟨ts ++ [⟨cut.token, r⟩], by rw [hts, hlex]; simp, by simp [hlength]⟩
  · rw [chars_concat, Position.past_append, Position.past_append, ← h.position]
  · rw [Drift.across_concat]
    exact ahead_token hahead cut.raw

/-- The reader and the search have the same names, with the drift between their positions. -/
theorem moved_lexFrom {earlier : List (List Char × Cut)} {cs : List Char}
    (h : Reached text earlier p q cs) :
    List.Forall₂ (RepeatedField.Moved fun name p q => ∃ δ, NameAt text name δ p q) (lexFrom p cs)
      (place q (cuts cs)) := by
  induction cs using cuts.induct generalizing earlier p q with
  | case1 cs hnone =>
    rw [lexFrom_of_none hnone, cuts_of_none hnone]
    exact .nil
  | case2 cs cut hsome _ ih =>
    obtain ⟨r, hlex, hahead, hreached⟩ := h.step hsome
    rw [hlex, cuts_of_some hsome]
    refine .cons ⟨rfl, fun name hname => ⟨_, ?_, hahead⟩⟩ (ih hreached)
    obtain ⟨token, raw, rest⟩ := cut
    obtain rfl : token = .name name := hname
    obtain rfl : raw = name.toList := by
      rcases next?_cases hsome with ⟨-, hspelled⟩ | ⟨-, hunknown⟩
      · obtain ⟨_, _, -, -, -, -, hraw⟩ := hspelled.of_name
        rw [hraw, String.toList_ofList]
      · cases hunknown
    obtain ⟨ts, hts, hlength⟩ := h.lexemes
    refine ⟨earlier, gap cs, rest, cuts rest, ?_, ?_, ?_, ?_, rfl⟩
    · rw [h.cuts, cuts_of_some hsome]
    · rw [hreached.chars, chars_concat]
      simp
    · rw [hts, hlex, ← hlength]
      simp
    · rw [Position.past_append, ← h.position]

theorem NameAt.eq_iff {name : String} (h : NameAt text name δ p q) : p = q ↔ δ = .zero :=
  h.ahead.eq_iff

/-- Without tabs, carriage returns and byte order marks between tokens there is no drift. -/
theorem NameAt.eq_of_plain {name : String} (h : NameAt text name δ p q)
    (hplain : ∀ x ∈ cuts text, Drift.isPlain x.1 = true) : p = q := by
  obtain ⟨earlier, before, rest, later, hcuts, -, -, -, hdrift⟩ := h.place
  rw [hcuts, List.forall_mem_append, List.forall_mem_cons] at hplain
  rw [h.eq_iff, hdrift, Drift.zero_across hplain.1, Drift.zero_acrossGap hplain.2.1]

end Token

end GraphQLCheck
