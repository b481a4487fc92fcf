import GraphQLCheck.Proofs.Printing.ReadBack

/-!
# Lexemes up to a place

The lexemes of a text up to a place in it, and those from there on (`Passes`). A token is cut off by
its own characters and the one that follows them, so what comes after a place can be exchanged for
something that starts with the same character, and the lexemes before it stay (`Passes.replace`).
After a punctuator anything may come.
-/

namespace GraphQLCheck.Token

/-! ### Gaps -/

mutual

/-- A gap is skipped alike whatever the next token is followed by. -/
theorem skipGap_replace {p q : Position} {cs text : List Char} {c : Char}
    (h : skipGap p cs = (q, c :: text)) :
    ∃ before, cs = before ++ c :: text ∧
      ∀ text', skipGap p (before ++ c :: text') = (q, c :: text') := by
  cases cs with
  | nil => cases h
  | cons d cs =>
    have hstep {p' : Position} (hskip : ∀ cs, skipGap p (d :: cs) = skipGap p' cs) :
        ∃ before, d :: cs = before ++ c :: text ∧
          ∀ text', skipGap p (before ++ c :: text') = (q, c :: text') := by
      rw [hskip] at h
      obtain ⟨before, rfl, hbefore⟩ := skipGap_replace h
      refine ⟨d :: before, rfl, fun text' => ?_⟩
      rw [List.cons_append, hskip, hbefore]
    by_cases hblank : d ∈ blanks
    · simp only [blanks, List.mem_cons, List.not_mem_nil, or_false] at hblank
      rcases hblank with rfl | rfl | rfl | rfl | rfl | rfl <;> exact hstep fun _ => rfl
    · by_cases hcomment : d = '#'
      · subst hcomment
        obtain ⟨before, rfl, hbefore⟩ := skipComment_replace (p := p) h
        exact ⟨'#' :: before, rfl, hbefore⟩
      · rw [skipGap_token hblank hcomment] at h
        cases h
        exact ⟨[], rfl, fun text' => skipGap_token hblank hcomment p text'⟩

theorem skipComment_replace {p q : Position} {cs text : List Char} {c : Char}
    (h : skipComment p cs = (q, c :: text)) :
    ∃ before, cs = before ++ c :: text ∧
      ∀ text', skipComment p (before ++ c :: text') = (q, c :: text') := by
  cases cs with
  | nil => cases h
  | cons d cs =>
    by_cases hline : d = '\n' ∨ d = '\r'
    · have hskip (cs : List Char) : skipComment p (d :: cs) = skipGap p.nextLine cs := by
        rw [skipComment, if_pos hline]
      rw [hskip] at h
      obtain ⟨before, rfl, hbefore⟩ := skipGap_replace h
      refine ⟨d :: before, rfl, fun text' => ?_⟩
      rw [List.cons_append, hskip, hbefore]
    · have hskip (cs : List Char) : skipComment p (d :: cs) = skipComment p cs := by
        rw [skipComment, if_neg hline]
      rw [hskip] at h
      obtain ⟨before, rfl, hbefore⟩ := skipComment_replace h
      refine ⟨d :: before, rfl, fun text' => ?_⟩
      rw [List.cons_append, hskip, hbefore]

end

/-! ### Tokens -/

theorem closeString_replace {escaped : Bool} {cs body rest : List Char}
    (h : closeString escaped cs = some (body, rest)) (rest' : List Char) :
    closeString escaped (body ++ '"' :: rest') = some (body, rest') := by
  induction cs generalizing escaped body with
  | nil => cases h
  | cons c cs ih =>
    rw [closeString] at h
    split_ifs at h with hquote hline
    · cases h
      rw [List.nil_append, closeString, if_pos ⟨rfl, hquote.2⟩]
    · obtain ⟨⟨inner, _⟩, hinner, heq⟩ := Option.map_eq_some_iff.mp h
      cases heq
      rw [List.cons_append, closeString, if_neg hquote, if_neg hline, ih hinner]
      rfl

theorem closeBlock_replace {escaped : Bool} {cs body rest : List Char}
    (h : closeBlock escaped cs = some (body, rest)) (rest' : List Char) :
    closeBlock escaped (body ++ '"' :: '"' :: '"' :: rest') = some (body, rest') := by
  fun_induction closeBlock escaped cs generalizing body rest with
  | case1 => cases h
  | case2 cs ih =>
    obtain ⟨⟨inner, _⟩, hinner, heq⟩ := Option.map_eq_some_iff.mp h
    cases heq
    simp [closeBlock, ih hinner]
  | case3 escaped cs hescaped =>
    cases h
    rw [List.nil_append, closeBlock, if_neg hescaped]
  | case4 escaped c cs hmarks ih =>
    obtain ⟨⟨inner, other⟩, hinner, heq⟩ := Option.map_eq_some_iff.mp h
    cases heq
    rw [List.cons_append, closeBlock, ih hinner]
    · rfl
    · -- The next two characters are those of the text.
      intro after hquote hafter
      obtain rfl := closeBlock_append hinner
      cases inner with
      | nil => exact hmarks _ hquote rfl
      | cons first inner =>
        obtain ⟨rfl, htail⟩ := List.cons.inj hafter
        cases inner with
        | nil => exact hmarks _ hquote rfl
        | cons second inner =>
          obtain ⟨rfl, -⟩ := List.cons.inj htail
          exact hmarks _ hquote rfl

/-- A token is cut off by its own characters and the next one. -/
theorem lexeme?_replace {text : List Char} {cut : Cut} (h : lexeme? text = some cut)
    {rest : List Char} (hrest : rest.head? = cut.rest.head?) :
    lexeme? (cut.raw ++ rest) = some ⟨cut.token, cut.raw, rest⟩ := by
  have hstops {p : Char → Bool} {cs : List Char} (hcs : rest.head? = (cs.dropWhile p).head?) :
      Stops p rest := by
    intro c hc
    have hnot := List.head?_dropWhile_not p cs
    rw [← hcs, hc] at hnot
    exact hnot
  unfold lexeme? at h
  split at h
  · cases h
  · cases h
    rfl
  · simp only [cutBlock?, Option.bind_eq_bind, Option.bind_eq_some_iff] at h
    obtain ⟨⟨body, after⟩, hbody, hcut⟩ := h
    cases hcut
    have happend : ['"', '"', '"'] ++ body ++ ['"', '"', '"'] ++ rest =
        '"' :: '"' :: '"' :: (body ++ '"' :: '"' :: '"' :: rest) := by simp
    rw [happend, lexeme?, cutBlock?, closeBlock_replace hbody]
    rfl
  · rename_i cs hblock
    simp only [cutString?, Option.bind_eq_bind, Option.bind_eq_some_iff] at h
    obtain ⟨⟨body, after⟩, hbody, text, htext, hcut⟩ := h
    cases hcut
    have hcs := (closeString_append hbody).symm
    have happend : '"' :: body ++ ['"'] ++ rest = '"' :: (body ++ '"' :: rest) := by simp
    rw [happend, lexeme?, cutString?, closeString_replace hbody]
    · simp only [Option.bind_eq_bind, Option.bind_some, htext]
      rfl
    · -- No block string starts here, as none started before.
      intro other heq
      subst hcs
      cases body with
      | nil =>
        obtain rfl := (List.cons.inj heq).2
        obtain ⟨more, rfl⟩ := List.head?_eq_some_iff.mp hrest.symm
        exact hblock more rfl
      | cons first body =>
        obtain ⟨rfl, htail⟩ := List.cons.inj heq
        cases body with
        | nil => exact hblock _ rfl
        | cons second body =>
          obtain ⟨rfl, -⟩ := List.cons.inj htail
          exact hblock _ rfl
  · rename_i c cs hdots hmarks hquote
    split at h
    · rename_i m hm
      cases h
      exact lexeme?_mark hm rest
    · split_ifs at h with hname hnumber
      · cases h
        exact lexeme?_name (.cons hname List.all_takeWhile) (hstops hrest)
      · simp only [cutNumber?, Option.bind_eq_bind, Option.bind_eq_some_iff] at h
        obtain ⟨token, htoken, hcut⟩ := h
        cases hcut
        exact lexeme?_number hnumber htoken (fun x hx => List.mem_takeWhile_imp hx) (hstops hrest)

/-! ### Lexemes up to a place -/

/-- A text read from a position on gives lexemes up to a place in it. -/
inductive Passes : Position → List Char → List Lexeme → Position → List Char → Prop where
  /-- Nothing is read. -/
  | stop (p : Position) (cs : List Char) : Passes p cs [] p cs
  /-- A token is read, and then others. -/
  | token {p q r : Position} {cs text rest : List Char} {cut : Cut} {ts : List Lexeme} :
      skipGap p cs = (q, text) → lexeme? text = some cut →
      Passes (q.past cut.raw) cut.rest ts r rest →
      Passes p cs (⟨cut.token, q⟩ :: ts) r rest

section Passes

variable {p q r : Position} {cs rest rest' : List Char} {ts us : List Lexeme}

theorem Passes.lexFrom_eq (h : Passes p cs ts q rest) : lexFrom p cs = ts ++ lexFrom q rest := by
  induction h with
  | stop p cs => rfl
  | @token p q r cs text rest cut ts hskip hlexeme _ ih =>
    have hcs : lexFrom p cs = lexFrom q text :=
      lexFrom_congr (hskip.trans (skipGap_of_lexeme? hlexeme q).symm)
    rw [hcs, lexFrom_token hlexeme, ih]
    rfl

/-- The lexemes before others are those up to a place. -/
theorem exists_passes (h : lexFrom p cs = ts ++ us) (hus : us ≠ []) :
    ∃ q rest, Passes p cs ts q rest ∧ us = lexFrom q rest := by
  induction ts generalizing p cs with
  | nil => exact ⟨p, cs, .stop p cs, h.symm⟩
  | cons t ts ih =>
    rw [lexFrom_eq] at h
    split at h
    · cases h
    · rename_i q c text hskip
      split at h
      · -- An unknown token is the last one.
        have hnil := (List.cons.inj h).2
        exact absurd (List.append_eq_nil_iff.mp hnil.symm).2 hus
      · rename_i cut hlexeme
        obtain ⟨rfl, hmore⟩ := List.cons.inj h
        obtain ⟨r, rest, hpasses, hrest⟩ := ih hmore
        exact ⟨r, rest, .token hskip hlexeme hpasses, hrest⟩

theorem Passes.append (h : Passes p cs ts q rest) (h' : Passes q rest us r rest') :
    Passes p cs (ts ++ us) r rest' := by
  induction h with
  | stop => exact h'
  | token hskip hlexeme _ ih => exact .token hskip hlexeme (ih h')

/-- The gap before a token is skipped alike whatever the token is followed by. -/
theorem skipGap_replace_after {text : List Char} {cut : Cut} (hskip : skipGap p cs = (q, text))
    (hlexeme : lexeme? text = some cut) :
    ∃ blank, cs = blank ++ (cut.raw ++ cut.rest) ∧
      ∀ rest', skipGap p (blank ++ (cut.raw ++ rest')) = (q, cut.raw ++ rest') := by
  obtain ⟨c, raw, hraw⟩ := List.exists_cons_of_ne_nil (lexeme?_raw_ne_nil hlexeme)
  have htext := lexeme?_append hlexeme
  rw [hraw, List.cons_append] at htext
  subst htext
  obtain ⟨blank, hcs, hblank⟩ := skipGap_replace hskip
  rw [hraw]
  exact ⟨blank, hcs, fun rest' => hblank (raw ++ rest')⟩

/-- What comes after a place can be exchanged for something that starts in the same way. -/
theorem Passes.replace (h : Passes p cs ts q rest) :
    ∃ before, cs = before ++ rest ∧
      ∀ rest', rest'.head? = rest.head? → Passes p (before ++ rest') ts q rest' := by
  induction h with
  | stop p cs => exact ⟨[], rfl, fun rest' _ => .stop p rest'⟩
  | @token p q r cs text rest cut ts hskip hlexeme _ ih =>
    obtain ⟨before, hrest, hbefore⟩ := ih
    obtain ⟨blank, hcs, hgap⟩ := skipGap_replace_after hskip hlexeme
    refine ⟨blank ++ (cut.raw ++ before), ?_, fun rest' hhead => ?_⟩
    · rw [hcs, hrest]
      simp
    · have hsame : (before ++ rest').head? = cut.rest.head? := by
        rw [hrest, List.head?_append, List.head?_append, hhead]
      have hcut := lexeme?_replace hlexeme hsame
      rw [List.append_assoc, List.append_assoc]
      have hstep := Passes.token (hgap (before ++ rest')) hcut (hbefore rest' hhead)
      exact hstep

theorem Passes.of_append (h : Passes p cs (ts ++ us) r rest) :
    ∃ q mid, Passes p cs ts q mid ∧ Passes q mid us r rest := by
  induction ts generalizing p cs with
  | nil => exact ⟨p, cs, .stop p cs, h⟩
  | cons t ts ih =>
    cases h with
    | token hskip hlexeme hmore =>
      obtain ⟨q, mid, hfirst, hrest⟩ := ih hmore
      exact ⟨q, mid, .token hskip hlexeme hfirst, hrest⟩

/-- After a punctuator anything may come. -/
theorem Passes.replace_mark {m : Punctuator} {t : Lexeme} (ht : t.token = .punctuator m)
    (h : Passes p cs (ts ++ [t]) q rest) :
    ∃ before, cs = before ++ rest ∧ ∀ rest', Passes p (before ++ rest') (ts ++ [t]) q rest' := by
  obtain ⟨r, mid, hfirst, hlast⟩ := h.of_append
  cases hlast with
  | @token p q r cs text rest cut ts hskip hlexeme hstop =>
    cases hstop
    have hmark (rest' : List Char) :
        lexeme? (cut.raw ++ rest') = some ⟨cut.token, cut.raw, rest'⟩ := by
      obtain ⟨token, raw, after⟩ := cut
      obtain rfl : token = .punctuator m := ht
      rcases (spelled_of_lexeme? hlexeme).of_mark with ⟨rfl, hraw, -⟩ | ⟨c, hc, hraw, -⟩
      · obtain rfl : raw = ['.', '.', '.'] := hraw
        rfl
      · obtain rfl : raw = [c] := hraw
        exact lexeme?_mark hc rest'
    obtain ⟨blank, rfl, hgap⟩ := skipGap_replace_after hskip hlexeme
    obtain ⟨before, rfl, hbefore⟩ := hfirst.replace
    refine ⟨before ++ (blank ++ cut.raw), by simp, fun rest' => ?_⟩
    have hstep := Passes.token (hgap rest') (hmark rest') (.stop _ _)
    have hhead : (blank ++ (cut.raw ++ rest')).head? =
        (blank ++ (cut.raw ++ cut.rest)).head? := by
      obtain ⟨c, raw, hraw⟩ := List.exists_cons_of_ne_nil (lexeme?_raw_ne_nil hlexeme)
      rw [hraw, List.cons_append, List.cons_append, List.head?_append, List.head?_append]
      rfl
    have hpasses := (hbefore _ hhead).append hstep
    simpa only [List.append_assoc] using hpasses

end Passes

end GraphQLCheck.Token
