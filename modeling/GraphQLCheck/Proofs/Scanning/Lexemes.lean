import GraphQLCheck.Proofs.Scanning.Pieces
import Mathlib.Data.List.Forall2
import Mathlib.Data.Prod.Basic

/-!
# The search along lexemes

What the search for repeated fields does at each piece of a text depends on the token only. So it can
be followed along the lexemes (`Scans`), as long as every mark of a variable is followed by a name
that is not taken for a field. The search along the lexemes finds what the search in the text finds,
if no string has a carriage return in it (`scanFrom_of_scans`); and wherever the lexemes are said to
stand, it finds the same repetitions at the positions of the same names (`Scans.relocate`).
-/

namespace GraphQLCheck

namespace Token

/-! ### The tokens of a text and what stands between them -/

/-- The next token of a text. Where no token starts it is an unknown one, up to the end. -/
def next? (cs : List Char) : Option Cut :=
  match afterGap cs with
  | [] => none
  | c :: text => some ((lexeme? (c :: text)).getD ⟨.unknown, c :: text, []⟩)

theorem next?_length {cs : List Char} {cut : Cut} (h : next? cs = some cut) :
    cut.rest.length < cs.length := by
  have hle := (afterGap_suffix cs).length_le
  unfold next? at h
  split at h
  · cases h
  · rename_i c text htext
    rw [htext] at hle
    refine Nat.lt_of_lt_of_le ?_ hle
    cases hlexeme : lexeme? (c :: text) with
    | none =>
      rw [hlexeme] at h
      cases h
      exact Nat.succ_pos _
    | some found =>
      rw [hlexeme] at h
      cases h
      exact lexeme?_length hlexeme

/-- The tokens of a text, each with the characters before it. -/
def cuts (cs : List Char) : List (List Char × Cut) :=
  match h : next? cs with
  | none => []
  | some cut =>
    have : cut.rest.length < cs.length := next?_length h
    (gap cs, cut) :: cuts cut.rest
termination_by cs.length

theorem cuts_of_none {cs : List Char} (h : next? cs = none) : cuts cs = [] := by
  rw [cuts]
  split
  · rfl
  · rename_i cut hcut
    rw [h] at hcut
    cases hcut

theorem cuts_of_some {cs : List Char} {cut : Cut} (h : next? cs = some cut) :
    cuts cs = (gap cs, cut) :: cuts cut.rest := by
  rw [cuts]
  split
  · rename_i hnone
    rw [h] at hnone
    cases hnone
  · rename_i found hfound
    rw [h] at hfound
    cases hfound
    rfl

/-- What is read next depends on what follows the gap. -/
theorem lexFrom_eq (p : Position) (cs : List Char) :
    lexFrom p cs =
      match skipGap p cs with
      | (_, []) => []
      | (q, c :: text) =>
        match lexeme? (c :: text) with
        | none => [⟨.unknown, q⟩]
        | some cut => ⟨cut.token, q⟩ :: lexFrom (q.past cut.raw) cut.rest := by
  rw [lexFrom]
  split
  · rename_i hskip
    simp only [hskip]
  · rename_i q text hne hskip
    cases text with
    | nil => exact (hne rfl).elim
    | cons c text =>
      simp only [hskip]
      split <;> rename_i hlexeme <;> simp only [hlexeme]

theorem lexFrom_nil (p : Position) : lexFrom p [] = [] := by
  rw [lexFrom_eq]
  rfl

/-- Nothing is read where no token is left. -/
theorem lexFrom_of_none {cs : List Char} (h : next? cs = none) (p : Position) :
    lexFrom p cs = [] := by
  have hafter := skipGap_snd p cs
  unfold next? at h
  split at h
  · rename_i hnil
    rw [hnil] at hafter
    rw [lexFrom_eq, ← Prod.mk.eta (p := skipGap p cs), hafter]
  · cases h

/-- The next token is read after the gap, and then the others. -/
theorem lexFrom_of_some {cs : List Char} {cut : Cut} (h : next? cs = some cut) (p : Position) :
    ∃ q c text, skipGap p cs = (q, c :: text) ∧ cut.raw ++ cut.rest = c :: text ∧
      lexFrom p cs = ⟨cut.token, q⟩ :: lexFrom (q.past cut.raw) cut.rest := by
  have hafter := skipGap_snd p cs
  unfold next? at h
  split at h
  · cases h
  · rename_i c text htext
    have hskip : skipGap p cs = ((skipGap p cs).1, c :: text) := by rw [← htext, ← hafter]
    refine ⟨(skipGap p cs).1, c, text, hskip, ?_⟩
    rw [lexFrom_eq, hskip]
    cases hlexeme : lexeme? (c :: text) with
    | none =>
      rw [hlexeme] at h
      cases h
      exact ⟨List.append_nil _, by simp only [hlexeme, Option.getD_none, lexFrom_nil]⟩
    | some found =>
      rw [hlexeme] at h
      cases h
      exact ⟨lexeme?_append hlexeme, by simp only [hlexeme, Option.getD_some]⟩

/-- The tokens of a text are those of its lexemes. -/
theorem map_token_lexFrom (p : Position) (cs : List Char) :
    (lexFrom p cs).map (·.token) = (cuts cs).map (·.2.token) := by
  induction cs using cuts.induct generalizing p with
  | case1 cs hnone =>
    rw [lexFrom_of_none hnone, cuts_of_none hnone]
    rfl
  | case2 cs cut hsome _ ih =>
    obtain ⟨q, c, text, -, -, hlex⟩ := lexFrom_of_some hsome p
    rw [hlex, cuts_of_some hsome, List.map_cons, List.map_cons, ih]

/-- Tokens as lexemes, counting one column for every character. -/
def place (p : Position) : List (List Char × Cut) → List Lexeme
  | [] => []
  | (before, cut) :: rest =>
    ⟨cut.token, p.past before⟩ :: place ((p.past before).past cut.raw) rest

theorem map_token_place (p : Position) (list : List (List Char × Cut)) :
    (place p list).map (·.token) = list.map (·.2.token) := by
  induction list generalizing p with
  | nil => rfl
  | cons x rest ih => rw [place, List.map_cons, List.map_cons, ih]

theorem afterGap_of_next? {cs : List Char} (h : next? cs = none) : afterGap cs = [] := by
  unfold next? at h
  split at h
  · assumption
  · cases h

/-- The next token is cut off the text after the gap, or unknown. -/
theorem next?_cases {cs : List Char} {cut : Cut} (h : next? cs = some cut) :
    (lexeme? (afterGap cs) = some cut ∧ Spelled (afterGap cs) cut) ∨
      (lexeme? (afterGap cs) = none ∧ cut.token = .unknown) := by
  unfold next? at h
  split at h
  · cases h
  · rename_i c text htext
    rw [htext]
    cases hlexeme : lexeme? (c :: text) with
    | none =>
      rw [hlexeme] at h
      cases h
      exact .inr ⟨rfl, rfl⟩
    | some found =>
      rw [hlexeme] at h
      cases h
      exact .inl ⟨rfl, spelled_of_lexeme? hlexeme⟩

/-- Where the first lexeme comes from, if it is a token. -/
theorem exists_spelled {p q : Position} {cs : List Char} {token : Token} {ts : List Lexeme}
    (h : place p (cuts cs) = ⟨token, q⟩ :: ts) (hknown : token ≠ .unknown) :
    ∃ raw rest, Spelled (afterGap cs) ⟨token, raw, rest⟩ ∧ q = p.past (gap cs) ∧
      ts = place (q.past raw) (cuts rest) ∧
      cuts cs = (gap cs, ⟨token, raw, rest⟩) :: cuts rest := by
  cases hnext : next? cs with
  | none =>
    rw [cuts_of_none hnext] at h
    cases h
  | some cut =>
    have hcuts := cuts_of_some hnext
    rw [hcuts] at h
    cases h
    rcases next?_cases hnext with ⟨-, hspelled⟩ | ⟨-, hunknown⟩
    · exact ⟨cut.raw, cut.rest, hspelled, rfl, rfl, hcuts⟩
    · exact absurd hunknown hknown

end Token

namespace RepeatedField

open Token

/-! ### What is done at a lexeme -/

/-- Whether a colon is next. -/
def startsColon (ts : List Lexeme) : Bool := ts.head?.any (·.token = .punctuator .colon)

/-- Note a name, given whether a colon follows it. -/
def noteName (p : Position) (name : String) (colon : Bool) (frames : List Frame) :
    Option RepeatedField × List Frame :=
  match frames with
  | .object seen :: outer =>
    if colon then
      match seen.find? (·.name = name) with
      | some field => (some ⟨name, field.position, p⟩, frames)
      | none => (none, .object (⟨name, p⟩ :: seen) :: outer)
    else (none, frames)
  | _ => (none, frames)

theorem meetName_eq (p : Position) (name : String) (rest : List Char) (frames : List Frame) :
    meetName p name rest frames = noteName p name (significant? rest = some ':') frames := by
  cases frames with
  | nil => rfl
  | cons frame outer =>
    cases frame with
    | object seen =>
      by_cases hcolon : significant? rest = some ':'
      · exact (if_pos hcolon).trans (if_pos (decide_eq_true hcolon)).symm
      · exact (if_neg hcolon).trans (if_neg (mt of_decide_eq_true hcolon)).symm
    | arguments | list | selectionSet => rfl

/-- A name before these lexemes is no field. -/
def Calm (frames : List Frame) (ts : List Lexeme) : Prop :=
  ∀ seen outer, frames = .object seen :: outer → startsColon ts = false

theorem noteName_of_calm {frames : List Frame} {ts : List Lexeme} (h : Calm frames ts)
    (p : Position) (name : String) : noteName p name (startsColon ts) frames = (none, frames) := by
  unfold noteName
  split
  · rename_i seen outer
    rw [h seen outer rfl]
    rfl
  · rfl

/-- The repeated fields that the search finds along lexemes. -/
inductive Scans : List Frame → List Lexeme → List RepeatedField → Prop where
  /-- Nothing is left. -/
  | nil (frames : List Frame) : Scans frames [] []
  /-- A variable is passed over. -/
  | dollar {frames : List Frame} {ts : List Lexeme} {found : List RepeatedField} (p q : Position)
      (name : String) : Calm frames ts → Scans frames ts found →
      Scans frames (⟨.punctuator .dollar, p⟩ :: ⟨.name name, q⟩ :: ts) found
  /-- Any other name is noted. -/
  | name {frames : List Frame} {ts : List Lexeme} {found : List RepeatedField} (p : Position)
      (name : String) : Scans (noteName p name (startsColon ts) frames).2 ts found →
      Scans frames (⟨.name name, p⟩ :: ts)
        ((noteName p name (startsColon ts) frames).1.toList ++ found)
  /-- A punctuator opens or closes brackets. -/
  | mark {frames : List Frame} {ts : List Lexeme} {found : List RepeatedField} {m : Punctuator}
      (p : Position) : m ≠ .dollar → Scans (afterMark m frames) ts found →
      Scans frames (⟨.punctuator m, p⟩ :: ts) found
  /-- A number or a string is passed over. -/
  | value {frames : List Frame} {ts : List Lexeme} {found : List RepeatedField} {token : Token}
      (p : Position) : token.isValue = true → Scans frames ts found →
      Scans frames (⟨token, p⟩ :: ts) found

/-! ### From lexemes to the text -/

theorem eq_of_punctuator? {c d : Char} {m : Punctuator} (hc : punctuator? c = some m)
    (hd : punctuator? d = some m) : c = d := by
  unfold punctuator? at hc
  split at hc <;> cases hc <;>
    (unfold punctuator? at hd; split at hd <;> cases hd; rfl)

/-- A colon is next among the lexemes if it is the next character that counts. -/
theorem startsColon_place (p : Position) (cs : List Char) :
    startsColon (place p (cuts cs)) = decide (significant? cs = some ':') := by
  rw [significant?_eq]
  cases hnext : next? cs with
  | none =>
    rw [cuts_of_none hnext, afterGap_of_next? hnext]
    rfl
  | some cut =>
    have hcolon : cut.token = .punctuator .colon ↔ (afterGap cs).head? = some ':' := by
      rcases next?_cases hnext with ⟨hlexeme, hspelled⟩ | ⟨hlexeme, hunknown⟩
      · constructor
        · intro htoken
          obtain ⟨token, raw, rest⟩ := cut
          obtain rfl := htoken
          rcases hspelled.of_mark with ⟨hm, -, -⟩ | ⟨c, hc, -, htext⟩
          · cases hm
          · rw [htext, eq_of_punctuator? hc (d := ':') rfl]
            rfl
        · intro hhead
          obtain ⟨text, htext⟩ := List.head?_eq_some_iff.mp hhead
          rw [htext] at hlexeme
          cases hlexeme
          rfl
      · rw [hunknown]
        refine iff_of_false (by simp) fun hhead => ?_
        obtain ⟨text, htext⟩ := List.head?_eq_some_iff.mp hhead
        rw [htext] at hlexeme
        cases hlexeme
    rw [cuts_of_some hnext]
    simp [startsColon, place, hcolon]

variable {frames : List Frame} {ts : List Lexeme} {found : List RepeatedField}

/-- The search in a text finds what the search along its lexemes finds. -/
theorem scanFrom_of_scans (h : Scans frames ts found) {p : Position} {cs : List Char}
    (hts : place p (cuts cs) = ts) (hline : ∀ x ∈ cuts cs, breaksLine x.2.raw = false) :
    scanFrom p frames cs = found := by
  induction h generalizing p cs with
  | nil frames =>
    cases hnext : next? cs with
    | none => rw [scanFrom_afterGap, afterGap_of_next? hnext, scanFrom_nil]
    | some cut =>
      rw [cuts_of_some hnext] at hts
      cases hts
  | @dollar frames ts found q q' name hcalm _ ih =>
    obtain ⟨raw, rest, hmark, rfl, hrest, hcuts⟩ := exists_spelled hts (by simp)
    obtain ⟨raw', rest', hname, rfl, rfl, hcuts'⟩ := exists_spelled hrest.symm (by simp)
    rw [hcuts, hcuts', List.forall_mem_cons, List.forall_mem_cons] at hline
    have hignored (q : Position) : meetName q name rest' frames = (none, frames) := by
      rw [meetName_eq, ← startsColon_place]
      exact noteName_of_calm hcalm q name
    rcases hmark.of_mark with ⟨hm, -, -⟩ | ⟨c, hc, rfl, htext⟩
    · cases hm
    · obtain rfl : c = '$' := eq_of_punctuator? hc rfl
      rw [scanFrom_afterGap, htext, scanFrom_variable hname hignored]
      exact ih rfl hline.2.2
  | @name frames ts found q name _ ih =>
    obtain ⟨raw, rest, hname, rfl, rfl, hcuts⟩ := exists_spelled hts (by simp)
    rw [hcuts, List.forall_mem_cons] at hline
    have hcolon := startsColon_place ((p.past (gap cs)).past raw) rest
    rw [scanFrom_afterGap, scanFrom_name hname, meetName_eq, ← hcolon, ih rfl hline.2]
  | mark q hm _ ih =>
    obtain ⟨raw, rest, hmark, rfl, rfl, hcuts⟩ := exists_spelled hts (by simp)
    rw [hcuts, List.forall_mem_cons] at hline
    rw [scanFrom_afterGap, scanFrom_mark hmark hm]
    exact ih rfl hline.2
  | @value frames ts found token q hvalue _ ih =>
    have hknown : token ≠ .unknown := by
      rintro rfl
      cases hvalue
    obtain ⟨raw, rest, hspelled, rfl, rfl, hcuts⟩ := exists_spelled hts hknown
    rw [hcuts, List.forall_mem_cons] at hline
    rw [scanFrom_afterGap, scanFrom_value hspelled hvalue hline.1]
    exact ih rfl hline.2

/-! ### Where the lexemes stand -/

section Relocation

-- Relates the position of a name in one list of lexemes to that in another one.
variable (P : String → Position → Position → Prop)

/-- The same token, at related positions if it is a name. -/
def Moved (t t' : Lexeme) : Prop :=
  t.token = t'.token ∧ ∀ name, t.token = .name name → P name t.position t'.position

/-- The same field name, at related positions. -/
def FieldMoved (field field' : FieldName) : Prop :=
  field.name = field'.name ∧ P field.name field.position field'.position

/-- The same repetition, at related positions. -/
structure EntryMoved (entry entry' : RepeatedField) : Prop where
  name : entry.name = entry'.name
  first : P entry.name entry.first entry'.first
  again : P entry.name entry.again entry'.again

/-- Two brackets with the same names in them, at related positions. -/
inductive Frame.Alike : Frame → Frame → Prop where
  /-- Two parentheses. -/
  | arguments : Alike .arguments .arguments
  /-- Two brackets of lists. -/
  | list : Alike .list .list
  /-- Two braces of object literals. -/
  | object {seen seen' : List FieldName} :
      List.Forall₂ (FieldMoved P) seen seen' → Alike (.object seen) (.object seen')
  /-- Two braces of selection sets. -/
  | selectionSet : Alike .selectionSet .selectionSet

end Relocation

variable {P : String → Position → Position → Prop} {frames' : List Frame} {ts' : List Lexeme}

theorem startsColon_congr (h : List.Forall₂ (Moved P) ts ts') :
    startsColon ts = startsColon ts' := by
  cases h with
  | nil => rfl
  | @cons t t' _ _ ht _ =>
    change decide (t.token = _) = decide (t'.token = _)
    rw [ht.1]

theorem Calm.congr (h : Calm frames ts) (hframes : List.Forall₂ (Frame.Alike P) frames frames')
    (hts : List.Forall₂ (Moved P) ts ts') : Calm frames' ts' := by
  rintro seen outer rfl
  cases hframes with
  | cons hframe _ =>
    cases hframe with
    | object _ => exact (startsColon_congr hts).symm.trans (h _ _ rfl)

/-- A name is found among the fields of one list if it is among those of the other one. -/
theorem find?_moved {seen seen' : List FieldName} (h : List.Forall₂ (FieldMoved P) seen seen')
    (name : String) :
    (seen.find? (·.name = name) = none ∧ seen'.find? (·.name = name) = none) ∨
      ∃ field field', seen.find? (·.name = name) = some field ∧
        seen'.find? (·.name = name) = some field' ∧ P name field.position field'.position := by
  induction h with
  | nil => exact .inl ⟨rfl, rfl⟩
  | @cons field field' seen seen' hfield _ ih =>
    by_cases hname : field.name = name
    · refine .inr ⟨field, field', ?_, ?_, hname ▸ hfield.2⟩
      · rw [List.find?_cons_of_pos (by simpa using hname)]
      · rw [List.find?_cons_of_pos (by simpa [← hfield.1] using hname)]
    · rw [List.find?_cons_of_neg (by simpa using hname),
        List.find?_cons_of_neg (by simpa [← hfield.1] using hname)]
      exact ih

/-- What is done at a name depends on names only, and positions are carried along. -/
theorem alike_noteName (hframes : List.Forall₂ (Frame.Alike P) frames frames') {p p' : Position}
    {name : String} (hp : P name p p') (colon : Bool) :
    List.Forall₂ (EntryMoved P) (noteName p name colon frames).1.toList
        (noteName p' name colon frames').1.toList ∧
      List.Forall₂ (Frame.Alike P) (noteName p name colon frames).2
        (noteName p' name colon frames').2 := by
  have hsame := hframes
  cases hframes with
  | nil => exact ⟨.nil, hsame⟩
  | cons hframe houter =>
    cases hframe with
    | arguments => exact ⟨.nil, hsame⟩
    | list => exact ⟨.nil, hsame⟩
    | selectionSet => exact ⟨.nil, hsame⟩
    | @object seen seen' hseen =>
      cases colon with
      | false => exact ⟨.nil, hsame⟩
      | true =>
        simp only [noteName, if_true]
        rcases find?_moved hseen name with
          ⟨hnone, hnone'⟩ | ⟨field, field', hfound, hfound', hfirst⟩
        · rw [hnone, hnone']
          exact ⟨.nil, .cons (.object (.cons ⟨rfl, hp⟩ hseen)) houter⟩
        · rw [hfound, hfound']
          exact ⟨.cons ⟨rfl, hfirst, hp⟩ .nil, hsame⟩

theorem alike_afterMark (hframes : List.Forall₂ (Frame.Alike P) frames frames') (m : Punctuator) :
    List.Forall₂ (Frame.Alike P) (afterMark m frames) (afterMark m frames') := by
  have hbrace : (Frame.ofBrace frames).Alike P (Frame.ofBrace frames') := by
    cases hframes with
    | nil => exact .selectionSet
    | cons hframe _ =>
      cases hframe with
      | selectionSet => exact .selectionSet
      | arguments => exact .object .nil
      | list => exact .object .nil
      | object _ => exact .object .nil
  have htail : List.Forall₂ (Frame.Alike P) frames.tail frames'.tail := by
    cases hframes with
    | nil => exact .nil
    | cons _ houter => exact houter
  cases m with
  | openParen => exact .cons .arguments hframes
  | openBracket => exact .cons .list hframes
  | openBrace => exact .cons hbrace hframes
  | closeParen | closeBracket | closeBrace => exact htail
  | bang | dollar | colon | equals | atSign | pipe | ampersand | ellipsis => exact hframes

/-- Wherever the lexemes stand, the search finds the same repetitions, at the positions of the same
names. -/
theorem Scans.relocate (h : Scans frames ts found)
    (hframes : List.Forall₂ (Frame.Alike P) frames frames') (hts : List.Forall₂ (Moved P) ts ts') :
    ∃ found', Scans frames' ts' found' ∧ List.Forall₂ (EntryMoved P) found found' := by
  induction h generalizing frames' ts' with
  | nil =>
    cases hts
    exact ⟨[], .nil frames', .nil⟩
  | dollar p q name hcalm _ ih =>
    obtain ⟨⟨_, p'⟩, after, ⟨rfl, -⟩, hafter, rfl⟩ := List.forall₂_cons_left_iff.mp hts
    obtain ⟨⟨_, q'⟩, rest, ⟨rfl, -⟩, hrest, rfl⟩ := List.forall₂_cons_left_iff.mp hafter
    obtain ⟨found', hscans, hfound⟩ := ih hframes hrest
    exact ⟨found', .dollar p' q' name (hcalm.congr hframes hrest) hscans, hfound⟩
  | @name frames ts found p name _ ih =>
    obtain ⟨⟨_, p'⟩, rest, ⟨rfl, hp⟩, hrest, rfl⟩ := List.forall₂_cons_left_iff.mp hts
    obtain ⟨hnoted, hframes'⟩ := alike_noteName hframes (hp name rfl) (startsColon ts)
    obtain ⟨found', hscans, hfound⟩ := ih hframes' hrest
    rw [startsColon_congr hrest] at hnoted hscans
    exact ⟨_, .name p' name hscans, by
      rw [startsColon_congr hrest]
      exact List.rel_append hnoted hfound⟩
  | mark p hm _ ih =>
    obtain ⟨⟨_, p'⟩, rest, ⟨rfl, -⟩, hrest, rfl⟩ := List.forall₂_cons_left_iff.mp hts
    obtain ⟨found', hscans, hfound⟩ := ih (alike_afterMark hframes _) hrest
    exact ⟨found', .mark p' hm hscans, hfound⟩
  | value p hvalue _ ih =>
    obtain ⟨⟨_, p'⟩, rest, ⟨rfl, -⟩, hrest, rfl⟩ := List.forall₂_cons_left_iff.mp hts
    obtain ⟨found', hscans, hfound⟩ := ih hframes hrest
    exact ⟨found', .value p' hvalue hscans, hfound⟩

end RepeatedField

end GraphQLCheck
