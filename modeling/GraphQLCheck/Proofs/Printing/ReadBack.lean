import GraphQLCheck.Proofs.Printing.Readable

/-!
# Literals that are read back

The text of a literal without floats is read as that literal, wherever it stands. What follows it must
not go on with its last token: a letter would go on with a name, a digit with a number, and after the
two marks of an empty string a third one would open a block string (`Literal.EndsBefore`). Inside a
literal there are only commas, colons and closing brackets after a part.

## What is proved

* `lexeme?_name`, `lexeme?_intChars`, `lexeme?_quotedChars` — the tokens of names, numbers and strings
  are cut off their texts.
* `many_joined` — parts between commas are read one after another.
* `Literal.Fits.reads` — the text of a literal is read as the literal.
-/

namespace GraphQLCheck

/-! ### Tokens at the start of a text -/

namespace Token

theorem lexFrom_congr {p q : Position} {cs cs' : List Char} (h : skipGap p cs = skipGap q cs') :
    lexFrom p cs = lexFrom q cs' := by
  rw [lexFrom_eq, lexFrom_eq q, h]

theorem lexFrom_blank {c : Char} (hc : c ∈ blanks) (p : Position) (cs : List Char) :
    ∃ q, lexFrom p (c :: cs) = lexFrom q cs := by
  obtain ⟨q, hq⟩ := skipGap_blank hc p cs
  exact ⟨q, lexFrom_congr hq⟩

/-- No token starts with a character that stands between tokens. -/
theorem not_gap_of_lexeme? {c : Char} {cs : List Char} {cut : Cut}
    (h : lexeme? (c :: cs) = some cut) : c ∉ blanks ∧ c ≠ '#' := by
  constructor
  · intro hc
    simp only [blanks, List.mem_cons, List.not_mem_nil, or_false] at hc
    rcases hc with rfl | rfl | rfl | rfl | rfl | rfl <;> cases h
  · rintro rfl
    cases h

theorem skipGap_of_lexeme? {text : List Char} {cut : Cut} (h : lexeme? text = some cut)
    (p : Position) : skipGap p text = (p, text) := by
  cases text with
  | nil => cases h
  | cons c cs =>
    obtain ⟨hblank, hcomment⟩ := not_gap_of_lexeme? h
    exact skipGap_token hblank hcomment p cs

/-- A text that starts with a token is read from that token on. -/
theorem lexFrom_token {text : List Char} {cut : Cut} (h : lexeme? text = some cut) (p : Position) :
    lexFrom p text = ⟨cut.token, p⟩ :: lexFrom (p.past cut.raw) cut.rest := by
  rw [lexFrom_eq, skipGap_of_lexeme? h]
  cases text with
  | nil => cases h
  | cons c cs => simp only [h]

theorem lexeme?_mark {c : Char} {m : Punctuator} (h : punctuator? c = some m) (cs : List Char) :
    lexeme? (c :: cs) = some ⟨.punctuator m, [c], cs⟩ := by
  unfold punctuator? at h
  split at h <;> cases h <;> rfl

theorem lexFrom_mark {c : Char} {m : Punctuator} (h : punctuator? c = some m) (p : Position)
    (cs : List Char) : lexFrom p (c :: cs) = ⟨.punctuator m, p⟩ :: lexFrom (p.past [c]) cs :=
  lexFrom_token (lexeme?_mark h cs) p

/-! ### Names, numbers and strings -/

/-- What follows a text does not go on with it. -/
def Stops (p : Char → Bool) (rest : List Char) : Prop := ∀ c ∈ rest.head?, p c = false

theorem takeWhile_of_stops {p : Char → Bool} {cs rest : List Char} (hcs : ∀ c ∈ cs, p c = true)
    (hrest : Stops p rest) :
    (cs ++ rest).takeWhile p = cs ∧ (cs ++ rest).dropWhile p = rest := by
  rw [List.takeWhile_append_of_pos hcs, List.dropWhile_append_of_pos hcs]
  cases rest with
  | nil => exact ⟨List.append_nil cs, rfl⟩
  | cons c rest =>
    have hc : ¬ p c = true := by simp [hrest c rfl]
    rw [List.takeWhile_cons_of_neg hc, List.dropWhile_cons_of_neg hc]
    exact ⟨List.append_nil cs, rfl⟩

/-- A text that starts with no dot, quotation mark or punctuator starts with a name or a number. -/
theorem lexeme?_cons {c : Char} (hdot : c ≠ '.') (hquote : c ≠ '"') (hmark : punctuator? c = none)
    (cs : List Char) :
    lexeme? (c :: cs) =
      if startsName c then some (cutName c cs)
      else if c = '-' ∨ c.isDigit then cutNumber? c cs
      else none := by
  rw [lexeme?, hmark]
  · exact fun _ h => absurd h hdot
  · exact fun _ h => absurd h hquote
  · exact hquote

theorem lexeme?_name {cs rest : List Char} (h : IsName cs) (hrest : Stops continuesName rest) :
    lexeme? (cs ++ rest) = some ⟨.name (String.ofList cs), cs, rest⟩ := by
  obtain ⟨c, tail, rfl, hc⟩ := h.first
  obtain ⟨htake, hdrop⟩ := takeWhile_of_stops
    (fun x hx => h.continues x (List.mem_cons_of_mem c hx)) hrest
  have hne {d : Char} (hd : startsName d = false) : c ≠ d := by
    rintro rfl
    rw [hd] at hc
    cases hc
  have hmark : punctuator? c = none := by
    cases hm : punctuator? c with
    | none => rfl
    | some m => exact absurd rfl (hne (RepeatedField.startsName_of_punctuator? hm))
  rw [List.cons_append, lexeme?_cons (hne rfl) (hne rfl) hmark, if_pos hc, cutName, htake, hdrop]

theorem lexeme?_number {c : Char} {cs rest : List Char} {token : Token}
    (hc : c = '-' ∨ c.isDigit = true) (htoken : number? (c :: cs) = some token)
    (hcs : ∀ x ∈ cs, continuesNumber x = true) (hrest : Stops continuesNumber rest) :
    lexeme? (c :: cs ++ rest) = some ⟨token, c :: cs, rest⟩ := by
  obtain ⟨htake, hdrop⟩ := takeWhile_of_stops hcs hrest
  have hne {d : Char} (hd : ¬ (d = '-' ∨ d.isDigit = true)) : c ≠ d := by
    rintro rfl
    exact hd hc
  have hmark : punctuator? c = none := by
    cases hm : punctuator? c with
    | none => rfl
    | some m =>
      unfold punctuator? at hm
      split at hm <;> cases hm <;> exact absurd hc (by decide)
  have hname : ¬ startsName c = true := by simp [(RepeatedField.bracketsAfter_number hc []).2]
  rw [List.cons_append, lexeme?_cons (hne (by decide)) (hne (by decide)) hmark, if_neg hname,
    if_pos hc, cutNumber?, htake, hdrop, htoken]
  rfl

theorem continuesNumber_of_isDigit {c : Char} (hc : c.isDigit = true) : continuesNumber c = true := by
  by_contra h
  have hmem : c ∈ numberEnds := by simpa [continuesNumber] using h
  have hends : numberEnds.all (!Char.isDigit ·) = true := by decide
  have hnot := List.all_eq_true.mp hends c hmem
  rw [hc] at hnot
  cases hnot

theorem splitLast_eq_none {p : Char → Bool} {cs : List Char} (h : ∀ c ∈ cs, p c = false) :
    splitLast p cs = none := by
  induction cs with
  | nil => rfl
  | cons c cs ih =>
    rw [splitLast, ih fun x hx => h x (List.mem_cons_of_mem c hx)]
    simp [h c List.mem_cons_self]

/-- A whole number is read back. -/
theorem number?_intChars {n : ℤ} (hn : Is64Bit n) : number? (intChars n) = some (.int n) := by
  have hplain := Numeral.plain_toDigits n.natAbs
  -- There is neither a point nor the mark of an exponent in it.
  have hsplit {p : Char → Bool} (hsign : p '-' = false)
      (hdigit : ∀ c : Char, c.isDigit = true → p c = false) : splitLast p (intChars n) = none := by
    refine splitLast_eq_none fun c hc => ?_
    unfold intChars at hc
    split_ifs at hc
    · rcases List.mem_cons.mp hc with rfl | hc
      · exact hsign
      · exact hdigit c (hplain.digits c hc)
    · exact hdigit c (hplain.digits c hc)
  have hexponent : splitLast (fun c => c = 'e' ∨ c = 'E') (intChars n) = none := by
    refine hsplit (by decide) fun c hc => decide_eq_false ?_
    rintro (rfl | rfl) <;> cases hc
  have hpoint : splitLast (· = '.') (intChars n) = none := by
    refine hsplit (by decide) fun c hc => decide_eq_false ?_
    rintro rfl
    cases hc
  have hdigits : wholeDigits? (Nat.toDigits 10 n.natAbs) = some (Nat.toDigits 10 n.natAbs) := by
    have hall : digits? (Nat.toDigits 10 n.natAbs) = some (Nat.toDigits 10 n.natAbs) := by
      rw [digits?, if_pos ⟨by simp, List.all_eq_true.mpr hplain.digits⟩]
    unfold wholeDigits?
    split
    · rfl
    · rename_i rest hlong heq
      exact absurd (hplain.head rest heq) hlong
    · exact hall
  have hwhole : whole? (intChars n) = some (decide (n < 0), Nat.toDigits 10 n.natAbs) := by
    unfold intChars
    split_ifs with hneg
    · simp [whole?, hdigits, hneg]
    · rw [whole?, hdigits]
      · simp [hneg]
      · intro rest heq
        exact hplain.unsigned [] rest (by rw [List.append_nil, heq])
  have hvalue : natOfDigits 0 (Nat.toDigits 10 n.natAbs) = n.natAbs :=
    Numeral.ofDigits_toDigits n.natAbs
  rw [number?, hexponent, hpoint, hwhole]
  simp only [Option.bind_eq_bind, Option.bind_some, intOf, hvalue]
  have hsigned : (if decide (n < 0) = true then -(n.natAbs : ℤ) else n.natAbs) = n := by
    split_ifs with h <;> simp at h <;> omega
  rw [hsigned]
  exact if_pos hn

theorem lexeme?_intChars {n : ℤ} {rest : List Char} (hn : Is64Bit n)
    (hrest : Stops continuesNumber rest) :
    lexeme? (intChars n ++ rest) = some ⟨.int n, intChars n, rest⟩ := by
  have htoken := number?_intChars hn
  have hplain := Numeral.plain_toDigits n.natAbs
  have hcontinues : ∀ x ∈ Nat.toDigits 10 n.natAbs, continuesNumber x = true :=
    fun x hx => continuesNumber_of_isDigit (hplain.digits x hx)
  unfold intChars at htoken ⊢
  split_ifs at htoken ⊢
  · exact lexeme?_number (.inl rfl) htoken hcontinues hrest
  · obtain ⟨c, cs, heq⟩ := List.exists_cons_of_ne_nil hplain.ne_nil
    rw [heq] at htoken hcontinues ⊢
    have hc : c.isDigit = true := hplain.digits c (heq ▸ List.mem_cons_self)
    exact lexeme?_number (.inr hc) htoken (List.forall_mem_cons.mp hcontinues).2 hrest

/-- A string is read back, if no third quotation mark follows an empty one. -/
theorem lexeme?_quotedChars (text : List Char) {rest : List Char} (hrest : Stops (· = '"') rest) :
    lexeme? (quotedChars text ++ rest) =
      some ⟨.string (String.ofList text), quotedChars text, rest⟩ := by
  have hbody : quotedChars text ++ rest = '"' :: (text.flatMap escapedChar ++ '"' :: rest) := by
    rw [quotedChars, List.cons_append, List.append_assoc, List.singleton_append]
  have hblock : ∀ other, text.flatMap escapedChar ++ '"' :: rest ≠ '"' :: '"' :: other := by
    intro other heq
    cases text with
    | nil =>
      have hquote := hrest '"' (by rw [(List.cons.inj heq).2]; rfl)
      cases hquote
    | cons c text =>
      rw [List.flatMap_cons] at heq
      rcases escapedChar_cases c with ⟨k, hk, -⟩ | ⟨hc, hquote, -⟩
      · rw [hk] at heq
        cases heq
      · rw [hc] at heq
        exact hquote (List.cons.inj heq).1
  rw [hbody, lexeme?, cutString?, closeString_escaped]
  · simp only [Option.bind_eq_bind, Option.bind_some, unescape_escaped]
    rfl
  · exact fun other heq => hblock other heq

end Token

open Token

/-! ### What may follow -/

/-- What may follow the text of a literal without parts. -/
def Atom.EndsBefore (rest : List Char) : Atom → Prop
  | var _ | bool _ | null | enum _ => Stops continuesName rest
  | int _ | float _ => Stops continuesNumber rest
  | string _ => Stops (· = '"') rest

namespace Literal

/-- What may follow the text of a literal. -/
def EndsBefore (rest : List Char) : Literal → Prop
  | atom value => value.EndsBefore rest
  | list _ | object _ => True

/-- There is no float in a literal. -/
def FloatFree : Literal → Prop := All (fun a => ∀ x, a ≠ .float x) fun _ => True

end Literal

theorem Ended.stops {p : Char → Bool} (hcomma : p ',' = false) (hbracket : p ']' = false)
    (hbrace : p '}' = false) {rest : List Char} (h : Ended rest) : Stops p rest := by
  intro c hc
  rcases endsLiteral_cases (h c hc) with rfl | rfl | rfl
  · exact hcomma
  · exact hbracket
  · exact hbrace

theorem Ended.endsBefore {rest : List Char} (h : Ended rest) (l : Literal) : l.EndsBefore rest := by
  cases l with
  | list _ | object _ => trivial
  | atom a =>
    cases a with
    | var _ | bool _ | null | enum _ => exact h.stops (by decide) (by decide) (by decide)
    | int _ | float _ => exact h.stops (by decide) (by decide) (by decide)
    | string _ => exact h.stops (by decide) (by decide) (by decide)

namespace Reader

/-! ### Literals without parts -/

variable {constant : Bool} {depth : ℕ} {ts rest : List Lexeme}

theorem atom_var (p q : Position) (text : String) :
    atom false (⟨.punctuator .dollar, p⟩ :: ⟨.name text, q⟩ :: ts) = .ok (.var text, ts) := rfl

theorem atom_word (p : Position) (word : String) :
    atom constant (⟨.name word, p⟩ :: ts) = .ok (.ofWord word, ts) := by
  by_cases htrue : word = "true"
  · subst htrue
    rfl
  by_cases hfalse : word = "false"
  · subst hfalse
    rfl
  by_cases hnull : word = "null"
  · subst hnull
    rfl
  rw [Atom.ofWord, if_neg htrue, if_neg hfalse, if_neg hnull, atom, bind_eq_ok]
  refine ⟨_, _, rfl, ?_⟩
  simp only
  rfl

theorem atom_value {token : Token} {a : Atom} (h : token.atom? = some a) (p : Position) :
    atom constant (⟨token, p⟩ :: ts) = .ok (a, ts) := by
  cases token with
  | int _ | float _ | string _ =>
    cases h
    rfl
  | punctuator _ | name _ | uncut _ | unknown => cases h

/-- The text of a literal without parts is read as that literal. -/
theorem atom_toChars {a : Atom} (h : a.Fits constant) (hfloat : ∀ x, a ≠ .float x)
    {after : List Char} (hafter : a.EndsBefore after) (p : Position) :
    ∃ q, atom constant (lexFrom p (a.toChars ++ after)) = .ok (a, lexFrom q after) := by
  by_cases hletter : Opening.ofAtom a = .letter
  · obtain ⟨word, hname, htext, rfl⟩ := Atom.exists_word h.readable hletter
    have hstops : Stops continuesName after := by
      unfold Atom.ofWord at hafter
      split_ifs at hafter <;> exact hafter
    rw [htext, lexFrom_token (lexeme?_name hname hstops), String.ofList_toList, atom_word]
    exact ⟨_, rfl⟩
  · cases a with
    | var text =>
      obtain ⟨rfl, hname⟩ := h
      rw [Atom.toChars, List.cons_append, lexFrom_mark rfl,
        lexFrom_token (lexeme?_name hname hafter), String.ofList_toList, atom_var]
      exact ⟨_, rfl⟩
    | int n =>
      rw [Atom.toChars, lexFrom_token (lexeme?_intChars h hafter), atom_value rfl]
      exact ⟨_, rfl⟩
    | float x => exact absurd rfl (hfloat x)
    | string text =>
      rw [Atom.toChars, lexFrom_token (lexeme?_quotedChars text.toList hafter),
        String.ofList_toList, atom_value rfl]
      exact ⟨_, rfl⟩
    | bool _ | null | enum _ => exact absurd rfl hletter

/-! ### Parts between commas -/

/-- What is read starts with a token of a kind, and takes that token at least. -/
def Begins {α : Type} (starts : Token → Bool) (r : Reader α) : Prop :=
  ∀ ⦃ts a rest⦄, r ts = .ok (a, rest) →
    ∃ t after, ts = t :: after ∧ starts t.token = true ∧ rest.length ≤ after.length

theorem many_cons {α : Type} {starts : Token → Bool} {item : Reader α} (hbegins : Begins starts item)
    {a : α} {as : List α} {mid : List Lexeme} (hitem : item ts = .ok (a, mid))
    (hmany : many starts item mid = .ok (as, rest)) : many starts item ts = .ok (a :: as, rest) := by
  obtain ⟨t, after, rfl, hstarts, hlength⟩ := hbegins hitem
  exact many_next hstarts hitem hlength hmany

theorem length_many {α : Type} {starts : Token → Bool} {item : Reader α} {kind : Token → Bool}
    (hbegins : Begins kind item) {as : List α} (h : many starts item ts = .ok (as, rest)) :
    rest.length ≤ ts.length := by
  induction as generalizing ts with
  | nil =>
    rcases many_cases h with ⟨-, rfl⟩ | ⟨a, as', mid, heq, -⟩
    · exact le_rfl
    · cases heq
  | cons a as ih =>
    rcases many_cases h with ⟨heq, -⟩ | ⟨a', as', mid, heq, hitem, hmany⟩
    · cases heq
    · cases heq
      obtain ⟨t, after, rfl, -, hlength⟩ := hbegins hitem
      exact (ih hmany).trans (hlength.trans (Nat.le_succ _))

/-- Between two parts there are a comma and a blank. -/
theorem lexFrom_continued (p : Position) (texts : List (List Char)) (tail : List Char) :
    ∃ q, lexFrom p (continued texts ++ tail) = lexFrom q (joined texts ++ tail) := by
  cases texts with
  | nil => exact ⟨p, rfl⟩
  | cons text texts =>
    obtain ⟨q, hq⟩ := lexFrom_blank (c := ',') (by decide) p (' ' :: (joined (text :: texts) ++ tail))
    obtain ⟨q', hq'⟩ := lexFrom_blank (c := ' ') (by decide) q (joined (text :: texts) ++ tail)
    exact ⟨q', hq.trans hq'⟩

/-- Parts between commas are read one after another, up to the closing bracket. -/
theorem many_joined {α β : Type} {starts : Token → Bool} {item : Reader α} {print : β → List Char}
    {R : α → β → Prop} (close : Char) {m : Punctuator} (hclose : punctuator? close = some m)
    (hends : endsLiteral close = true) (hstop : starts (.punctuator m) = false)
    (hbegins : Begins starts item) {xs : List β}
    (hread : ∀ x ∈ xs, ∀ p after, Ended after →
      ∃ a q, item (lexFrom p (print x ++ after)) = .ok (a, lexFrom q after) ∧ R a x)
    (p : Position) (tail : List Char) :
    ∃ as q, many starts item (lexFrom p (joined (xs.map print) ++ close :: tail)) =
      .ok (as, ⟨.punctuator m, q⟩ :: lexFrom (q.past [close]) tail) ∧ List.Forall₂ R as xs := by
  induction xs generalizing p with
  | nil =>
    refine ⟨[], p, ?_, .nil⟩
    change many starts item (lexFrom p (close :: tail)) = _
    rw [lexFrom_mark hclose, many_stop hstop]
  | cons x xs ih =>
    have hended : Ended (continued (xs.map print) ++ close :: tail) := ended_continued hends _
    obtain ⟨a, q, hitem, ha⟩ := hread x List.mem_cons_self p _ hended
    obtain ⟨q', hq'⟩ := lexFrom_continued q (xs.map print) (close :: tail)
    obtain ⟨as, r, hmany, has⟩ := ih (fun y hy => hread y (List.mem_cons_of_mem x hy)) q'
    rw [List.map_cons, joined_cons, List.append_assoc]
    rw [hq'] at hitem
    exact ⟨a :: as, r, many_cons hbegins hitem hmany, .cons ha has⟩

/-! ### Literals -/

theorem begins_atom (constant : Bool) :
    Begins (fun token => !isMark .closeBracket token) (atom constant) := by
  intro ts a rest hread
  rcases atom_cases hread with
    ⟨p, q, text, -, -, rfl⟩ | ⟨p, text, -, rfl⟩ | ⟨p, token, hvalue, -, rfl⟩
  · exact ⟨_, _, rfl, rfl, Nat.le_succ _⟩
  · exact ⟨_, _, rfl, rfl, le_rfl⟩
  · refine ⟨_, _, rfl, ?_, le_rfl⟩
    cases token <;> first | rfl | cases hvalue

theorem begins_objectField {kind : Token → Bool} {value : Reader Written} (h : Begins kind value) :
    Begins (fun token => !isMark .closeBrace token) (objectField value) := by
  rintro ts ⟨field, w⟩ rest hread
  obtain ⟨q, mid, rfl, hvalue⟩ := objectField_eq_ok hread
  obtain ⟨t, after, rfl, -, hlength⟩ := h hvalue
  refine ⟨_, _, rfl, rfl, ?_⟩
  simp only [List.length_cons]
  omega

theorem begins_written (constant : Bool) (depth : ℕ) :
    Begins (fun token => !isMark .closeBracket token) (written constant depth) := by
  induction depth using Nat.strongRecOn with
  | _ depth ih =>
    intro ts w rest hread
    rcases written_cases hread with ⟨a, rfl, hatom⟩ |
      ⟨inner, p, q, mid, items, rfl, rfl, rfl, hmany⟩ |
      ⟨inner, p, q, mid, fields, rfl, rfl, rfl, hmany⟩
    · exact begins_atom constant hatom
    · have hlength := length_many (ih inner (Nat.lt_succ_self inner)) hmany
      exact ⟨_, _, rfl, rfl, (Nat.le_succ _).trans hlength⟩
    · have hfield := begins_objectField (ih inner (Nat.lt_succ_self inner))
      exact ⟨_, _, rfl, rfl, (Nat.le_succ _).trans (length_many hfield hmany)⟩

theorem written_atom {a : Atom} (h : atom constant ts = .ok (a, rest)) :
    written constant depth ts = .ok (.atom a, rest) := by
  have hread : (do return .atom (← atom constant) : Reader Written) ts = .ok (.atom a, rest) :=
    bind_eq_ok.mpr ⟨a, rest, h, rfl⟩
  cases depth with
  | zero => exact hread
  | succ depth =>
    -- No bracket comes next.
    have hmark : ∀ m, ts.head?.map (·.token) = some (.punctuator m) → m = .dollar := by
      intro m hm
      rcases atom_cases h with
        ⟨p, q, text, -, -, rfl⟩ | ⟨p, text, -, rfl⟩ | ⟨p, token, hvalue, -, rfl⟩
      · cases hm
        rfl
      · cases hm
      · cases hm
        cases hvalue
    rw [written, bind_eq_ok]
    refine ⟨ts.head?.map (·.token), ts, rfl, ?_⟩
    generalize ts.head?.map (·.token) = token? at hmark
    split
    · cases hmark _ rfl
    · cases hmark _ rfl
    · exact hread

theorem written_list {items : List Written} {q : Position} (p : Position)
    (h : many (!isMark .closeBracket ·) (written constant depth) ts =
      .ok (items, ⟨.punctuator .closeBracket, q⟩ :: rest)) :
    written constant (depth + 1) (⟨.punctuator .openBracket, p⟩ :: ts) =
      .ok (.list items, rest) := by
  rw [written, bind_eq_ok]
  refine ⟨some (.punctuator .openBracket), _, rfl, bind_eq_ok.mpr ⟨_, ts, rfl, ?_⟩⟩
  refine bind_eq_ok.mpr ⟨items, _, h, bind_eq_ok.mpr ⟨q, rest, mark_eq_ok.mpr rfl, rfl⟩⟩

theorem written_object {fields : List (FieldName × Written)} {q : Position} (p : Position)
    (h : many (!isMark .closeBrace ·) (objectField (written constant depth)) ts =
      .ok (fields, ⟨.punctuator .closeBrace, q⟩ :: rest)) :
    written constant (depth + 1) (⟨.punctuator .openBrace, p⟩ :: ts) =
      .ok (.object fields, rest) := by
  rw [written, bind_eq_ok]
  refine ⟨some (.punctuator .openBrace), _, rfl, bind_eq_ok.mpr ⟨_, ts, rfl, ?_⟩⟩
  refine bind_eq_ok.mpr ⟨fields, _, h, bind_eq_ok.mpr ⟨q, rest, mark_eq_ok.mpr rfl, rfl⟩⟩

end Reader

namespace Literal

theorem insertField_of_lt {name : String} {value : Literal} {fields : List (String × Literal)}
    (h : ∀ field ∈ fields, field.1 < name) :
    insertField name value fields = fields ++ [(name, value)] := by
  induction fields with
  | nil => rfl
  | cons first rest ih =>
    obtain ⟨hfirst, hrest⟩ := List.forall_mem_cons.mp h
    rw [insertField, if_neg hfirst.not_gt, if_neg hfirst.ne', ih hrest]
    rfl

/-- Sorted fields stay as they are. -/
theorem sortFields_of_pairwise {fields : List (String × Literal)}
    (h : (fields.map (·.1)).Pairwise (· < ·)) : sortFields fields = fields := by
  have hfold (rest sorted : List (String × Literal))
      (h : ((sorted ++ rest).map (·.1)).Pairwise (· < ·)) :
      rest.foldl (fun sorted field => insertField field.1 field.2 sorted) sorted =
        sorted ++ rest := by
    induction rest generalizing sorted with
    | nil => exact (List.append_nil sorted).symm
    | cons field rest ih =>
      have hlast : ∀ other ∈ sorted, other.1 < field.1 := by
        intro other hother
        rw [List.map_append, List.pairwise_append] at h
        exact h.2.2 other.1 (List.mem_map_of_mem hother) field.1 (by simp)
      rw [List.foldl_cons, insertField_of_lt hlast, ih _ (by simpa using h)]
      simp
  exact hfold fields [] h

/-- The text of a field is read as that field, if that of its value is read as the value. -/
theorem objectField_fieldText {value : Reader Written} {field : String × Literal}
    (hname : IsName field.1.toList) {after : List Char}
    (hvalue : ∀ p, ∃ w q, value (lexFrom p (field.2.toChars ++ after)) = .ok (w, lexFrom q after) ∧
      w.toLiteral = field.2) (p : Position) :
    ∃ read q, Reader.objectField value (lexFrom p (fieldText field ++ after)) =
      .ok (read, lexFrom q after) ∧ (read.1.name, read.2.toLiteral) = field := by
  have hcolon : Stops continuesName (':' :: ' ' :: (field.2.toChars ++ after)) := by
    rintro c ⟨⟩
    decide
  have htext : fieldText field ++ after =
      field.1.toList ++ ':' :: ' ' :: (field.2.toChars ++ after) := by
    rw [fieldText, List.append_assoc]
    rfl
  have htokens := lexFrom_token (lexeme?_name hname hcolon) p
  rw [lexFrom_mark rfl, String.ofList_toList] at htokens
  obtain ⟨r, hr⟩ := lexFrom_blank (c := ' ') (by decide)
    ((p.past field.1.toList).past [':']) (field.2.toChars ++ after)
  obtain ⟨w, q, hread, hw⟩ := hvalue r
  refine ⟨(⟨field.1, p⟩, w), q, ?_, Prod.ext rfl hw⟩
  rw [htext, htokens, hr]
  refine Reader.bind_eq_ok.mpr ⟨p, _, rfl, Reader.bind_eq_ok.mpr ⟨field.1, _, rfl, ?_⟩⟩
  exact Reader.bind_eq_ok.mpr ⟨_, _, Reader.mark_eq_ok.mpr rfl,
    Reader.bind_eq_ok.mpr ⟨w, _, hread, rfl⟩⟩

/-- The text of a literal without floats is read as that literal. -/
theorem Fits.reads {constant : Bool} {depth : ℕ} {l : Literal} (h : l.Fits constant depth)
    (hfloat : l.FloatFree) {after : List Char} (hafter : l.EndsBefore after) (p : Position) :
    ∃ w q, Reader.written constant depth (lexFrom p (l.toChars ++ after)) =
      .ok (w, lexFrom q after) ∧ w.toLiteral = l := by
  induction h generalizing after p with
  | @atom depth a ha =>
    cases hfloat with
    | atom hfloat =>
      obtain ⟨q, hread⟩ := Reader.atom_toChars ha hfloat hafter p
      rw [toChars]
      exact ⟨.atom a, q, Reader.written_atom hread, rfl⟩
  | @list depth items _ ih =>
    cases hfloat with
    | list hfloat =>
      obtain ⟨ws, q, hmany, hws⟩ := Reader.many_joined (R := fun w l => w.toLiteral = l) ']' rfl rfl
        rfl (Reader.begins_written constant depth)
        (fun item hitem p after hafter => ih item hitem (hfloat item hitem) (hafter.endsBefore item) p)
        (p.past ['[']) after
      refine ⟨.list ws, q.past [']'], ?_, ?_⟩
      · rw [toChars_list_append, lexFrom_mark rfl]
        exact Reader.written_list p hmany
      · rw [Written.toLiteral, Written.itemLiterals_eq_map]
        have hitems := List.forall₂_map_left_iff.mpr hws
        rw [List.forall₂_eq_eq_eq] at hitems
        rw [hitems]
  | @object depth fields hsorted hnames _ ih =>
    cases hfloat with
    | object _ hfloat =>
      obtain ⟨read, q, hmany, hread⟩ := Reader.many_joined
        (R := fun read field => (read.1.name, read.2.toLiteral) = field)
        '}' rfl rfl rfl
        (Reader.begins_objectField (Reader.begins_written constant depth))
        (fun field hfield p after hafter => objectField_fieldText (hnames field hfield)
          (ih field hfield (hfloat field hfield) (hafter.endsBefore field.2)) p)
        (p.past ['{']) after
      refine ⟨.object read, q.past ['}'], ?_, ?_⟩
      · rw [toChars_object_append, lexFrom_mark rfl]
        exact Reader.written_object p hmany
      · rw [Written.toLiteral, Written.fieldLiterals_eq_map]
        have hfields := List.forall₂_map_left_iff.mpr hread
        rw [List.forall₂_eq_eq_eq] at hfields
        rw [hfields, sortFields_of_pairwise hsorted]

end Literal

end GraphQLCheck
