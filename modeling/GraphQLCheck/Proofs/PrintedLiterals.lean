import GraphQLCheck.Proofs.Printing.Exchange
import GraphQLCheck.Proofs.Printing.Passages

/-!
# Printed literals are read back

The text that is printed for a literal without floats can stand in the place where the literal was
read. The argument there is read with the same value, and the document gives the same arguments as
before, list by list. So printing loses nothing but the way a literal was written: the order of
fields, fields that are given again, and the kind of a string.

## What is proved

* `endsBefore_written` — a literal and its printed text may be followed by the same characters.
* `exists_text` — the place of an argument among the lexemes is a place in the text.
* `printed_literal_read_back` — what is printed for a literal is read as that literal in its place.
-/

namespace GraphQLCheck

open Token

/-! ### What follows a literal -/

namespace Token

/-- What may follow the text of a token. -/
def EndsBefore (rest : List Char) : Token → Prop
  | name _ => Stops continuesName rest
  | int _ | float _ => Stops continuesNumber rest
  | punctuator _ | string _ | uncut _ | unknown => True

theorem stops_dropWhile (p : Char → Bool) (cs : List Char) : Stops p (cs.dropWhile p) := by
  intro c hc
  have hnot := List.head?_dropWhile_not p cs
  rw [hc] at hnot
  exact hnot

/-- A token is cut off as far as it goes. -/
theorem endsBefore_of_lexeme? {text : List Char} {cut : Cut} (h : lexeme? text = some cut) :
    cut.token.EndsBefore cut.rest := by
  unfold lexeme? at h
  split at h
  · cases h
  · cases h
    trivial
  · simp only [cutBlock?, Option.bind_eq_bind, Option.bind_eq_some_iff] at h
    obtain ⟨⟨body, rest⟩, -, hcut⟩ := h
    cases hcut
    dsimp only [blockToken]
    split <;> trivial
  · simp only [cutString?, Option.bind_eq_bind, Option.bind_eq_some_iff] at h
    obtain ⟨⟨body, rest⟩, -, text, -, hcut⟩ := h
    cases hcut
    trivial
  · split at h
    · cases h
      trivial
    · split_ifs at h
      · cases h
        exact stops_dropWhile _ _
      · simp only [cutNumber?, Option.bind_eq_bind, Option.bind_eq_some_iff] at h
        obtain ⟨token, htoken, hcut⟩ := h
        cases hcut
        rcases number?_cases htoken with ⟨whole, fraction, exponent, rfl⟩ | ⟨n, -, rfl⟩
        · exact stops_dropWhile _ _
        · exact stops_dropWhile _ _

/-- The last of some lexemes is cut off right before the place where they end. -/
theorem Passes.endsBefore {p q : Position} {cs rest : List Char} {ts : List Lexeme} {t : Lexeme}
    (h : Passes p cs (ts ++ [t]) q rest) :
    t.token.EndsBefore rest := by
  obtain ⟨r, mid, -, hlast⟩ := h.of_append
  cases hlast with
  | @token _ _ _ _ text _ cut _ _ hlexeme hstop =>
    cases hstop
    exact endsBefore_of_lexeme? hlexeme

/-- Before a name and before a closing parenthesis there is no quote. -/
theorem stops_of_endsArgument {p : Position} {rest : List Char}
    (h : Reader.EndsArgument ((lexFrom p rest).head?.map Lexeme.token)) :
    Stops (· = '"') rest := by
  intro c hc
  obtain ⟨cs, rfl⟩ := List.head?_eq_some_iff.mp hc
  rw [decide_eq_false_iff_not]
  rintro rfl
  obtain ⟨token, htoken, hends⟩ := h
  rw [lexFrom_eq, skipGap_token (by decide) (by decide)] at htoken
  dsimp only at htoken
  split at htoken
  · cases htoken
    rcases hends with ⟨⟨⟩⟩ | hends
    cases hends
  · rename_i cut hlexeme
    cases htoken
    cases spelled_of_lexeme? hlexeme with
    | mark _ hmark => cases hmark
    | name _ hname => cases hname
    | number hc _ _ => rcases hc with hc | hc <;> cases hc
    | string text _ _ => rcases hends with hends | hends <;> cases hends
    | @block _ _ _ token _ hvalue =>
      cases token with
      | punctuator _ | name _ | unknown => cases hvalue
      | int _ | float _ | string _ | uncut _ => rcases hends with hends | hends <;> cases hends

end Token

namespace Reader

theorem atom_of_written {constant : Bool} {depth : ℕ} {ts rest : List Lexeme} {a : Atom}
    (h : written constant depth ts = .ok (.atom a, rest)) : atom constant ts = .ok (a, rest) := by
  rcases written_cases h with ⟨_, heq, hatom⟩ | ⟨_, _, _, _, _, -, heq, -⟩ |
    ⟨_, _, _, _, _, -, heq, -⟩
  · cases heq
    exact hatom
  · cases heq
  · cases heq

/-- The text of a literal that is read may be followed by what has followed it. -/
theorem endsBefore_written {constant : Bool} {depth : ℕ} {p q : Position} {cs tail : List Char}
    {vs : List Lexeme} {w : Written} (hpasses : Passes p cs vs q tail)
    (hread : written constant depth (vs ++ lexFrom q tail) = .ok (w, lexFrom q tail))
    (hnext : EndsArgument ((lexFrom q tail).head?.map Lexeme.token))
    (hfloat : w.toLiteral.FloatFree) : w.toLiteral.EndsBefore tail := by
  cases w with
  | list _ | object _ => trivial
  | atom a =>
    rcases atom_cases (atom_of_written hread) with
      ⟨p₁, p₂, text, -, rfl, heq⟩ | ⟨p₁, text, rfl, heq⟩ | ⟨p₁, token, -, hvalue, heq⟩
    · have hvs : vs = [⟨.punctuator .dollar, p₁⟩] ++ [⟨.name text, p₂⟩] :=
        List.append_cancel_right heq
      subst hvs
      exact hpasses.endsBefore
    · have hvs : vs = [] ++ [⟨.name text, p₁⟩] := List.append_cancel_right heq
      subst hvs
      change (Atom.ofWord text).EndsBefore tail
      unfold Atom.ofWord
      split_ifs <;> exact hpasses.endsBefore
    · have hvs : vs = [] ++ [⟨token, p₁⟩] := List.append_cancel_right heq
      subst hvs
      cases token with
      | int n =>
        cases hvalue
        exact hpasses.endsBefore
      | float x =>
        cases hvalue
        cases hfloat with
        | atom h => exact absurd rfl (h x)
      | string text =>
        cases hvalue
        exact stops_of_endsArgument hnext
      | punctuator _ | name _ | uncut _ | unknown => cases hvalue

end Reader

/-! ### Literals in their places -/

/-- The characters of `head` end with a colon after a name, whatever comes next: the lexemes are
some, the name and the colon, and then those of what comes, read from `m` on. -/
def Heads (head : List Char) (before : List Lexeme) (name : Lexeme) (q m : Position) : Prop :=
  ∀ cs, Passes Position.start (head ++ cs) (before ++ [name] ++ [⟨.punctuator .colon, q⟩]) m cs

theorem Heads.lex_eq {head : List Char} {before : List Lexeme} {name : Lexeme} {q m : Position}
    (h : Heads head before name q m) (cs : List Char) :
    lex (head ++ cs) = before ++ name :: ⟨.punctuator .colon, q⟩ :: lexFrom m cs := by
  rw [lex, (h cs).lexFrom_eq, List.append_assoc, List.append_assoc]
  rfl

/-- The place of an argument among the lexemes of a text is a place in the text. -/
theorem Reader.Slot.Holds.exists_text {α γ : Type} {s : Slot} {v : α → γ} {r : Reader α} {x : α}
    {a : Argument} {text : List Char} {rest : List Lexeme} (h : s.Holds v r x a (lex text) rest) :
    ∃ head raw tail p q m vs k, text = head ++ (raw ++ tail) ∧
      s.name = ⟨.name a.name, p⟩ ∧ s.others = ⟨.punctuator .colon, q⟩ :: vs ∧
      Heads head s.before s.name q m ∧ Passes m (raw ++ tail) vs k tail ∧
      s.after ++ rest = lexFrom k tail ∧
      written s.constant s.depth (vs ++ lexFrom k tail) = .ok (a.written, lexFrom k tail) := by
  obtain ⟨before, name, others, after, constant, depth⟩ := s
  obtain ⟨p, q, mid, hlexemes, hwritten⟩ := argument_eq_ok.mp h.reads
  obtain ⟨vs, rfl, -⟩ := follows_written (E := True) constant depth hwritten
  obtain ⟨rfl, hothers⟩ := List.cons.inj hlexemes
  obtain rfl : others = ⟨.punctuator .colon, q⟩ :: vs := List.append_cancel_right hothers
  have hlex : lexFrom Position.start text =
      (before ++ [⟨.name a.name, p⟩] ++ [⟨.punctuator .colon, q⟩] ++ vs) ++ (after ++ rest) := by
    rw [← lex, h.lexemes]
    simp
  have hafter : after ++ rest ≠ [] := by
    rintro hnil
    obtain ⟨token, htoken, -⟩ := h.next
    rw [show after ++ rest = [] from hnil] at htoken
    cases htoken
  -- The text is cut after the colon and after the literal.
  obtain ⟨k, tail, hpasses, hrest⟩ := exists_passes hlex hafter
  obtain ⟨m, cs, hfirst, hsecond⟩ := hpasses.of_append
  obtain ⟨head, rfl, hhead⟩ := hfirst.replace_mark rfl
  obtain ⟨raw, rfl, -⟩ := hsecond.replace
  rw [hrest] at hwritten
  exact ⟨head, raw, tail, p, q, m, vs, k, rfl, rfl, rfl, hhead, hsecond, hrest, hwritten⟩

/-- A text is made of `head`, which ends with the name of an argument and a colon, of `raw`, which
spells its literal, and of `tail`. -/
def Argument.SpelledAs (a : Argument) (head raw tail : List Char) : Prop :=
  ∃ before p q vs k constant depth,
    lex head = before ++ [⟨.name a.name, p⟩, ⟨.punctuator .colon, q⟩] ∧
    lex (head ++ (raw ++ tail)) =
      before ++ ⟨.name a.name, p⟩ :: ⟨.punctuator .colon, q⟩ :: (vs ++ lexFrom k tail) ∧
    Reader.written constant depth (vs ++ lexFrom k tail) = .ok (a.written, lexFrom k tail)

theorem Heads.spelledAs {head raw tail : List Char} {before vs : List Lexeme} {p q m k : Position}
    {constant : Bool} {depth : ℕ} {a : Argument} (h : Heads head before ⟨.name a.name, p⟩ q m)
    (hlex : lexFrom m (raw ++ tail) = vs ++ lexFrom k tail)
    (hread : Reader.written constant depth (vs ++ lexFrom k tail) =
      .ok (a.written, lexFrom k tail)) :
    a.SpelledAs head raw tail := by
  refine ⟨before, p, q, vs, k, constant, depth, ?_, ?_, hread⟩
  · have hhead := h.lex_eq []
    rwa [List.append_nil, lexFrom_nil] at hhead
  · rw [h.lex_eq, hlex]

/-- An argument that is read is spelled somewhere in the text, and with the text of its literal in
that place the definitions that are read give the same arguments. -/
theorem Reader.exists_spelled {text : List Char} {all : List Definition} {rest : List Lexeme}
    (h : definitions (lex text) = .ok (all, rest)) {args : List Argument} {a : Argument}
    (hargs : args ∈ all.flatMap Definition.argumentsIn) (ha : a ∈ args)
    (hfloat : a.value.FloatFree) :
    ∃ head raw tail, text = head ++ (raw ++ tail) ∧ a.SpelledAs head raw tail ∧
      ∃ (a' : Argument) (all' : List Definition) (rest' : List Lexeme),
        a.given = a'.given ∧ a'.SpelledAs head a.value.toChars tail ∧
        definitions (lex (head ++ (a.value.toChars ++ tail))) = .ok (all', rest') ∧
        Argument.allGiven (all.flatMap Definition.argumentsIn) =
          Argument.allGiven (all'.flatMap Definition.argumentsIn) := by
  obtain ⟨s, hslot⟩ := exists_slot h hargs ha
  obtain ⟨head, raw, tail, p, q, m, vs, k, rfl, hname, hothers, hhead, hpasses, hrest, hwritten⟩ :=
    hslot.exists_text
  rw [hname] at hhead
  -- The literal is read from its own text.
  have hsound : ∀ t ∈ vs ++ lexFrom k tail, t.token.Sound := by
    rw [← hpasses.lexFrom_eq]
    exact sound_of_mem_lexFrom m (raw ++ tail)
  have hfits : a.value.Fits s.constant s.depth :=
    (fits_written s.constant s.depth hsound hwritten).1
  have hends := endsBefore_written hpasses hwritten (hrest ▸ hslot.next) hfloat
  obtain ⟨w, k', hread, hw⟩ := hfits.reads hfloat hends m
  obtain ⟨vs', hvs', -⟩ := follows_written (E := True) s.constant s.depth hread
  rw [hvs'] at hread
  -- After it come the same tokens as before.
  have htokens : Agree False (List.map Lexeme.token) (s.after ++ rest) (lexFrom k' tail) :=
    ⟨by rw [hrest, map_token_lexFrom, map_token_lexFrom], False.elim⟩
  obtain ⟨after', rest', hrest', hafter, hnext⟩ := agree_append htokens
  have hgiven : a.given = Argument.given ⟨a.name, w⟩ := congrArg (Prod.mk a.name) hw.symm
  obtain ⟨all', hread', hall⟩ := hslot.exchange (⟨.punctuator .colon, q⟩ :: vs') after' rest'
    ⟨a.name, w⟩ hafter.1 (by simpa using congrArg List.head? hnext.1) (by
      rw [hname, ← hrest', argument_eq_ok]
      exact ⟨p, q, _, rfl, hread⟩) hgiven
  refine ⟨head, raw, tail, rfl, hhead.spelledAs hpasses.lexFrom_eq hwritten, ⟨a.name, w⟩, all',
    rest', hgiven, Heads.spelledAs (a := ⟨a.name, w⟩) hhead hvs' hread, ?_, hall⟩
  rw [hhead.lex_eq, hvs', hrest', ← hname]
  exact hread'

/-- The text of a literal without floats may stand in the place where the literal has been read: the
document that is read then gives the same arguments, and the literal is read from its text. -/
theorem printed_literal_read_back (text : String) (d : Document)
    (hread : Document.ofText text = .ok d) (args : List Argument)
    (hargs : args ∈ d.argumentLists.map (·.2)) (a : Argument) (ha : a ∈ args)
    (hfloat : a.value.FloatFree) :
    ∃ (head raw tail : String) (d' : Document) (a' : Argument), text = head ++ raw ++ tail ∧
      a.SpelledAs head.toList raw.toList tail.toList ∧
      Document.ofText (head ++ a.value.render ++ tail) = .ok d' ∧
      a'.SpelledAs head.toList a.value.render.toList tail.toList ∧
      a'.name = a.name ∧ a'.value = a.value ∧
      d'.argumentLists.map (fun owner => owner.2.map Argument.given) =
        d.argumentLists.map fun owner => owner.2.map Argument.given := by
  obtain ⟨⟨rest, hlist⟩, -⟩ := Document.ofText_eq_ok.mp hread
  rw [Document.map_argumentLists] at hargs
  obtain ⟨head, raw, tail, htext, hspelled, a', all', rest', hgiven, hspelled', hlist', hall⟩ :=
    Reader.exists_spelled hlist hargs ha hfloat
  obtain ⟨hname, hvalue⟩ := Prod.mk.inj hgiven
  have hlists (d : Document) : d.argumentLists.map (fun owner => owner.2.map Argument.given) =
      Argument.allGiven (d.definitions.flatMap Definition.argumentsIn) := by
    rw [← Document.map_argumentLists, Argument.allGiven, List.map_map]
    rfl
  have hchars : (String.ofList head ++ a.value.render ++ String.ofList tail).toList =
      head ++ (a.value.toChars ++ tail) := by
    simp [Literal.render]
  refine ⟨.ofList head, .ofList raw, .ofList tail,
    ⟨all', RepeatedField.scan (head ++ (a.value.toChars ++ tail))⟩, a', ?_, ?_, ?_, ?_, hname.symm,
    hvalue.symm, ?_⟩
  · rw [← String.toList_inj, htext]
    simp
  · simpa using hspelled
  · rw [Document.ofText_eq_ok, hchars]
    exact ⟨⟨rest', hlist'⟩, rfl⟩
  · simpa [Literal.render] using hspelled'
  · rw [hlists, hlists]
    exact hall.symm

/-! ### An object with an unused field -/

/-- A text with a comment before an object that has a block string and gives a field twice. -/
def giftText : String :=
  "\x7b f(a: # values\n \x7by: \"\"\"b\"\"\", x: [-1, $v], y: \"c\"\x7d) @d(b: A) \x7d"

/-- The object in it. -/
def giftArgument : Argument :=
  ⟨"a", .object [(⟨"y", ⟨2, 3⟩⟩, .atom (.string "b")),
    (⟨"x", ⟨2, 15⟩⟩, .list [.atom (.int (-1)), .atom (.var "v")]),
    (⟨"y", ⟨2, 28⟩⟩, .atom (.string "c"))]⟩

/-- The document that it spells. -/
def giftDocument : Document :=
  ⟨[.bare ⟨⟨⟨1, 1⟩, ⟨2, 46⟩⟩, [.field ⟨⟨1, 3⟩, none, "f", [giftArgument],
      [⟨⟨2, 37⟩, "d", [⟨"b", .atom (.enum "A")⟩]⟩]⟩ ⟨⟨1, 3⟩, ⟨1, 3⟩⟩ []]⟩],
    [⟨"y", ⟨2, 3⟩, ⟨2, 28⟩⟩]⟩

/-- The object is printed with its fields in order and without the first of two, and read back. -/
theorem printed_object_read_back :
    Document.ofText giftText = .ok giftDocument ∧
      [giftArgument] ∈ giftDocument.argumentLists.map (·.2) ∧ giftArgument.value.FloatFree ∧
      giftArgument.value.render = "\x7bx: [-1, $v], y: \"c\"\x7d" ∧
      ∃ (head raw tail : String) (d : Document) (a : Argument), giftText = head ++ raw ++ tail ∧
        giftArgument.SpelledAs head.toList raw.toList tail.toList ∧
        Document.ofText (head ++ giftArgument.value.render ++ tail) = .ok d ∧
        a.SpelledAs head.toList giftArgument.value.render.toList tail.toList ∧
        a.name = "a" ∧ a.value = giftArgument.value ∧
        d.argumentLists.map (fun owner => owner.2.map Argument.given) =
          giftDocument.argumentLists.map fun owner => owner.2.map Argument.given := by
  have hread : Document.ofText giftText = .ok giftDocument := by decide +kernel
  have hmem : [giftArgument] ∈ giftDocument.argumentLists.map (·.2) := List.mem_cons_self
  have hvalue : giftArgument.value =
      .object [("x", .list [.atom (.int (-1)), .atom (.var "v")]), ("y", .atom (.string "c"))] :=
    rfl
  have hfloat : giftArgument.value.FloatFree := by
    rw [hvalue]
    refine .object (fun _ _ => trivial) ?_
    simp only [List.forall_mem_cons]
    refine ⟨.list ?_, .atom (by simp), by simp⟩
    simp only [List.forall_mem_cons]
    exact ⟨.atom (by simp), .atom (by simp), by simp⟩
  exact ⟨hread, hmem, hfloat, by decide +kernel,
    printed_literal_read_back giftText giftDocument hread _ hmem giftArgument List.mem_cons_self
      hfloat⟩

end GraphQLCheck
