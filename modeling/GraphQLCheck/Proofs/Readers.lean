import GraphQLCheck.Document.Reader
import Mathlib.Tactic.Common

/-!
# Readers that succeed

What a reader has read if it succeeds: one lemma for each of the basic readers, and the steps of a
sequence of them. With these a reader of the grammar is taken apart without being run.
-/

namespace GraphQLCheck.Reader

variable {α β : Type} {ts rest : List Lexeme}

theorem bind_eq_ok {x : Reader α} {f : α → Reader β} {b : β} :
    (x >>= f) ts = .ok (b, rest) ↔ ∃ a mid, x ts = .ok (a, mid) ∧ f a mid = .ok (b, rest) := by
  change (x ts >>= fun step => f step.1 step.2) = _ ↔ _
  cases hx : x ts with
  | error fault => exact iff_of_false (by rintro ⟨⟩) (by simp)
  | ok step =>
    constructor
    · exact fun h => ⟨step.1, step.2, rfl, h⟩
    · rintro ⟨a, mid, heq, h⟩
      cases heq
      exact h

theorem map_eq_ok {x : Reader α} {f : α → β} {b : β} :
    (f <$> x) ts = .ok (b, rest) ↔ ∃ a, x ts = .ok (a, rest) ∧ f a = b := by
  rw [map_eq_pure_bind, bind_eq_ok]
  constructor
  · rintro ⟨a, mid, hx, h⟩
    cases h
    exact ⟨a, hx, rfl⟩
  · rintro ⟨a, hx, rfl⟩
    exact ⟨a, rest, hx, rfl⟩

theorem pure_eq_ok {a b : α} : (pure a : Reader α) ts = .ok (b, rest) ↔ a = b ∧ ts = rest := by
  constructor
  · intro h
    cases h
    exact ⟨rfl, rfl⟩
  · rintro ⟨rfl, rfl⟩
    rfl

theorem refuse_eq_ok {a : α} : (refuse : Reader α) ts = .ok (a, rest) ↔ False :=
  iff_of_false (by rintro ⟨⟩) not_false

theorem take_eq_ok {t : Lexeme} : take ts = .ok (t, rest) ↔ ts = t :: rest := by
  cases ts with
  | nil => exact iff_of_false (by rintro ⟨⟩) (by rintro ⟨⟩)
  | cons t' ts =>
    constructor
    · intro h
      cases h
      rfl
    · intro h
      cases h
      rfl

theorem peek_eq_ok {token? : Option Token} :
    peek ts = .ok (token?, rest) ↔ token? = ts.head?.map (·.token) ∧ rest = ts := by
  constructor
  · intro h
    cases h
    exact ⟨rfl, rfl⟩
  · rintro ⟨rfl, rfl⟩
    rfl

theorem here_eq_ok {p : Position} :
    here ts = .ok (p, rest) ↔ rest = ts ∧ ∃ token after, ts = ⟨token, p⟩ :: after := by
  cases ts with
  | nil => exact iff_of_false (by rintro ⟨⟩) (by simp)
  | cons t ts =>
    constructor
    · intro h
      cases h
      exact ⟨rfl, t.token, ts, rfl⟩
    · rintro ⟨rfl, token, after, heq⟩
      cases heq
      rfl

theorem expect_eq_ok {token : Token} {p : Position} :
    expect token ts = .ok (p, rest) ↔ ts = ⟨token, p⟩ :: rest := by
  rw [expect, bind_eq_ok]
  constructor
  · rintro ⟨t, mid, htake, h⟩
    rw [take_eq_ok] at htake
    subst htake
    split_ifs at h with htoken
    · rw [pure_eq_ok] at h
      obtain ⟨rfl, rfl⟩ := h
      subst htoken
      rfl
    · exact (refuse_eq_ok.mp h).elim
  · rintro rfl
    refine ⟨⟨token, p⟩, rest, rfl, ?_⟩
    rw [if_pos rfl]
    rfl

theorem mark_eq_ok {m : Punctuator} {p : Position} :
    mark m ts = .ok (p, rest) ↔ ts = ⟨.punctuator m, p⟩ :: rest :=
  expect_eq_ok

theorem keyword_eq_ok {word : String} {p : Position} :
    keyword word ts = .ok (p, rest) ↔ ts = ⟨.name word, p⟩ :: rest :=
  expect_eq_ok

theorem name_eq_ok {text : String} :
    name ts = .ok (text, rest) ↔ ∃ p, ts = ⟨.name text, p⟩ :: rest := by
  rw [name, bind_eq_ok]
  constructor
  · rintro ⟨t, mid, htake, h⟩
    rw [take_eq_ok] at htake
    subst htake
    obtain ⟨token, p⟩ := t
    dsimp only at h
    split at h
    · rw [pure_eq_ok] at h
      obtain ⟨rfl, rfl⟩ := h
      exact ⟨p, rfl⟩
    · exact (refuse_eq_ok.mp h).elim
  · rintro ⟨p, rfl⟩
    exact ⟨⟨.name text, p⟩, rest, rfl, rfl⟩

theorem skip?_eq_ok {token : Token} {taken : Bool} :
    skip? token ts = .ok (taken, rest) ↔
      (taken = true ∧ ∃ p, ts = ⟨token, p⟩ :: rest) ∨
        (taken = false ∧ rest = ts ∧ ∀ p after, ts ≠ ⟨token, p⟩ :: after) := by
  cases ts with
  | nil =>
    rw [skip?]
    constructor
    · intro h
      cases h
      exact .inr ⟨rfl, rfl, by simp⟩
    · rintro (⟨-, p, heq⟩ | ⟨rfl, rfl, -⟩)
      · cases heq
      · rfl
  | cons t ts =>
    obtain ⟨token', p⟩ := t
    by_cases htoken : token' = token
    · subst htoken
      rw [skip?, if_pos rfl]
      constructor
      · intro h
        cases h
        exact .inl ⟨rfl, p, rfl⟩
      · rintro (⟨rfl, q, heq⟩ | ⟨-, -, hne⟩)
        · cases heq
          rfl
        · exact absurd rfl (hne p ts)
    · rw [skip?, if_neg htoken]
      constructor
      · intro h
        cases h
        refine .inr ⟨rfl, rfl, fun q after heq => ?_⟩
        cases heq
        exact htoken rfl
      · rintro (⟨-, q, heq⟩ | ⟨rfl, rfl, -⟩)
        · cases heq
          exact absurd rfl htoken
        · rfl

/-- Something optional has been read, or nothing. -/
theorem optional_cases {starts : Token → Bool} {item : Reader α} {a? : Option α}
    (h : optional starts item ts = .ok (a?, rest)) :
    (∃ a, a? = some a ∧ item ts = .ok (a, rest)) ∨ (a? = none ∧ rest = ts) := by
  rw [optional, bind_eq_ok] at h
  obtain ⟨token?, mid, hpeek, h⟩ := h
  rw [peek_eq_ok] at hpeek
  obtain ⟨-, rfl⟩ := hpeek
  split at h
  · split_ifs at h
    · rw [map_eq_ok] at h
      obtain ⟨a, hitem, rfl⟩ := h
      exact .inl ⟨a, rfl, hitem⟩
    · rw [pure_eq_ok] at h
      exact .inr ⟨h.1.symm, h.2.symm⟩
  · rw [pure_eq_ok] at h
    exact .inr ⟨h.1.symm, h.2.symm⟩

/-- A repetition stops before a token that starts no item, or reads an item, which takes something,
and then the others. -/
theorem many_steps {starts : Token → Bool} {item : Reader α} {as : List α}
    (h : many starts item ts = .ok (as, rest)) :
    (as = [] ∧ rest = ts ∧ ∀ token ∈ ts.head?.map (·.token), starts token = false) ∨
      ∃ t after a as' mid, ts = t :: after ∧ as = a :: as' ∧ starts t.token = true ∧
        item ts = .ok (a, mid) ∧ mid.length ≤ after.length ∧
        many starts item mid = .ok (as', rest) := by
  cases ts with
  | nil =>
    rw [many] at h
    cases h
    exact .inl ⟨rfl, rfl, by rintro token ⟨⟩⟩
  | cons t after =>
    rw [many] at h
    split_ifs at h with hstarts
    · split at h
      · cases h
      · rename_i a mid hitem
        split_ifs at h with hless
        cases hmany : many starts item mid with
        | error fault =>
          rw [hmany] at h
          cases h
        | ok step =>
          rw [hmany] at h
          cases h
          exact .inr ⟨t, after, a, step.1, mid, rfl, rfl, hstarts, hitem, Nat.le_of_lt_succ hless,
            hmany⟩
    · cases h
      refine .inl ⟨rfl, rfl, ?_⟩
      rintro token ⟨⟩
      exact Bool.eq_false_iff.mpr hstarts

/-- A repetition has read nothing, or one item and then the others. -/
theorem many_cases {starts : Token → Bool} {item : Reader α} {as : List α}
    (h : many starts item ts = .ok (as, rest)) :
    (as = [] ∧ rest = ts) ∨
      ∃ a as' mid, as = a :: as' ∧ item ts = .ok (a, mid) ∧
        many starts item mid = .ok (as', rest) := by
  rcases many_steps h with ⟨has, hrest, -⟩ | ⟨t, after, a, as', mid, -, has, -, hitem, -, hmany⟩
  · exact .inl ⟨has, hrest⟩
  · exact .inr ⟨a, as', mid, has, hitem, hmany⟩

theorem many_stop {starts : Token → Bool} {item : Reader α} {t : Lexeme}
    (h : starts t.token = false) : many starts item (t :: ts) = .ok ([], t :: ts) := by
  rw [many, h]
  rfl

theorem many_next {starts : Token → Bool} {item : Reader α} {t : Lexeme} {after mid : List Lexeme}
    {a : α} {as : List α} (hstarts : starts t.token = true)
    (hitem : item (t :: after) = .ok (a, mid)) (hless : mid.length ≤ after.length)
    (hmany : many starts item mid = .ok (as, rest)) :
    many starts item (t :: after) = .ok (a :: as, rest) := by
  rw [many, if_pos hstarts, hitem]
  dsimp only
  rw [if_pos (Nat.lt_succ_of_le hless), hmany]
  rfl

theorem many1_eq_ok {starts : Token → Bool} {item : Reader α} {as : List α}
    (h : many1 starts item ts = .ok (as, rest)) :
    ∃ a as' mid, as = a :: as' ∧ item ts = .ok (a, mid) ∧
      many starts item mid = .ok (as', rest) := by
  rw [many1, bind_eq_ok] at h
  obtain ⟨a, mid, hitem, h⟩ := h
  rw [bind_eq_ok] at h
  obtain ⟨as', left, hmany, h⟩ := h
  rw [pure_eq_ok] at h
  obtain ⟨rfl, rfl⟩ := h
  exact ⟨a, as', mid, rfl, hitem, hmany⟩

theorem finish_eq_ok {u : Unit} : finish ts = .ok (u, rest) ↔ ts = [] ∧ rest = [] := by
  cases ts with
  | nil =>
    constructor
    · intro h
      cases h
      exact ⟨rfl, rfl⟩
    · rintro ⟨-, rfl⟩
      rfl
  | cons t ts => exact iff_of_false (by rintro ⟨⟩) (by simp)

end GraphQLCheck.Reader

/-- The document of a text has the definitions that are read and the repeated fields that the search
finds. -/
theorem GraphQLCheck.Document.ofText_eq_ok {text : String} {d : Document} :
    ofText text = .ok d ↔
      (∃ rest, Reader.definitions (Token.lex text.toList) = .ok (d.definitions, rest)) ∧
        d.repeatedFields = RepeatedField.scan text.toList := by
  unfold ofText ofChars
  cases hlist : Reader.definitions (Token.lex text.toList) with
  | error fault => exact iff_of_false (by rintro ⟨⟩) (by rintro ⟨⟨rest, ⟨⟩⟩, -⟩)
  | ok step =>
    constructor
    · intro h
      cases h
      exact ⟨⟨step.2, rfl⟩, rfl⟩
    · rintro ⟨⟨rest, heq⟩, hscan⟩
      cases heq
      rw [← hscan]
      rfl
