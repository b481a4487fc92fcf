import GraphQLCheck.Token.Number
import GraphQLCheck.Token.Quoted

/-!
# Reading tokens

`lex` cuts a text into lexemes. Between two tokens byte order marks, blanks, commas and comments are
skipped; a tab counts for eight columns, a byte order mark and a carriage return for none, and a
comment ends with its line. Each token is then the longest text of its class, and what it leaves is
a shorter text (`lexeme?_length`).
-/

namespace GraphQLCheck.Token

/-! ### Gaps -/

mutual

/-- Skip what may stand between tokens: the position and the text of the next token. -/
def skipGap (p : Position) : List Char → Position × List Char
  | [] => (p, [])
  | c :: cs =>
    if c = '\uFEFF' ∨ c = '\r' then skipGap p cs
    else if c = '\t' then skipGap (p.right 8) cs
    else if c = ' ' ∨ c = ',' then skipGap (p.right 1) cs
    else if c = '\n' then skipGap p.nextLine cs
    else if c = '#' then skipComment p cs
    else (p, c :: cs)

/-- Skip the rest of a comment. A carriage return ends it too, and counts as a line. -/
def skipComment (p : Position) : List Char → Position × List Char
  | [] => (p, [])
  | c :: cs => if c = '\n' ∨ c = '\r' then skipGap p.nextLine cs else skipComment p cs

end

/-! ### Single tokens -/

/-- Whether a name may start with a character. -/
def startsName (c : Char) : Bool := c = '_' ∨ c.isAlpha

/-- Whether a character goes on with a name. -/
def continuesName (c : Char) : Bool := c = '_' ∨ c.isAlphanum

/-- The punctuators of one character. -/
def punctuator? : Char → Option Punctuator
  | '(' => some .openParen
  | ')' => some .closeParen
  | '[' => some .openBracket
  | ']' => some .closeBracket
  | '{' => some .openBrace
  | '}' => some .closeBrace
  | '!' => some .bang
  | '$' => some .dollar
  | ':' => some .colon
  | '=' => some .equals
  | '@' => some .atSign
  | '|' => some .pipe
  | '&' => some .ampersand
  | _ => none

/-- A token cut off a text: its value, the characters it is written with, and the text after it. -/
structure Cut where
  /-- The token. -/
  token : Token
  /-- The characters that it takes. -/
  raw : List Char
  /-- The text after it. -/
  rest : List Char
  deriving Repr

/-- Cut off a name whose first character is `c`. -/
def cutName (c : Char) (cs : List Char) : Cut :=
  let raw := c :: cs.takeWhile continuesName
  ⟨.name (String.ofList raw), raw, cs.dropWhile continuesName⟩

/-- Cut off a number whose first character is `c`. -/
def cutNumber? (c : Char) (cs : List Char) : Option Cut := do
  let raw := c :: cs.takeWhile continuesNumber
  return ⟨← number? raw, raw, cs.dropWhile continuesNumber⟩

/-- Cut off a string, `cs` being the text after its opening mark. -/
def cutString? (cs : List Char) : Option Cut := do
  let (body, rest) ← closeString false cs
  return ⟨.string (String.ofList (← unescape body)), '"' :: body ++ ['"'], rest⟩

/-- The token of a block string with the given characters between its marks. -/
def blockToken (body : List Char) : Token :=
  match blockText body with
  | .ok text => .string (String.ofList text)
  | .error place => .uncut place

/-- Cut off a block string, `cs` being the text after its opening marks. -/
def cutBlock? (cs : List Char) : Option Cut := do
  let (body, rest) ← closeBlock false cs
  let marks := ['"', '"', '"']
  return ⟨blockToken body, marks ++ body ++ marks, rest⟩

/-- Cut off the token at the start of a text. -/
def lexeme? : List Char → Option Cut
  | [] => none
  | '.' :: '.' :: '.' :: cs => some ⟨.punctuator .ellipsis, ['.', '.', '.'], cs⟩
  | '"' :: '"' :: '"' :: cs => cutBlock? cs
  | '"' :: cs => cutString? cs
  | c :: cs =>
    match punctuator? c with
    | some mark => some ⟨.punctuator mark, [c], cs⟩
    | none =>
      if startsName c then some (cutName c cs)
      else if c = '-' ∨ c.isDigit then cutNumber? c cs
      else none

/-! ### Every token leaves less text -/

mutual

theorem skipGap_length (p : Position) (cs : List Char) :
    (skipGap p cs).2.length ≤ cs.length := by
  cases cs with
  | nil => simp [skipGap]
  | cons c cs =>
    simp only [skipGap]
    repeat' split
    · exact Nat.le_succ_of_le (skipGap_length _ cs)
    · exact Nat.le_succ_of_le (skipGap_length _ cs)
    · exact Nat.le_succ_of_le (skipGap_length _ cs)
    · exact Nat.le_succ_of_le (skipGap_length _ cs)
    · exact Nat.le_succ_of_le (skipComment_length _ cs)
    · exact Nat.le_refl _

theorem skipComment_length (p : Position) (cs : List Char) :
    (skipComment p cs).2.length ≤ cs.length := by
  cases cs with
  | nil => simp [skipComment]
  | cons c cs =>
    simp only [skipComment]
    split
    · exact Nat.le_succ_of_le (skipGap_length _ cs)
    · exact Nat.le_succ_of_le (skipComment_length _ cs)

end

/-- Nothing of a string is lost. -/
theorem closeString_append {escaped : Bool} {cs body rest : List Char}
    (h : closeString escaped cs = some (body, rest)) : body ++ '"' :: rest = cs := by
  induction cs generalizing escaped body with
  | nil => simp [closeString] at h
  | cons c cs ih =>
    simp only [closeString] at h
    split at h
    · next hc => simp_all
    · split at h
      · simp at h
      · simp only [Option.map_eq_some_iff, Prod.mk.injEq] at h
        obtain ⟨⟨body', rest'⟩, hb, rfl, rfl⟩ := h
        simp [ih hb]

/-- Nothing of a block string is lost. -/
theorem closeBlock_append {escaped : Bool} {cs body rest : List Char}
    (h : closeBlock escaped cs = some (body, rest)) :
    body ++ '"' :: '"' :: '"' :: rest = cs := by
  fun_induction closeBlock escaped cs generalizing body rest with
  | case1 => simp at h
  | case2 cs ih =>
    simp only [Option.map_eq_some_iff, Prod.mk.injEq] at h
    obtain ⟨⟨body', rest'⟩, hb, rfl, rfl⟩ := h
    simp [ih hb]
  | case3 => simp_all
  | case4 escaped c cs hc ih =>
    simp only [Option.map_eq_some_iff, Prod.mk.injEq] at h
    obtain ⟨⟨body', rest'⟩, hb, rfl, rfl⟩ := h
    simp [ih hb]

/-- A token takes characters off the start of the text, and nothing of the text is lost. -/
theorem lexeme?_append {cs : List Char} {cut : Cut} (h : lexeme? cs = some cut) :
    cut.raw ++ cut.rest = cs := by
  unfold lexeme? at h
  split at h
  · simp at h
  · cases h; rfl
  · simp only [cutBlock?, Option.bind_eq_bind, Option.bind_eq_some_iff] at h
    obtain ⟨⟨body, rest⟩, hb, hc⟩ := h
    cases hc
    simpa using congrArg ('"' :: '"' :: '"' :: ·) (closeBlock_append hb)
  · simp only [cutString?, Option.bind_eq_bind, Option.bind_eq_some_iff] at h
    obtain ⟨⟨body, rest⟩, hb, text, _, hc⟩ := h
    cases hc
    simpa using congrArg ('"' :: ·) (closeString_append hb)
  · split at h
    · cases h; rfl
    · split at h
      · cases h
        simp [cutName, List.takeWhile_append_dropWhile]
      · split at h
        · simp only [cutNumber?, Option.bind_eq_bind, Option.bind_eq_some_iff] at h
          obtain ⟨token, _, hc⟩ := h
          cases hc
          simp [List.takeWhile_append_dropWhile]
        · simp at h

/-- A token is never empty. -/
theorem lexeme?_raw_ne_nil {cs : List Char} {cut : Cut} (h : lexeme? cs = some cut) :
    cut.raw ≠ [] := by
  unfold lexeme? at h
  split at h
  · simp at h
  · cases h; simp
  · simp only [cutBlock?, Option.bind_eq_bind, Option.bind_eq_some_iff] at h
    obtain ⟨_, _, hc⟩ := h
    cases hc; simp
  · simp only [cutString?, Option.bind_eq_bind, Option.bind_eq_some_iff] at h
    obtain ⟨_, _, _, _, hc⟩ := h
    cases hc; simp
  · split at h
    · cases h; simp
    · split at h
      · cases h; simp [cutName]
      · split at h
        · simp only [cutNumber?, Option.bind_eq_bind, Option.bind_eq_some_iff] at h
          obtain ⟨_, _, hc⟩ := h
          cases hc; simp
        · simp at h

/-- What a token leaves is shorter than the text. -/
theorem lexeme?_length {cs : List Char} {cut : Cut} (h : lexeme? cs = some cut) :
    cut.rest.length < cs.length := by
  have happ := congrArg List.length (lexeme?_append h)
  have hraw := List.length_pos_iff.2 (lexeme?_raw_ne_nil h)
  simp only [List.length_append] at happ
  omega

/-! ### The lexemes of a text -/

/-- The lexemes of a text that is read from position `p` on. Where no token starts they end with an
unknown one. -/
def lexFrom (p : Position) (cs : List Char) : List Lexeme :=
  match hg : skipGap p cs with
  | (_, []) => []
  | (q, text) =>
    match hl : lexeme? text with
    | none => [⟨.unknown, q⟩]
    | some cut =>
      have : cut.rest.length < cs.length := by
        have h₁ := skipGap_length p cs
        have h₂ := lexeme?_length hl
        rw [hg] at h₁
        exact Nat.lt_of_lt_of_le h₂ h₁
      ⟨cut.token, q⟩ :: lexFrom (q.past cut.raw) cut.rest
termination_by cs.length

/-- The lexemes of a text. -/
def lex (text : List Char) : List Lexeme := lexFrom Position.start text

end GraphQLCheck.Token
