import GraphQLCheck.Proofs.Printing.Literals
import Mathlib.Data.String.Basic

/-!
# Literals that are read

What is known of a literal that is read from a text. The tokens of a text are sound: their names are
names, their whole numbers have 64 bits, and their floats are doubles. A reader that is given sound
tokens leaves sound tokens (`Keeps`), and so every part of a literal is made from sound ones. The
fields of an object are sorted and have different names, and brackets are not nested deeper than the
reader goes. `Literal.Fits` puts this together, and with it a literal is readable in the sense of
`Literal.Readable`.

## What is proved

* `sound_of_mem_lexFrom` — the tokens of a text are sound.
* `fits_written` — literals that are read fit.
* `Written.Read.readable` — literals that are read from a text are readable.
-/

namespace GraphQLCheck

/-! ### Tokens -/

namespace Token

/-- A token as it is cut off a text: a name is a name, a whole number has 64 bits, and a float is a
double. -/
def Sound : Token → Prop
  | name text => IsName text.toList
  | int value => Is64Bit value
  | float value => value.IsCanonical
  | punctuator _ | string _ | uncut _ | unknown => True

theorem sound_of_number? {raw : List Char} {token : Token} (h : number? raw = some token) :
    token.Sound := by
  rcases number?_cases h with ⟨whole, fraction, exponent, rfl⟩ | ⟨n, hn, rfl⟩
  · exact Binary64.canonical_ofDecimal _ _ _
  · exact hn

theorem sound_blockToken (body : List Char) : (blockToken body).Sound := by
  unfold blockToken
  split <;> trivial

theorem sound_of_lexeme? {text : List Char} {cut : Cut} (h : lexeme? text = some cut) :
    cut.token.Sound := by
  unfold lexeme? at h
  split at h
  · cases h
  · cases h
    trivial
  · simp only [cutBlock?, Option.bind_eq_bind, Option.bind_eq_some_iff] at h
    obtain ⟨⟨body, rest⟩, -, hcut⟩ := h
    cases hcut
    exact sound_blockToken body
  · simp only [cutString?, Option.bind_eq_bind, Option.bind_eq_some_iff] at h
    obtain ⟨⟨body, rest⟩, -, text, -, hcut⟩ := h
    cases hcut
    trivial
  · split at h
    · cases h
      trivial
    · split_ifs at h with hname hnumber
      · cases h
        change IsName (String.toList (String.ofList _))
        rw [String.toList_ofList]
        exact .cons hname List.all_takeWhile
      · simp only [cutNumber?, Option.bind_eq_bind, Option.bind_eq_some_iff] at h
        obtain ⟨token, htoken, hcut⟩ := h
        cases hcut
        exact sound_of_number? htoken

/-- The tokens of a text are sound. -/
theorem sound_of_mem_lexFrom (p : Position) (cs : List Char) :
    ∀ t ∈ lexFrom p cs, t.token.Sound := by
  fun_induction lexFrom p cs with
  | case1 => exact fun t ht => absurd ht List.not_mem_nil
  | case2 => exact List.forall_mem_singleton.mpr trivial
  | case3 p cs q text hne hgap cut hcut _ ih =>
    exact List.forall_mem_cons.mpr ⟨sound_of_lexeme? hcut, ih⟩

end Token

open Token

/-! ### Literals that fit -/

/-- A literal without parts as the reader gives it, where only constants stand or not. -/
def Atom.Fits (constant : Bool) : Atom → Prop
  | var text => constant = false ∧ IsName text.toList
  | int value => Is64Bit value
  | a => a.Readable

theorem Atom.Fits.readable {constant : Bool} {a : Atom} (h : a.Fits constant) : a.Readable := by
  cases a with
  | var _ => exact h.2
  | int _ => trivial
  | float _ | string _ | bool _ | null | enum _ => exact h

namespace Literal

/-- A literal as the reader gives it if so many brackets may be opened. The fields of an object are
sorted by name, and no two have the same. -/
inductive Fits (constant : Bool) : ℕ → Literal → Prop where
  /-- A literal without parts. -/
  | atom {depth : ℕ} {value : Atom} : value.Fits constant → Fits constant depth (.atom value)
  /-- A list. -/
  | list {depth : ℕ} {items : List Literal} : (∀ item ∈ items, Fits constant depth item) →
      Fits constant (depth + 1) (.list items)
  /-- An object. -/
  | object {depth : ℕ} {fields : List (String × Literal)} :
      (fields.map (·.1)).Pairwise (· < ·) → (∀ field ∈ fields, IsName field.1.toList) →
      (∀ field ∈ fields, Fits constant depth field.2) → Fits constant (depth + 1) (.object fields)

theorem Fits.readable {constant : Bool} {depth : ℕ} {l : Literal} (h : l.Fits constant depth) :
    l.Readable := by
  induction h with
  | atom ha => exact .atom ha.readable
  | list _ ih => exact .list ih
  | object _ hnames _ ih => exact .object hnames ih

end Literal

namespace Reader

/-- A reader makes something of a kind from sound tokens, and leaves sound tokens. -/
def Keeps {α : Type} (r : Reader α) (P : α → Prop) : Prop :=
  ∀ ⦃ts a rest⦄, (∀ t ∈ ts, t.token.Sound) → r ts = .ok (a, rest) →
    P a ∧ ∀ t ∈ rest, t.token.Sound

theorem keeps_many {α : Type} {starts : Token → Bool} {item : Reader α} {P : α → Prop}
    (h : Keeps item P) : Keeps (many starts item) fun as => ∀ a ∈ as, P a := by
  intro ts as rest hts hread
  induction as generalizing ts with
  | nil =>
    rcases many_cases hread with ⟨-, rfl⟩ | ⟨a, as', mid, heq, -⟩
    · exact ⟨fun _ ha => absurd ha List.not_mem_nil, hts⟩
    · cases heq
  | cons a as ih =>
    rcases many_cases hread with ⟨heq, -⟩ | ⟨a', as', mid, heq, hitem, hmany⟩
    · cases heq
    · cases heq
      obtain ⟨ha, hmid⟩ := h hts hitem
      obtain ⟨has, hrest⟩ := ih hmid hmany
      exact ⟨List.forall_mem_cons.mpr ⟨ha, has⟩, hrest⟩

theorem fits_ofWord (constant : Bool) {word : String} (h : IsName word.toList) :
    (Atom.ofWord word).Fits constant := by
  have hreadable := Atom.readable_ofWord h
  unfold Atom.ofWord at hreadable ⊢
  split_ifs at hreadable ⊢ <;> exact hreadable

theorem fits_atom (constant : Bool) : Keeps (atom constant) (Atom.Fits constant) := by
  intro ts a rest hts hread
  rcases atom_cases hread with
    ⟨p, q, text, hconstant, rfl, rfl⟩ | ⟨p, text, rfl, rfl⟩ | ⟨p, token, -, hatom, rfl⟩
  · obtain ⟨hname, hrest⟩ := List.forall_mem_cons.mp (List.forall_mem_cons.mp hts).2
    exact ⟨⟨hconstant, hname⟩, hrest⟩
  · obtain ⟨hname, hrest⟩ := List.forall_mem_cons.mp hts
    exact ⟨fits_ofWord constant hname, hrest⟩
  · obtain ⟨htoken, hrest⟩ := List.forall_mem_cons.mp hts
    refine ⟨?_, hrest⟩
    cases token with
    | string text =>
      cases hatom
      trivial
    | int value | float value =>
      cases hatom
      exact htoken
    | punctuator _ | name _ | uncut _ | unknown => cases hatom

end Reader

/-! ### Values -/

namespace Literal

theorem mem_insertField {name : String} {value : Literal} {fields : List (String × Literal)}
    {field : String × Literal} (h : field ∈ insertField name value fields) :
    field = (name, value) ∨ field ∈ fields := by
  induction fields with
  | nil => exact .inl (List.mem_singleton.mp h)
  | cons first rest ih =>
    rw [insertField] at h
    split_ifs at h
    · exact List.mem_cons.mp h
    · rcases List.mem_cons.mp h with h | h
      · exact .inl h
      · exact .inr (List.mem_cons_of_mem _ h)
    · rcases List.mem_cons.mp h with rfl | h
      · exact .inr List.mem_cons_self
      · exact (ih h).imp_right (List.mem_cons_of_mem _)

/-- Sorting fields adds none. -/
theorem mem_of_mem_sortFields {fields : List (String × Literal)} {field : String × Literal}
    (h : field ∈ sortFields fields) : field ∈ fields := by
  have hfold (fields sorted : List (String × Literal))
      (h : field ∈ fields.foldl (fun sorted field => insertField field.1 field.2 sorted) sorted) :
      field ∈ sorted ∨ field ∈ fields := by
    induction fields generalizing sorted with
    | nil => exact .inl h
    | cons first rest ih =>
      rcases ih _ h with h | h
      · rcases mem_insertField h with rfl | h
        · exact .inr List.mem_cons_self
        · exact .inl h
      · exact .inr (List.mem_cons_of_mem _ h)
  exact (hfold fields [] h).resolve_left List.not_mem_nil

theorem names_of_mem_insertField {name other : String} {value : Literal}
    {fields : List (String × Literal)} (h : other ∈ (insertField name value fields).map (·.1)) :
    other = name ∨ other ∈ fields.map (·.1) := by
  obtain ⟨field, hfield, rfl⟩ := List.mem_map.mp h
  rcases mem_insertField hfield with rfl | hfield
  · exact .inl rfl
  · exact .inr (List.mem_map_of_mem hfield)

/-- A field is put in its place. -/
theorem pairwise_insertField (name : String) (value : Literal) {fields : List (String × Literal)}
    (h : (fields.map (·.1)).Pairwise (· < ·)) :
    ((insertField name value fields).map (·.1)).Pairwise (· < ·) := by
  induction fields with
  | nil => exact List.pairwise_singleton _ _
  | cons first rest ih =>
    obtain ⟨hfirst, hrest⟩ := List.pairwise_cons.mp h
    rw [insertField]
    split_ifs with hless heq
    · refine List.pairwise_cons.mpr ⟨?_, h⟩
      intro other hother
      rcases List.mem_cons.mp hother with rfl | hother
      · exact hless
      · exact hless.trans (hfirst other hother)
    · subst heq
      exact List.pairwise_cons.mpr ⟨hfirst, hrest⟩
    · refine List.pairwise_cons.mpr ⟨?_, ih hrest⟩
      intro other hother
      rcases names_of_mem_insertField hother with rfl | hother
      · exact lt_of_le_of_ne (not_lt.mp hless) (Ne.symm heq)
      · exact hfirst other hother

/-- Fields are sorted by name, and no two have the same. -/
theorem pairwise_sortFields (fields : List (String × Literal)) :
    ((sortFields fields).map (·.1)).Pairwise (· < ·) := by
  have hfold (sorted : List (String × Literal)) (h : (sorted.map (·.1)).Pairwise (· < ·)) :
      ((fields.foldl (fun sorted field => insertField field.1 field.2 sorted) sorted).map
        (·.1)).Pairwise (· < ·) := by
    induction fields generalizing sorted with
    | nil => exact h
    | cons first rest ih => exact ih _ (pairwise_insertField first.1 first.2 h)
  exact hfold [] List.Pairwise.nil

end Literal

namespace Written

theorem itemLiterals_eq_map (items : List Written) : itemLiterals items = items.map toLiteral := by
  induction items with
  | nil => rfl
  | cons item rest ih => rw [itemLiterals, ih, List.map_cons]

theorem fieldLiterals_eq_map (fields : List (FieldName × Written)) :
    fieldLiterals fields = fields.map fun field => (field.1.name, field.2.toLiteral) := by
  induction fields with
  | nil => rfl
  | cons field rest ih => rw [fieldLiterals, ih, List.map_cons]

theorem fits_list {constant : Bool} {depth : ℕ} {items : List Written}
    (h : ∀ item ∈ items, item.toLiteral.Fits constant depth) :
    (list items).toLiteral.Fits constant (depth + 1) := by
  rw [toLiteral, itemLiterals_eq_map]
  exact .list (List.forall_mem_map.mpr h)

theorem fits_object {constant : Bool} {depth : ℕ} {fields : List (FieldName × Written)}
    (h : ∀ field ∈ fields,
      IsName field.1.name.toList ∧ field.2.toLiteral.Fits constant depth) :
    (object fields).toLiteral.Fits constant (depth + 1) := by
  have hfields : ∀ field ∈ Literal.sortFields (fieldLiterals fields),
      IsName field.1.toList ∧ field.2.Fits constant depth := by
    intro field hfield
    have hmem := Literal.mem_of_mem_sortFields hfield
    rw [fieldLiterals_eq_map] at hmem
    obtain ⟨written, hwritten, rfl⟩ := List.mem_map.mp hmem
    exact h written hwritten
  rw [toLiteral]
  exact .object (Literal.pairwise_sortFields _) (fun field hfield => (hfields field hfield).1)
    fun field hfield => (hfields field hfield).2

end Written

namespace Reader

theorem fits_objectField {constant : Bool} {depth : ℕ} {value : Reader Written}
    (h : Keeps value fun w => w.toLiteral.Fits constant depth) :
    Keeps (objectField value) fun field =>
      IsName field.1.name.toList ∧ field.2.toLiteral.Fits constant depth := by
  rintro ts ⟨field, w⟩ rest hts hread
  obtain ⟨q, mid, rfl, hvalue⟩ := objectField_eq_ok hread
  obtain ⟨hname, hts⟩ := List.forall_mem_cons.mp hts
  obtain ⟨hw, hrest⟩ := h (List.forall_mem_cons.mp hts).2 hvalue
  exact ⟨⟨hname, hw⟩, hrest⟩

/-- What is read as a literal fits where it stands. -/
theorem fits_written (constant : Bool) (depth : ℕ) :
    Keeps (written constant depth) fun w => w.toLiteral.Fits constant depth := by
  induction depth using Nat.strongRecOn with
  | _ depth ih =>
    intro ts w rest hts hread
    rcases written_cases hread with ⟨a, rfl, hatom⟩ |
      ⟨inner, p, q, mid, items, rfl, rfl, rfl, hmany⟩ |
      ⟨inner, p, q, mid, fields, rfl, rfl, rfl, hmany⟩
    · exact (fits_atom constant hts hatom).imp_left .atom
    · obtain ⟨hitems, hrest⟩ :=
        keeps_many (ih inner (Nat.lt_succ_self inner)) (List.forall_mem_cons.mp hts).2 hmany
      exact ⟨Written.fits_list hitems, (List.forall_mem_cons.mp hrest).2⟩
    · have hfield := fits_objectField (ih inner (Nat.lt_succ_self inner))
      obtain ⟨hfields, hrest⟩ := keeps_many hfield (List.forall_mem_cons.mp hts).2 hmany
      exact ⟨Written.fits_object hfields, (List.forall_mem_cons.mp hrest).2⟩

end Reader

/-- A literal that is read somewhere in a text. -/
def Written.Read (w : Written) : Prop :=
  ∃ (text : List Char) (before ts rest : List Lexeme) (constant : Bool) (depth : ℕ),
    lex text = before ++ ts ∧ Reader.written constant depth ts = .ok (w, rest)

theorem Written.read_of_lex {text : List Char} {ts rest : List Lexeme} {constant : Bool} {depth : ℕ}
    {w : Written} (hlex : lex text = ts) (n : ℕ)
    (hread : Reader.written constant depth (ts.drop n) = .ok (w, rest)) : w.Read :=
  ⟨text, ts.take n, ts.drop n, rest, constant, depth, by rw [List.take_append_drop, hlex], hread⟩

theorem Written.Read.readable {w : Written} (h : w.Read) : w.toLiteral.Readable := by
  obtain ⟨text, before, ts, rest, constant, depth, hlex, hread⟩ := h
  refine (Reader.fits_written constant depth (fun t ht => ?_) hread).1.readable
  have hmem : t ∈ lex text := by
    rw [hlex]
    exact List.mem_append_right before ht
  exact sound_of_mem_lexFrom Position.start text t hmem

end GraphQLCheck
