import GraphQLCheck.Proofs.Readers
import GraphQLCheck.Proofs.Scanning.Lexemes

/-!
# What is read and what is found

The fields that object literals of a document give more than once, read off the document itself
(`Document.repeats`), and the proof that the search along lexemes finds just these while the document
is read. Each reader adds to what is found what it has read (`Finds`); inside the braces of an object
literal this needs that no colon comes next, since a name before a colon is taken for a field.
-/

namespace GraphQLCheck

/-! ### Repeated fields of a document -/

/-- The field as a repetition of the first of the fields before it that has its name. -/
def FieldName.repeats? (before : List FieldName) (field : FieldName) : Option RepeatedField :=
  (before.find? (·.name = field.name)).map fun first => ⟨field.name, first.position, field.position⟩

namespace Written

mutual

/-- The repeated fields of the object literals in a literal, in the order of the text. -/
def repeats : Written → List RepeatedField
  | .atom _ => []
  | .list items => itemRepeats items
  | .object fields => fieldRepeats [] fields

/-- The repeated fields in the items of a list. -/
def itemRepeats : List Written → List RepeatedField
  | [] => []
  | item :: rest => item.repeats ++ itemRepeats rest

/-- The repeated fields of an object literal and in its values, given the fields before. -/
def fieldRepeats (before : List FieldName) : List (FieldName × Written) → List RepeatedField
  | [] => []
  | (field, value) :: rest =>
    (field.repeats? before).toList ++ (value.repeats ++ fieldRepeats (before ++ [field]) rest)

end

theorem itemRepeats_eq_flatMap (items : List Written) :
    itemRepeats items = items.flatMap repeats := by
  induction items with
  | nil => rfl
  | cons item rest ih => rw [itemRepeats, ih, List.flatMap_cons]

end Written

/-- The repeated fields in an argument. -/
def Argument.repeats (a : Argument) : List RepeatedField := a.written.repeats

/-- The repeated fields in the arguments of a directive. -/
def Directive.repeats (d : Directive) : List RepeatedField := d.arguments.flatMap Argument.repeats

/-- The repeated fields in the default value of a variable. -/
def VariableDefinition.repeats (v : VariableDefinition) : List RepeatedField :=
  v.written?.toList.flatMap Written.repeats

/-- The repeated fields in the arguments and directives of a field. -/
def Field.repeats (f : Field) : List RepeatedField :=
  f.arguments.flatMap Argument.repeats ++ f.directives.flatMap Directive.repeats

namespace Selection

mutual

/-- The repeated fields in a selection. -/
def repeats : Selection → List RepeatedField
  | .field node _ own => node.repeats ++ setRepeats own
  | .spread node => node.directives.flatMap Directive.repeats
  | .inline node _ own => node.directives.flatMap Directive.repeats ++ setRepeats own

/-- The repeated fields in selections. -/
def setRepeats : List Selection → List RepeatedField
  | [] => []
  | item :: rest => item.repeats ++ setRepeats rest

end

theorem setRepeats_eq_flatMap (items : List Selection) :
    setRepeats items = items.flatMap repeats := by
  induction items with
  | nil => rfl
  | cons item rest ih => rw [setRepeats, ih, List.flatMap_cons]

end Selection

/-- The repeated fields in a selection set. -/
def SelectionSet.repeats (s : SelectionSet) : List RepeatedField := Selection.setRepeats s.items

/-- The repeated fields in a definition. -/
def Definition.repeats : Definition → List RepeatedField
  | .operation o =>
    o.declared.flatMap VariableDefinition.repeats ++
      (o.directives.flatMap Directive.repeats ++ o.selectionSet.repeats)
  | .bare set => set.repeats
  | .fragment f => f.directives.flatMap Directive.repeats ++ f.selectionSet.repeats

/-- The repeated fields of the object literals in a document, in the order of the text. -/
def Document.repeats (d : Document) : List RepeatedField := d.definitions.flatMap Definition.repeats

/-- The literal that a word is read as. -/
def Atom.ofWord (word : String) : Atom :=
  if word = "true" then bool true
  else if word = "false" then bool false
  else if word = "null" then null
  else enum word

/-- The literal that a number or string is read as. -/
def Token.atom? : Token → Option Atom
  | int value => some (.int value)
  | float value => some (.float value)
  | string text => some (.string text)
  | punctuator _ | name _ | uncut _ | unknown => none

namespace Reader

open RepeatedField

/-! ### Steps of the search -/

variable {frames outer : List Frame} {ts rest : List Lexeme} {found : List RepeatedField}
  {constant : Bool} {depth : ℕ}

/-- No object literal is open innermost. -/
def Unnoted (frames : List Frame) : Prop := ∀ seen outer, frames ≠ .object seen :: outer

theorem Unnoted.calm (h : Unnoted frames) (ts : List Lexeme) : Calm frames ts :=
  fun seen outer heq => absurd heq (h seen outer)

theorem unnoted_arguments (frames : List Frame) : Unnoted (.arguments :: frames) := by
  rintro seen outer ⟨⟩

theorem unnoted_list (frames : List Frame) : Unnoted (.list :: frames) := by
  rintro seen outer ⟨⟩

/-- A name that is no field is passed over. -/
theorem scans_name (h : Scans frames ts found) (hcalm : Calm frames ts) (p : Position)
    (text : String) : Scans frames (⟨.name text, p⟩ :: ts) found := by
  have hnote := noteName_of_calm hcalm p text
  have hscans : Scans frames (⟨.name text, p⟩ :: ts)
      ((noteName p text (startsColon ts) frames).1.toList ++ found) :=
    .name p text (by rwa [hnote])
  rwa [hnote] at hscans

/-- What a reader reads is found before what follows. -/
def Finds {α : Type} (frames : List Frame) (r : Reader α) (g : α → List RepeatedField) : Prop :=
  ∀ ⦃ts a rest found⦄, r ts = .ok (a, rest) → Calm frames rest → Scans frames rest found →
    Scans frames ts (g a ++ found)

theorem finds_many {α : Type} {starts : Token → Bool} {item : Reader α} {g : α → List RepeatedField}
    (hframes : Unnoted frames) (h : Finds frames item g) :
    Finds frames (many starts item) (·.flatMap g) := by
  intro ts as rest found hread _ hrest
  induction as generalizing ts with
  | nil =>
    rcases many_cases hread with ⟨-, rfl⟩ | ⟨a, as', mid, heq, -⟩
    · exact hrest
    · cases heq
  | cons a as ih =>
    rcases many_cases hread with ⟨heq, -⟩ | ⟨a', as', mid, heq, hitem, hmany⟩
    · cases heq
    · cases heq
      simp only [List.flatMap_cons, List.append_assoc]
      exact h hitem (hframes.calm mid) (ih hmany)

theorem finds_many1 {α : Type} {starts : Token → Bool} {item : Reader α}
    {g : α → List RepeatedField} (hframes : Unnoted frames) (h : Finds frames item g) :
    Finds frames (many1 starts item) (·.flatMap g) := by
  intro ts as rest found hread hcalm hrest
  obtain ⟨a, as', mid, rfl, hitem, hmany⟩ := many1_eq_ok hread
  simp only [List.flatMap_cons, List.append_assoc]
  exact h hitem (hframes.calm mid) (finds_many hframes h hmany hcalm hrest)

/-! ### Literals -/

/-- A literal without parts is a variable, a name, or a number or string. -/
theorem atom_cases {a : Atom} (h : atom constant ts = .ok (a, rest)) :
    (∃ p q text, constant = false ∧ a = .var text ∧
        ts = ⟨.punctuator .dollar, p⟩ :: ⟨.name text, q⟩ :: rest) ∨
      (∃ p text, a = .ofWord text ∧ ts = ⟨.name text, p⟩ :: rest) ∨
      ∃ p token, token.isValue = true ∧ token.atom? = some a ∧ ts = ⟨token, p⟩ :: rest := by
  rw [atom, bind_eq_ok] at h
  obtain ⟨⟨token, p⟩, mid, htake, h⟩ := h
  rw [take_eq_ok] at htake
  subst htake
  cases token with
  | punctuator m =>
    cases m with
    | dollar =>
      left
      dsimp only at h
      split_ifs at h with hconstant
      · exact (refuse_eq_ok.mp h).elim
      · simp only [bind_eq_ok, name_eq_ok, pure_eq_ok] at h
        obtain ⟨text, after, ⟨q, rfl⟩, rfl, rfl⟩ := h
        exact ⟨p, q, text, Bool.eq_false_iff.mpr hconstant, rfl, rfl⟩
    | openParen | closeParen | openBracket | closeBracket | openBrace | closeBrace | bang | colon
    | equals | atSign | pipe | ampersand | ellipsis => exact (refuse_eq_ok.mp h).elim
  | name text =>
    -- Three words are values of their own.
    obtain ⟨rfl, rfl⟩ : Atom.ofWord text = a ∧ mid = rest := by
      by_cases htrue : text = "true"
      · subst htrue
        exact pure_eq_ok.mp h
      by_cases hfalse : text = "false"
      · subst hfalse
        exact pure_eq_ok.mp h
      by_cases hnull : text = "null"
      · subst hnull
        exact pure_eq_ok.mp h
      simp only at h
      rw [Atom.ofWord, if_neg htrue, if_neg hfalse, if_neg hnull]
      exact pure_eq_ok.mp h
    exact .inr (.inl ⟨p, text, rfl, rfl⟩)
  | int _ | float _ | string _ =>
    obtain ⟨rfl, rfl⟩ := pure_eq_ok.mp h
    exact .inr (.inr ⟨p, _, rfl, rfl, rfl⟩)
  | uncut place => cases h
  | unknown => cases h

theorem finds_atom (constant : Bool) (frames : List Frame) :
    Finds frames (atom constant) fun _ => [] := by
  intro ts a rest found hread hcalm hrest
  rcases atom_cases hread with
    ⟨p, q, text, -, -, rfl⟩ | ⟨p, text, -, rfl⟩ | ⟨p, token, hvalue, -, rfl⟩
  · exact .dollar p q text hcalm hrest
  · exact scans_name hrest hcalm p text
  · exact .value p hvalue hrest

/-- The names noted in a brace are those of the fields before, as far as looking them up goes. -/
def Noted (seen before : List FieldName) : Prop :=
  ∀ text, seen.find? (·.name = text) = before.find? (·.name = text)

/-- Noting a field before a colon finds what it repeats. -/
theorem Noted.note {seen before : List FieldName} (h : Noted seen before) (field : FieldName)
    (outer : List Frame) :
    ∃ seen', noteName field.position field.name true (.object seen :: outer) =
      (field.repeats? before, .object seen' :: outer) ∧ Noted seen' (before ++ [field]) := by
  have hfirst := h field.name
  cases hfind : before.find? (·.name = field.name) with
  | some first =>
    refine ⟨seen, ?_, fun text => ?_⟩
    · simp [noteName, FieldName.repeats?, hfirst, hfind]
    · rw [List.find?_append, ← h text]
      by_cases htext : field.name = text
      · subst htext
        rw [hfirst, hfind]
        rfl
      · simp [htext]
  | none =>
    refine ⟨field :: seen, ?_, fun text => ?_⟩
    · simp [noteName, FieldName.repeats?, hfirst, hfind]
    · rw [List.find?_append, ← h text]
      by_cases htext : field.name = text
      · subst htext
        simp [hfirst, hfind]
      · simp [htext]

/-- Read a field of an object literal, given how to read its value. -/
def objectField (value : Reader Written) : Reader (FieldName × Written) := do
  let position ← here
  let field ← name
  let _ ← mark .colon
  return (⟨field, position⟩, ← value)

theorem objectField_eq_ok {value : Reader Written} {field : FieldName} {w : Written}
    (h : objectField value ts = .ok ((field, w), rest)) :
    ∃ q mid, ts = ⟨.name field.name, field.position⟩ :: ⟨.punctuator .colon, q⟩ :: mid ∧
      value mid = .ok (w, rest) := by
  simp only [objectField, bind_eq_ok, here_eq_ok, name_eq_ok, mark_eq_ok, pure_eq_ok] at h
  obtain ⟨p, _, ⟨rfl, _, _, hhead⟩, text, _, ⟨p', htext⟩, q, mid, rfl, w', _, hvalue, heq, rfl⟩ := h
  cases heq
  rw [htext] at hhead
  cases hhead
  exact ⟨q, mid, htext, hvalue⟩

/-- A literal that is read has no parts, or it is a list or an object between brackets, whose parts
are read with one bracket less to open. -/
theorem written_cases {depth : ℕ} {w : Written} (h : written constant depth ts = .ok (w, rest)) :
    (∃ a, w = .atom a ∧ atom constant ts = .ok (a, rest)) ∨
      (∃ inner p q mid items, depth = inner + 1 ∧ w = .list items ∧
        ts = ⟨.punctuator .openBracket, p⟩ :: mid ∧
        many (!isMark .closeBracket ·) (written constant inner) mid =
          .ok (items, ⟨.punctuator .closeBracket, q⟩ :: rest)) ∨
      ∃ inner p q mid fields, depth = inner + 1 ∧ w = .object fields ∧
        ts = ⟨.punctuator .openBrace, p⟩ :: mid ∧
        many (!isMark .closeBrace ·) (objectField (written constant inner)) mid =
          .ok (fields, ⟨.punctuator .closeBrace, q⟩ :: rest) := by
  have hatom (h : (do return .atom (← atom constant) : Reader Written) ts = .ok (w, rest)) :
      ∃ a, w = .atom a ∧ atom constant ts = .ok (a, rest) := by
    simp only [bind_eq_ok, pure_eq_ok] at h
    obtain ⟨a, _, hread, rfl, rfl⟩ := h
    exact ⟨a, rfl, hread⟩
  cases depth with
  | zero => exact .inl (hatom h)
  | succ depth =>
    rw [written, bind_eq_ok] at h
    obtain ⟨token?, _, hpeek, h⟩ := h
    obtain ⟨htoken, rfl⟩ := peek_eq_ok.mp hpeek
    split at h
    · simp only [bind_eq_ok, take_eq_ok, mark_eq_ok, pure_eq_ok] at h
      obtain ⟨⟨token, p⟩, mid, rfl, items, _, hmany, q, _, rfl, rfl, rfl⟩ := h
      cases htoken
      exact .inr (.inl ⟨depth, p, q, mid, items, rfl, rfl, rfl, hmany⟩)
    · simp only [bind_eq_ok, take_eq_ok, mark_eq_ok, pure_eq_ok] at h
      obtain ⟨⟨token, p⟩, mid, rfl, fields, _, hmany, q, _, rfl, rfl, rfl⟩ := h
      cases htoken
      exact .inr (.inr ⟨depth, p, q, mid, fields, rfl, rfl, rfl, hmany⟩)
    · exact .inl (hatom h)

/-- Values are read where a brace opens an object literal. -/
def InValue (frames : List Frame) : Prop := Frame.ofBrace frames = .object []

/-- The fields of an object literal are found one after another, up to its closing brace. -/
theorem scans_fields {value : Reader Written} (hvalue : ∀ frames, InValue frames →
      Finds frames value Written.repeats) {fields : List (FieldName × Written)}
    {seen before : List FieldName} (hnoted : Noted seen before) {p : Position}
    (hread : many (!isMark .closeBrace ·) (objectField value) ts =
      .ok (fields, ⟨.punctuator .closeBrace, p⟩ :: rest))
    (hrest : Scans outer rest found) :
    Scans (.object seen :: outer) ts (Written.fieldRepeats before fields ++ found) := by
  induction fields generalizing ts seen before with
  | nil =>
    rcases many_cases hread with ⟨-, rfl⟩ | ⟨a, as', mid, heq, -⟩
    · exact .mark p (by simp) hrest
    · cases heq
  | cons first fields ih =>
    rcases many_cases hread with ⟨heq, -⟩ | ⟨a, as', mid, heq, hitem, hmany⟩
    · cases heq
    · cases heq
      obtain ⟨field, w⟩ := first
      obtain ⟨q, after, rfl, hw⟩ := objectField_eq_ok hitem
      obtain ⟨seen', hnote, hnoted'⟩ := hnoted.note field outer
      have hfields := ih hnoted' hmany
      have hcalm : Calm (.object seen' :: outer) mid := by
        intro _ _ _
        rcases many_cases hmany with ⟨-, hmid⟩ | ⟨⟨field', w'⟩, _, _, -, hitem', -⟩
        · rw [← hmid]
          rfl
        · obtain ⟨_, _, rfl, -⟩ := objectField_eq_ok hitem'
          rfl
      have hw' := hvalue (.object seen' :: outer) rfl hw hcalm hfields
      have hcolon : Scans (.object seen' :: outer) (⟨.punctuator .colon, q⟩ :: after) _ :=
        .mark q (by simp) hw'
      have hname : Scans (.object seen :: outer)
          (⟨.name field.name, field.position⟩ :: ⟨.punctuator .colon, q⟩ :: after) _ :=
        .name field.position field.name (by
          rw [show startsColon (⟨.punctuator .colon, q⟩ :: after) = true from rfl, hnote]
          exact hcolon)
      rw [show startsColon (⟨.punctuator .colon, q⟩ :: after) = true from rfl, hnote] at hname
      simpa only [Written.fieldRepeats, List.append_assoc] using hname

theorem finds_written (constant : Bool) (depth : ℕ) :
    ∀ frames, InValue frames → Finds frames (written constant depth) Written.repeats := by
  induction depth using Nat.strongRecOn with
  | _ depth ih =>
    intro frames hframes ts w rest found hread hcalm hrest
    rcases written_cases hread with ⟨a, rfl, hatom⟩ |
      ⟨inner, p, q, mid, items, rfl, rfl, rfl, hmany⟩ |
      ⟨inner, p, q, mid, fields, rfl, rfl, rfl, hmany⟩
    · exact finds_atom constant frames hatom hcalm hrest
    · have hitem := ih inner (Nat.lt_succ_self inner) (.list :: frames) rfl
      have hunnoted := unnoted_list frames
      have hclose : Scans (.list :: frames) (⟨.punctuator .closeBracket, q⟩ :: rest) found :=
        .mark q (by simp) hrest
      have hitems := finds_many hunnoted hitem hmany (hunnoted.calm _) hclose
      rw [Written.repeats, Written.itemRepeats_eq_flatMap]
      exact .mark p (by simp) hitems
    · have hopen : afterMark .openBrace frames = .object [] :: frames := by
        rw [afterMark, hframes]
      refine .mark p (by simp) ?_
      rw [hopen, Written.repeats]
      exact scans_fields (ih inner (Nat.lt_succ_self inner)) (fun _ => rfl) hmany hrest

/-! ### Type references -/

theorem finds_requiredMark (type : TypeRef) (frames : List Frame) :
    Finds frames (requiredMark type) fun _ => [] := by
  intro ts type' rest found hread _ hrest
  rw [requiredMark, bind_eq_ok] at hread
  obtain ⟨taken, mid, hskip, hread⟩ := hread
  rcases skip?_eq_ok.mp hskip with ⟨rfl, p, rfl⟩ | ⟨rfl, rfl, -⟩
  · obtain ⟨-, rfl⟩ := pure_eq_ok.mp hread
    exact .mark p (by simp) hrest
  · obtain ⟨-, rfl⟩ := pure_eq_ok.mp hread
    exact hrest

/-- The name of a type, and perhaps the mark of a required type. -/
theorem finds_namedType (hframes : Unnoted frames) {type : TypeRef}
    (hread : (do requiredMark (.named (← name) true) : Reader TypeRef) ts = .ok (type, rest))
    (hrest : Scans frames rest found) : Scans frames ts found := by
  rw [bind_eq_ok] at hread
  obtain ⟨text, mid, hname, hmark⟩ := hread
  obtain ⟨p, rfl⟩ := name_eq_ok.mp hname
  exact scans_name (finds_requiredMark _ frames hmark (hframes.calm _) hrest) (hframes.calm _) p text

theorem finds_typeRef (depth : ℕ) :
    ∀ frames, Unnoted frames → Finds frames (typeRef depth) fun _ => [] := by
  induction depth with
  | zero =>
    intro frames hframes ts type rest found hread _ hrest
    exact finds_namedType hframes hread hrest
  | succ depth ih =>
    intro frames hframes ts type rest found hread _ hrest
    rw [typeRef, bind_eq_ok] at hread
    obtain ⟨taken, mid, hskip, hread⟩ := hread
    rcases skip?_eq_ok.mp hskip with ⟨rfl, p, rfl⟩ | ⟨rfl, rfl, -⟩
    · simp only [if_true, bind_eq_ok, mark_eq_ok] at hread
      obtain ⟨item, _, hitem, q, after, rfl, hmark⟩ := hread
      have hunnoted := unnoted_list frames
      have hafter := finds_requiredMark _ frames hmark (hframes.calm _) hrest
      have hclose : Scans (.list :: frames) (⟨.punctuator .closeBracket, q⟩ :: after) found :=
        .mark q (by simp) hafter
      exact .mark p (by simp) (ih _ hunnoted hitem (hunnoted.calm _) hclose)
    · exact finds_namedType hframes hread hrest

/-! ### Arguments and directives -/

theorem finds_argument (constant : Bool) (depth : ℕ) (frames : List Frame) :
    Finds (.arguments :: frames) (argument constant depth) Argument.repeats := by
  intro ts a rest found hread hcalm hrest
  simp only [argument, bind_eq_ok, name_eq_ok, mark_eq_ok, pure_eq_ok] at hread
  obtain ⟨text, _, ⟨p, rfl⟩, q, mid, rfl, w, _, hw, rfl, rfl⟩ := hread
  have hvalue := finds_written constant depth (.arguments :: frames) rfl hw hcalm hrest
  have hcolon : Scans (.arguments :: frames) (⟨.punctuator .colon, q⟩ :: mid) _ :=
    .mark q (by simp) hvalue
  exact scans_name hcolon ((unnoted_arguments frames).calm _) p text

theorem finds_arguments (constant : Bool) (depth : ℕ) (frames : List Frame) :
    Finds frames (arguments constant depth) (·.flatMap Argument.repeats) := by
  intro ts as rest found hread _ hrest
  cases depth with
  | zero =>
    rw [arguments, bind_eq_ok] at hread
    obtain ⟨taken, mid, hskip, hread⟩ := hread
    rcases skip?_eq_ok.mp hskip with ⟨rfl, p, rfl⟩ | ⟨rfl, rfl, -⟩
    · cases hread
    · obtain ⟨rfl, rfl⟩ := pure_eq_ok.mp hread
      exact hrest
  | succ depth =>
    rw [arguments, bind_eq_ok] at hread
    obtain ⟨taken, mid, hskip, hread⟩ := hread
    rcases skip?_eq_ok.mp hskip with ⟨rfl, p, rfl⟩ | ⟨rfl, rfl, -⟩
    · simp only [if_true, bind_eq_ok, mark_eq_ok, pure_eq_ok] at hread
      obtain ⟨args, _, hargs, q, after, rfl, rfl, rfl⟩ := hread
      have hunnoted := unnoted_arguments frames
      have hclose : Scans (.arguments :: frames) (⟨.punctuator .closeParen, q⟩ :: after) found :=
        .mark q (by simp) hrest
      exact .mark p (by simp) (finds_many1 hunnoted (finds_argument constant depth frames) hargs
        (hunnoted.calm _) hclose)
    · obtain ⟨rfl, rfl⟩ := pure_eq_ok.mp hread
      exact hrest

theorem finds_directive (constant : Bool) (depth : ℕ) (hframes : Unnoted frames) :
    Finds frames (directive constant depth) Directive.repeats := by
  intro ts d rest found hread hcalm hrest
  simp only [directive, bind_eq_ok, name_eq_ok, mark_eq_ok, pure_eq_ok] at hread
  obtain ⟨p, _, rfl, text, _, ⟨q, rfl⟩, args, _, hargs, rfl, rfl⟩ := hread
  have harguments := finds_arguments constant depth frames hargs hcalm hrest
  exact .mark p (by simp) (scans_name harguments (hframes.calm _) q text)

theorem finds_directives (constant : Bool) (depth : ℕ) (hframes : Unnoted frames) :
    Finds frames (directives constant depth) (·.flatMap Directive.repeats) :=
  finds_many hframes (finds_directive constant depth hframes)

/-! ### Selections -/

/-- Selections are read where a brace opens a selection set. -/
def InSet (frames : List Frame) : Prop := Frame.ofBrace frames = .selectionSet

theorem InSet.unnoted (h : InSet frames) : Unnoted frames := by
  rintro seen outer rfl
  cases h

variable {set : Reader SelectionSet}

/-- The second name of a field with an alias is passed over. -/
theorem scans_alias (hframes : InSet frames) {alias? : Option String}
    (hread : optional (isMark .colon) (do let _ ← mark .colon; name) ts = .ok (alias?, rest))
    (hrest : Scans frames rest found) : Scans frames ts found := by
  rcases optional_cases hread with ⟨second, -, hread⟩ | ⟨-, rfl⟩
  · simp only [bind_eq_ok, mark_eq_ok, name_eq_ok] at hread
    obtain ⟨p, _, rfl, q, rfl⟩ := hread
    exact .mark p (by simp) (scans_name hrest (hframes.unnoted.calm _) q second)
  · exact hrest

theorem finds_field (hframes : InSet frames) (hset : Finds frames set SelectionSet.repeats) :
    Finds frames (field depth set) Selection.repeats := by
  intro ts item rest found hread hcalm hrest
  simp only [field, bind_eq_ok, here_eq_ok, name_eq_ok] at hread
  obtain ⟨p, _, ⟨rfl, -⟩, text, _, ⟨q, rfl⟩, alias?, afterName, halias, args, afterArgs, hargs, dirs,
    afterDirs, hdirs, sub?, afterSub, hsub, hread⟩ := hread
  have hcalm' := hframes.unnoted.calm
  obtain ⟨own, hitem, hown⟩ : ∃ own : List RepeatedField,
      item.repeats = args.flatMap Argument.repeats ++ (dirs.flatMap Directive.repeats ++ own) ∧
        Scans frames afterDirs (own ++ found) := by
    rcases optional_cases hsub with ⟨sub, rfl, hread'⟩ | ⟨rfl, rfl⟩
    · obtain ⟨rfl, rfl⟩ := pure_eq_ok.mp hread
      refine ⟨sub.repeats, ?_, hset hread' hcalm hrest⟩
      cases alias? <;> simp [Selection.repeats, Field.repeats, SelectionSet.repeats]
    · obtain ⟨rfl, rfl⟩ := pure_eq_ok.mp hread
      refine ⟨[], ?_, hrest⟩
      cases alias? <;> simp [Selection.repeats, Field.repeats, Selection.setRepeats]
  have hdirectives := finds_directives false depth hframes.unnoted hdirs (hcalm' _) hown
  have harguments := finds_arguments false depth frames hargs (hcalm' _) hdirectives
  rw [hitem, List.append_assoc, List.append_assoc]
  exact scans_name (scans_alias hframes halias harguments) (hcalm' _) q text

theorem finds_inlineFragment (hframes : InSet frames)
    (hset : Finds frames set SelectionSet.repeats) (p : Position) (condition? : Option String) :
    Finds frames (inlineFragment depth set p condition?) Selection.repeats := by
  intro ts item rest found hread hcalm hrest
  simp only [inlineFragment, bind_eq_ok, pure_eq_ok] at hread
  obtain ⟨dirs, mid, hdirs, sub, _, hsub, rfl, rfl⟩ := hread
  have hinside := hset hsub hcalm hrest
  rw [Selection.repeats, List.append_assoc]
  exact finds_directives false depth hframes.unnoted hdirs (hframes.unnoted.calm _) hinside

theorem finds_afterEllipsis (hframes : InSet frames)
    (hset : Finds frames set SelectionSet.repeats) :
    Finds frames (afterEllipsis depth set) Selection.repeats := by
  intro ts item rest found hread hcalm hrest
  rw [afterEllipsis, bind_eq_ok] at hread
  obtain ⟨p, _, hhere, hread⟩ := hread
  obtain ⟨rfl, -⟩ := here_eq_ok.mp hhere
  rw [bind_eq_ok] at hread
  obtain ⟨token?, _, hpeek, hread⟩ := hread
  obtain ⟨htoken, rfl⟩ := peek_eq_ok.mp hpeek
  have hcalm' := hframes.unnoted.calm
  split at hread
  · simp only [bind_eq_ok, take_eq_ok, name_eq_ok] at hread
    obtain ⟨⟨token, q⟩, _, rfl, condition, mid, ⟨r, rfl⟩, hread⟩ := hread
    cases htoken
    have hinline := finds_inlineFragment hframes hset p (some condition) hread hcalm hrest
    exact scans_name (scans_name hinline (hcalm' _) r condition) (hcalm' _) q "on"
  · rename_i text _
    simp only [bind_eq_ok, take_eq_ok, pure_eq_ok] at hread
    obtain ⟨⟨token, q⟩, _, rfl, dirs, _, hdirs, rfl, rfl⟩ := hread
    cases htoken
    have hdirectives := finds_directives false depth hframes.unnoted hdirs (hcalm' _) hrest
    exact scans_name hdirectives (hcalm' _) q text
  · exact finds_inlineFragment hframes hset p none hread hcalm hrest

theorem finds_selection (hframes : InSet frames) (hset : Finds frames set SelectionSet.repeats) :
    Finds frames (selection depth set) Selection.repeats := by
  intro ts item rest found hread hcalm hrest
  rw [selection, bind_eq_ok] at hread
  obtain ⟨taken, mid, hskip, hread⟩ := hread
  rcases skip?_eq_ok.mp hskip with ⟨rfl, p, rfl⟩ | ⟨rfl, rfl, -⟩
  · exact .mark p (by simp) (finds_afterEllipsis hframes hset hread hcalm hrest)
  · exact finds_field hframes hset hread hcalm hrest

theorem finds_selectionSet (depth : ℕ) :
    ∀ frames, InSet frames → Finds frames (selectionSet depth) SelectionSet.repeats := by
  induction depth with
  | zero =>
    intro frames _ ts set rest found hread
    exact (refuse_eq_ok.mp hread).elim
  | succ depth ih =>
    intro frames hframes ts set rest found hread hcalm hrest
    simp only [selectionSet, bind_eq_ok, mark_eq_ok, pure_eq_ok] at hread
    obtain ⟨p, _, rfl, items, _, hitems, q, _, rfl, rfl, rfl⟩ := hread
    have hinside : InSet (.selectionSet :: frames) := rfl
    have hopen : afterMark .openBrace frames = .selectionSet :: frames := by
      rw [afterMark, hframes]
    have hclose : Scans (.selectionSet :: frames) (⟨.punctuator .closeBrace, q⟩ :: _) found :=
      .mark q (by simp) hrest
    refine .mark p (by simp) ?_
    rw [hopen, SelectionSet.repeats, Selection.setRepeats_eq_flatMap]
    exact finds_many1 hinside.unnoted (finds_selection hinside (ih _ hinside)) hitems
      (hinside.unnoted.calm _) hclose

/-! ### Definitions -/

theorem finds_variableDefinition (depth : ℕ) (frames : List Frame) :
    Finds (.arguments :: frames) (variableDefinition depth) VariableDefinition.repeats := by
  intro ts x rest found hread hcalm hrest
  simp only [variableDefinition, bind_eq_ok, mark_eq_ok, name_eq_ok, pure_eq_ok] at hread
  obtain ⟨p, _, rfl, text, _, ⟨q, rfl⟩, r, afterColon, rfl, type, afterType, htype, written?, _,
    hwritten, rfl, rfl⟩ := hread
  have hunnoted := unnoted_arguments frames
  have hdefault : Scans (.arguments :: frames) afterType
      (written?.toList.flatMap Written.repeats ++ found) := by
    rcases optional_cases hwritten with ⟨w, rfl, hread⟩ | ⟨rfl, rfl⟩
    · simp only [bind_eq_ok, mark_eq_ok] at hread
      obtain ⟨s, mid, rfl, hw⟩ := hread
      have hvalue := finds_written true depth (.arguments :: frames) rfl hw hcalm hrest
      rw [Option.toList_some, List.flatMap_singleton]
      exact .mark s (by simp) hvalue
    · exact hrest
  have htyped := finds_typeRef depth _ hunnoted htype (hunnoted.calm _) hdefault
  have hcolon : Scans (.arguments :: frames) (⟨.punctuator .colon, r⟩ :: afterColon) _ :=
    .mark r (by simp) htyped
  exact .dollar p q text (hunnoted.calm _) hcolon

theorem finds_variableDefinitions (depth : ℕ) (frames : List Frame) :
    Finds frames (variableDefinitions depth) (·.flatMap VariableDefinition.repeats) := by
  intro ts declared rest found hread _ hrest
  cases depth with
  | zero =>
    obtain ⟨rfl, rfl⟩ := pure_eq_ok.mp hread
    exact hrest
  | succ depth =>
    rw [variableDefinitions, bind_eq_ok] at hread
    obtain ⟨taken, mid, hskip, hread⟩ := hread
    rcases skip?_eq_ok.mp hskip with ⟨rfl, p, rfl⟩ | ⟨rfl, rfl, -⟩
    · simp only [if_true, bind_eq_ok, mark_eq_ok, pure_eq_ok] at hread
      obtain ⟨list, _, hlist, q, after, rfl, rfl, rfl⟩ := hread
      have hunnoted := unnoted_arguments frames
      have hclose : Scans (.arguments :: frames) (⟨.punctuator .closeParen, q⟩ :: after) found :=
        .mark q (by simp) hrest
      exact .mark p (by simp) (finds_many1 hunnoted (finds_variableDefinition depth frames) hlist
        (hunnoted.calm _) hclose)
    · obtain ⟨rfl, rfl⟩ := pure_eq_ok.mp hread
      exact hrest

/-- Outside all brackets every name is passed over. -/
theorem calm_nil (ts : List Lexeme) : Calm [] ts := by
  rintro seen outer ⟨⟩

theorem inSet_nil : InSet [] := rfl

theorem finds_operation (depth : ℕ) (kind : OperationKind) (p : Position) :
    Finds [] (operation depth kind p) Definition.repeats := by
  intro ts definition rest found hread hcalm hrest
  simp only [operation, bind_eq_ok, pure_eq_ok] at hread
  obtain ⟨name?, afterName, hname, declared, afterVariables, hdeclared, dirs, afterDirs, hdirs, set,
    _, hset, rfl, rfl⟩ := hread
  have hselections := finds_selectionSet depth [] inSet_nil hset hcalm hrest
  have hdirectives := finds_directives false depth inSet_nil.unnoted hdirs (calm_nil _) hselections
  have hvariables := finds_variableDefinitions depth [] hdeclared (calm_nil _) hdirectives
  rw [Definition.repeats, List.append_assoc, List.append_assoc]
  rcases optional_cases hname with ⟨text, -, hname⟩ | ⟨-, rfl⟩
  · obtain ⟨q, rfl⟩ := name_eq_ok.mp hname
    exact scans_name hvariables (calm_nil _) q text
  · exact hvariables

theorem finds_fragment (depth : ℕ) (p : Position) :
    Finds [] (fragment depth p) Definition.repeats := by
  intro ts definition rest found hread hcalm hrest
  simp only [fragment, bind_eq_ok, name_eq_ok, keyword_eq_ok, pure_eq_ok] at hread
  obtain ⟨text, _, ⟨q, rfl⟩, r, _, rfl, condition, _, ⟨s, rfl⟩, dirs, afterDirs, hdirs, set, _,
    hset, rfl, rfl⟩ := hread
  have hselections := finds_selectionSet depth [] inSet_nil hset hcalm hrest
  have hdirectives := finds_directives false depth inSet_nil.unnoted hdirs (calm_nil _) hselections
  rw [Definition.repeats, List.append_assoc]
  have hcondition := scans_name hdirectives (calm_nil _) s condition
  exact scans_name (scans_name hcondition (calm_nil _) r "on") (calm_nil _) q text

/-- A keyword is passed over before what it starts. -/
theorem finds_keyword {r : Reader Definition} (h : Finds [] r Definition.repeats) {word : String}
    {read : Definition} (htoken : some (Token.name word) = ts.head?.map (·.token))
    (hread : (do let _ ← take; r : Reader Definition) ts = .ok (read, rest))
    (hrest : Scans [] rest found) : Scans [] ts (read.repeats ++ found) := by
  simp only [bind_eq_ok, take_eq_ok] at hread
  obtain ⟨⟨token, q⟩, _, rfl, hread⟩ := hread
  cases htoken
  exact scans_name (h hread (calm_nil _) hrest) (calm_nil _) q word

theorem finds_definition (depth : ℕ) : Finds [] (definition depth) Definition.repeats := by
  intro ts read rest found hread hcalm hrest
  rw [definition, bind_eq_ok] at hread
  obtain ⟨p, _, hhere, hread⟩ := hread
  obtain ⟨rfl, -⟩ := here_eq_ok.mp hhere
  rw [bind_eq_ok] at hread
  obtain ⟨token?, _, hpeek, hread⟩ := hread
  obtain ⟨htoken, rfl⟩ := peek_eq_ok.mp hpeek
  split at hread
  · exact finds_keyword (finds_operation depth .query p) htoken hread hrest
  · exact finds_keyword (finds_operation depth .mutation p) htoken hread hrest
  · exact finds_keyword (finds_operation depth .subscription p) htoken hread hrest
  · exact finds_keyword (finds_fragment depth p) htoken hread hrest
  · simp only [bind_eq_ok, pure_eq_ok] at hread
    obtain ⟨set, _, hset, rfl, rfl⟩ := hread
    exact finds_selectionSet depth [] inSet_nil hset hcalm hrest

/-- The search along the lexemes of a document finds what the document repeats. -/
theorem scans_definitions {list : List Definition} (hread : definitions ts = .ok (list, rest)) :
    Scans [] ts (list.flatMap Definition.repeats) := by
  simp only [definitions, bind_eq_ok, finish_eq_ok, pure_eq_ok] at hread
  obtain ⟨all, _, hall, _, _, ⟨rfl, rfl⟩, rfl, rfl⟩ := hread
  have hscans := finds_many1 inSet_nil.unnoted (finds_definition nestingLimit) hall (calm_nil _)
    (.nil [])
  rwa [List.append_nil] at hscans

end Reader

/-- The search finds the repetitions of the document, each at the positions that the same two names
have if every character counts for one column. -/
theorem Document.repeatedFields_moved {text : String} {d : Document} (hread : ofText text = .ok d)
    (hreturns : ∀ x ∈ Token.cuts text.toList, RepeatedField.breaksLine x.2.raw = false)
    {P : String → Position → Position → Prop}
    (hplaces : List.Forall₂ (RepeatedField.Moved P) (Token.lex text.toList)
      (Token.place Position.start (Token.cuts text.toList))) :
    List.Forall₂ (RepeatedField.EntryMoved P) d.repeats d.repeatedFields := by
  obtain ⟨⟨rest, hlist⟩, hscan⟩ := Document.ofText_eq_ok.mp hread
  obtain ⟨found, hplaced, hfound⟩ := (Reader.scans_definitions hlist).relocate .nil hplaces
  rw [hscan, RepeatedField.scan, RepeatedField.scanFrom_of_scans hplaced rfl hreturns]
  exact hfound

end GraphQLCheck
