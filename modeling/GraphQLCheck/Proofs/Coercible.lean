import GraphQLCheck.Proofs.Substitution
import GraphQLCheck.Proofs.Subtypes
import Mathlib.Algebra.Ring.Int.Defs

/-!
# Coercible literals

Which literals are values of a type, as rules (`Coercible`): one for variables and one for `null`,
two for lists, one for input objects, and those for the types at which a literal ends. The check of
a literal goes through the same cases, but it collects faults, and it looks at once for the name
inside all lists when a literal stands for a list of one.

What the check does one step at a time is a relation of its own (`Coercion.Finds`): from a literal
that is no list at a list type it goes on with the same literal, and from a field of an object with
the type that the schema gives that field, which can be any type. A derivation is the tree of the
calls. There is one for every literal and type, whatever the schema, since each call has a part of
the literal, or the whole literal and the type of the items.

## What is proved

* `Coercion.finds_faults`, `Coercion.Finds.eq_faults` — the calls come to an end, with the faults.
* `Coercion.Finds.eq_nil_iff` — no faults are found exactly if the literal is coercible.
* `literal_accepted_iff_coercible` — both together.
* `literal_accepted_at_supertype` — what is coercible to a type is so to all types above it.
-/

namespace GraphQLCheck

/-! ### The rules -/

namespace Literal

/-- Neither a variable nor `null`. -/
def isDefinite : Literal → Bool
  | .atom (.var _) => false
  | .atom .null => false
  | _ => true

/-- Neither a variable nor `null` nor a list. -/
def isSingle : Literal → Bool
  | .list _ => false
  | v => v.isDefinite

theorem eq_of_not_isDefinite {v : Literal} (h : v.isDefinite = false) :
    (∃ name, v = .atom (.var name)) ∨ v = .atom .null := by
  cases v with
  | atom a =>
    cases a with
    | var name => exact .inl ⟨name, rfl⟩
    | null => exact .inr rfl
    | int _ | float _ | string _ | bool _ | enum _ => cases h
  | list items => cases h
  | object fields => cases h

end Literal

/-- The atoms that a builtin scalar takes. -/
inductive BuiltinScalar.Takes : BuiltinScalar → Atom → Prop where
  /-- Truth values. -/
  | boolean (value : Bool) : Takes .boolean (.bool value)
  /-- Numbers with a fraction or an exponent. -/
  | float (value : Binary64) : Takes .float (.float value)
  /-- Whole numbers stand for others. -/
  | floatOfInt (value : Int) : Takes .float (.int value)
  /-- Whole numbers of any size are identifiers. -/
  | idOfInt (value : Int) : Takes .id (.int value)
  /-- Texts are identifiers. -/
  | idOfString (text : String) : Takes .id (.string text)
  /-- Whole numbers of 32 bits. -/
  | int (value : Int) : -2 ^ 31 ≤ value → value < 2 ^ 31 → Takes .int (.int value)
  /-- Texts. -/
  | string (text : String) : Takes .string (.string text)

/-- A literal can be taken for a value of a type. -/
inductive Coercible (s : Schema) : Literal → TypeRef → Prop where
  /-- A variable can, at any type. -/
  | var {name : String} {type : TypeRef} : Coercible s (.atom (.var name)) type
  /-- So can `null` where it is a value. -/
  | null {type : TypeRef} : type.nullable = true → Coercible s (.atom .null) type
  /-- A list can, if all its items can. -/
  | items {items : List Literal} {item : TypeRef} {n : Bool} :
      (∀ v ∈ items, Coercible s v item) → Coercible s (.list items) (.list item n)
  /-- Any other literal stands for a list of one. -/
  | single {v : Literal} {item : TypeRef} {n : Bool} :
      v.isSingle = true → Coercible s v item → Coercible s v (.list item n)
  /-- An object can, if all its fields are declared, those given have values of their types, and
  those left out may be `null` or have a default value. -/
  | object {fields : List (String × Literal)} {name : String} {n : Bool} {t : TypeDefinition}
      {parameters : List InputValue} :
      s.type? name = some t → t.body = .inputObject parameters →
      (∀ f ∈ fields, ∃ p ∈ parameters, p.name = f.1) →
      (∀ p ∈ parameters, ∀ value, fields.lookup p.name = some value → Coercible s value p.type) →
      (∀ p ∈ parameters, fields.lookup p.name = none →
        p.type.nullable = true ∨ p.default?.isSome = true) →
      Coercible s (.object fields) (.named name n)
  /-- A literal of the right kind can, at a builtin scalar. -/
  | builtin {a : Atom} {name : String} {n : Bool} {t : TypeDefinition} {scalar : BuiltinScalar} :
      s.type? name = some t → t.body = .builtin scalar → scalar.Takes a →
      Coercible s (.atom a) (.named name n)
  /-- The name of a declared value can, at an enum. -/
  | enum {value name : String} {n : Bool} {t : TypeDefinition} {values : List EnumValue} :
      s.type? name = some t → t.body = .enum values → (∃ x ∈ values, x.name = value) →
      Coercible s (.atom (.enum value)) (.named name n)
  /-- Everything can, at a type that is not known. -/
  | unknown {v : Literal} {name : String} {n : Bool} :
      v.isDefinite = true → s.type? name = none → Coercible s v (.named name n)
  /-- Everything can, at a defined scalar and at a type whose values are only answered. -/
  | unchecked {v : Literal} {name : String} {n : Bool} {t : TypeDefinition} :
      v.isDefinite = true → s.type? name = some t → t.body = .scalar ∨ t.isComposite = true →
      Coercible s v (.named name n)

namespace Coercible

variable {s : Schema} {v : Literal} {item : TypeRef} {n : Bool}

theorem null_iff {type : TypeRef} :
    Coercible s (.atom .null) type ↔ type.nullable = true := by
  constructor
  · intro h
    cases h with
    | null hnullable => exact hnullable
    | builtin _ _ htakes => cases htakes
    | single hv _ | unknown hv _ | unchecked hv _ _ => cases hv
  · exact .null

theorem items_iff {items : List Literal} :
    Coercible s (.list items) (.list item n) ↔ ∀ v ∈ items, Coercible s v item := by
  constructor
  · intro h
    cases h with
    | items hitems => exact hitems
    | single hv _ => cases hv
  · exact .items

theorem single_iff (hv : v.isSingle = true) :
    Coercible s v (.list item n) ↔ Coercible s v item := by
  constructor
  · intro h
    cases h with
    | var | null _ | items _ => cases hv
    | single _ h => exact h
  · exact .single hv

end Coercible

/-! ### Types at which a literal ends -/

namespace Coercion

variable {s : Schema} {t : TypeDefinition} {v : Literal} {name : String} {n : Bool}

theorem fitsInt32_iff {value : Int} :
    fitsInt32 value = true ↔ -2 ^ 31 ≤ value ∧ value < 2 ^ 31 := by
  rw [fitsInt32, decide_eq_true_eq]
  omega

theorem takes_of_acceptsLeaf {scalar : BuiltinScalar} (hbody : t.body = .builtin scalar) {a : Atom}
    (h : acceptsLeaf t (.atom a) = true) : scalar.Takes a := by
  cases scalar with
  | boolean =>
    cases a with
    | bool value => exact .boolean value
    | _ => simp [acceptsLeaf, hbody] at h
  | float =>
    cases a with
    | float value => exact .float value
    | int value => exact .floatOfInt value
    | _ => simp [acceptsLeaf, hbody] at h
  | id =>
    cases a with
    | int value => exact .idOfInt value
    | string text => exact .idOfString text
    | _ => simp [acceptsLeaf, hbody] at h
  | int =>
    cases a with
    | int value =>
      simp only [acceptsLeaf, hbody] at h
      obtain ⟨hlower, hupper⟩ := fitsInt32_iff.mp h
      exact .int value hlower hupper
    | _ => simp [acceptsLeaf, hbody] at h
  | string =>
    cases a with
    | string text => exact .string text
    | _ => simp [acceptsLeaf, hbody] at h

theorem acceptsLeaf_of_takes {scalar : BuiltinScalar} (hbody : t.body = .builtin scalar) {a : Atom}
    (h : scalar.Takes a) : acceptsLeaf t (.atom a) = true := by
  cases h with
  | int value hlower hupper =>
    simp only [acceptsLeaf, hbody]
    exact fitsInt32_iff.mpr ⟨hlower, hupper⟩
  | boolean _ | float _ | floatOfInt _ | idOfInt _ | idOfString _ | string _ =>
    simp [acceptsLeaf, hbody]

theorem acceptsLeaf_builtin_iff {scalar : BuiltinScalar} (hbody : t.body = .builtin scalar) :
    acceptsLeaf t v = true ↔ ∃ a, v = .atom a ∧ scalar.Takes a := by
  cases v with
  | atom a => simpa using ⟨takes_of_acceptsLeaf hbody, acceptsLeaf_of_takes hbody⟩
  | list items => simp [acceptsLeaf, hbody]
  | object fields => simp [acceptsLeaf, hbody]

theorem acceptsLeaf_enum_iff {values : List EnumValue} (hbody : t.body = .enum values) :
    acceptsLeaf t v = true ↔ ∃ value, v = .atom (.enum value) ∧ ∃ x ∈ values, x.name = value := by
  cases v with
  | atom a =>
    cases a with
    | enum value =>
      simp only [acceptsLeaf, hbody, TypeDefinition.enumValue?, List.find?_isSome,
        decide_eq_true_eq]
      constructor
      · intro h
        exact ⟨value, rfl, h⟩
      · rintro ⟨_, ⟨⟩, h⟩
        exact h
    | _ => simp [acceptsLeaf, hbody]
  | list items => simp [acceptsLeaf, hbody]
  | object fields => simp [acceptsLeaf, hbody]

theorem acceptsLeaf_of_unchecked (h : t.body = .scalar ∨ t.isComposite = true) (v : Literal) :
    acceptsLeaf t v = true := by
  cases hbody : t.body with
  | scalar | object _ _ | interface _ _ | union _ => simp [acceptsLeaf, hbody]
  | builtin _ | enum _ | inputObject _ =>
    simp [TypeDefinition.isComposite, TypeDefinition.kind, TypeKind.isComposite, hbody] at h

/-- Apart from input objects, a type takes the literals that are coercible to it. -/
theorem acceptsLeaf_iff_coercible (hv : v.isDefinite = true) (ht : s.type? name = some t)
    (hleaf : ∀ parameters, t.body ≠ .inputObject parameters) :
    acceptsLeaf t v = true ↔ Coercible s v (.named name n) := by
  constructor
  · intro h
    cases hbody : t.body with
    | builtin scalar =>
      obtain ⟨a, rfl, htakes⟩ := (acceptsLeaf_builtin_iff hbody).mp h
      exact .builtin ht hbody htakes
    | enum values =>
      obtain ⟨value, rfl, hvalue⟩ := (acceptsLeaf_enum_iff hbody).mp h
      exact .enum ht hbody hvalue
    | inputObject parameters => exact absurd hbody (hleaf parameters)
    | scalar => exact .unchecked hv ht (.inl hbody)
    | object _ _ | interface _ _ | union _ =>
      refine .unchecked hv ht (.inr ?_)
      simp [TypeDefinition.isComposite, TypeDefinition.kind, TypeKind.isComposite, hbody]
  · intro h
    cases h with
    | var | null _ => cases hv
    | object ht' hbody =>
      obtain rfl := Option.some.inj (ht.symm.trans ht')
      exact absurd hbody (hleaf _)
    | builtin ht' hbody htakes =>
      obtain rfl := Option.some.inj (ht.symm.trans ht')
      exact acceptsLeaf_of_takes hbody htakes
    | enum ht' hbody hvalue =>
      obtain rfl := Option.some.inj (ht.symm.trans ht')
      exact (acceptsLeaf_enum_iff hbody).mpr ⟨_, rfl, hvalue⟩
    | unknown _ hnone =>
      rw [ht] at hnone
      cases hnone
    | unchecked _ ht' hunchecked =>
      obtain rfl := Option.some.inj (ht.symm.trans ht')
      exact acceptsLeaf_of_unchecked hunchecked v

/-! ### The calls of the check -/

/-- The check of a literal at a type, one call at a time, and the faults that it finds. A derivation
is the tree of the calls. -/
inductive Finds (s : Schema) : Literal → TypeRef → List CoercionFault → Prop where
  /-- A variable is let through. -/
  | var {name : String} {type : TypeRef} : Finds s (.atom (.var name)) type []
  /-- At `null` the type decides. -/
  | null {type : TypeRef} :
      Finds s (.atom .null) type (if type.nullable then [] else [⟨[], .unexpectedNull type⟩])
  /-- Each item of a list is checked at the type of the items. -/
  | items {items : List Literal} {item : TypeRef} {n : Bool}
      {found : Literal → List CoercionFault} :
      (∀ v ∈ items, Finds s v item (found v)) →
      Finds s (.list items) (.list item n)
        (items.zipIdx.flatMap fun p => (found p.1).map (·.inside (.element p.2)))
  /-- Any other literal is checked at the type of the items itself. -/
  | single {v : Literal} {item : TypeRef} {n : Bool} {found : List CoercionFault} :
      v.isSingle = true → Finds s v item found → Finds s v (.list item n) found
  /-- What is no object is checked at a name without another call. -/
  | named {v : Literal} {name : String} {n : Bool} :
      v.isDefinite = true → (∀ fields, v ≠ .object fields) →
      Finds s v (.named name n) (namedFaults s name v)
  /-- Each given field of an input object is checked at the type that it has in the schema. -/
  | object {fields : List (String × Literal)} {name : String} {n : Bool} {found : Literal → Check} :
      (∀ t parameters, s.type? name = some t → t.body = .inputObject parameters →
        ∀ p ∈ parameters, ∀ value, fields.lookup p.name = some value →
          Finds s value p.type (found value p.type)) →
      Finds s (.object fields) (.named name n)
        (objectFaults s name (.object fields) (fields.map fun f => (f.1, found f.2)))

theorem itemFaults_eq_flatMap (s : Schema) (index : ℕ) (items : List Literal) (type : TypeRef) :
    itemFaults s index items type = (items.zipIdx index).flatMap fun p =>
      (faults s p.1 type).map (·.inside (.element p.2)) := by
  induction items generalizing index with
  | nil => rfl
  | cons item items ih => rw [itemFaults, ih, List.zipIdx_cons, List.flatMap_cons]

theorem faults_of_isSingle (hv : v.isSingle = true) (item : TypeRef) (n : Bool) :
    faults s v (.list item n) = faults s v item := by
  cases v with
  | atom a =>
    cases a with
    | var _ | null => cases hv
    | int _ | float _ | string _ | bool _ | enum _ => rfl
  | list items => cases hv
  | object fields => rfl

theorem faults_named (hv : v.isDefinite = true) (hobject : ∀ fields, v ≠ .object fields)
    (name : String) (n : Bool) : faults s v (.named name n) = namedFaults s name v := by
  cases v with
  | atom a =>
    cases a with
    | var _ | null => cases hv
    | int _ | float _ | string _ | bool _ | enum _ => rfl
  | list items => rfl
  | object fields => exact absurd rfl (hobject fields)

/-- Of the checks of its fields an object needs those at the declared types. -/
theorem objectFaults_congr {fields : List (String × Literal)} {found other : Literal → Check}
    (h : ∀ t parameters, s.type? name = some t → t.body = .inputObject parameters →
      ∀ p ∈ parameters, ∀ value, fields.lookup p.name = some value →
        found value p.type = other value p.type) :
    objectFaults s name v (fields.map fun f => (f.1, found f.2)) =
      objectFaults s name v (fields.map fun f => (f.1, other f.2)) := by
  unfold objectFaults
  cases ht : s.type? name with
  | none => rfl
  | some t =>
    cases hbody : t.body with
    | inputObject parameters =>
      simp only [hbody]
      refine congrArg₂ _ ?_ ?_
      · simp [List.filter_map, Function.comp_def]
      · refine List.flatMap_congr fun p hp => ?_
        unfold fieldFaults
        rw [Literal.lookup_map_values, Literal.lookup_map_values]
        cases hvalue : fields.lookup p.name with
        | none => rfl
        | some value =>
          have hfound := h t parameters ht hbody p hp value hvalue
          simp only [Option.map_some, hfound]
    | _ => simp [hbody]

/-- What is found is the list of faults. -/
theorem Finds.eq_faults {type : TypeRef} {found : List CoercionFault} (h : Finds s v type found) :
    found = faults s v type := by
  induction h with
  | var => rfl
  | null => rfl
  | @items items item n found _ ih =>
    rw [faults, itemFaults_eq_flatMap]
    refine List.flatMap_congr fun p hp => ?_
    rw [ih p.1 (List.fst_mem_of_mem_zipIdx hp)]
  | single hv _ ih => rw [ih, faults_of_isSingle hv]
  | named hv hobject => rw [faults_named hv hobject]
  | @object fields name n found _ ih =>
    rw [faults, fieldChecks_eq_map]
    exact objectFaults_congr ih

/-- The calls come to an end at every literal and type. -/
theorem finds_faults (s : Schema) (v : Literal) (type : TypeRef) :
    Finds s v type (faults s v type) := by
  -- On the parts of the literal, and for each literal on the lists around the type.
  induction v using Literal.parts_induction generalizing type with
  | atom a =>
    cases a with
    | var name => exact .var
    | null => exact .null
    | int _ | float _ | string _ | bool _ | enum _ =>
      induction type with
      | named name n => exact .named rfl nofun
      | list item n ih => exact .single rfl ih
  | list items ih =>
    cases type with
    | named name n => exact .named rfl nofun
    | list item n =>
      rw [faults, itemFaults_eq_flatMap]
      exact .items fun v hv => ih v hv item
  | object fields ih =>
    induction type with
    | list item n ihType => exact .single rfl ihType
    | named name n =>
      rw [faults, fieldChecks_eq_map]
      refine .object fun t parameters ht hbody p hp value hvalue => ?_
      exact ih (p.name, value) (Literal.mem_of_lookup hvalue) p.type

/-! ### No faults -/

/-- An input object takes objects only. All their fields are declared, those given have values of
their types, and those left out may be missing. -/
theorem coercible_inputObject_iff (hv : v.isDefinite = true) (ht : s.type? name = some t)
    {parameters : List InputValue} (hbody : t.body = .inputObject parameters) :
    Coercible s v (.named name n) ↔ ∃ fields, v = .object fields ∧
      (∀ f ∈ fields, ∃ p ∈ parameters, p.name = f.1) ∧
        ∀ p ∈ parameters,
          (∀ value, fields.lookup p.name = some value → Coercible s value p.type) ∧
            (fields.lookup p.name = none → p.type.nullable = true ∨ p.default?.isSome = true) := by
  constructor
  · intro h
    cases h with
    | var | null _ => cases hv
    | object ht' hbody' hdeclared hgiven homitted =>
      obtain rfl := Option.some.inj (ht.symm.trans ht')
      obtain rfl := TypeBody.inputObject.inj (hbody.symm.trans hbody')
      exact ⟨_, rfl, hdeclared, fun p hp => ⟨hgiven p hp, homitted p hp⟩⟩
    | builtin ht' hbody' _ | enum ht' hbody' _ =>
      obtain rfl := Option.some.inj (ht.symm.trans ht')
      cases hbody.symm.trans hbody'
    | unknown _ hnone =>
      rw [ht] at hnone
      cases hnone
    | unchecked _ ht' hunchecked =>
      obtain rfl := Option.some.inj (ht.symm.trans ht')
      simp [TypeDefinition.isComposite, TypeDefinition.kind, TypeKind.isComposite, hbody]
        at hunchecked
  · rintro ⟨fields, rfl, hdeclared, hfields⟩
    exact .object ht hbody hdeclared (fun p hp => (hfields p hp).1) fun p hp => (hfields p hp).2

/-- A name is not known, or that of an input object, or that of another type. -/
theorem name_cases (s : Schema) (name : String) :
    s.type? name = none ∨
      (∃ t parameters, s.type? name = some t ∧ t.body = .inputObject parameters) ∨
        ∃ t, s.type? name = some t ∧ ∀ parameters, t.body ≠ .inputObject parameters := by
  cases ht : s.type? name with
  | none => exact .inl rfl
  | some t =>
    by_cases hinput : ∃ parameters, t.body = .inputObject parameters
    · obtain ⟨parameters, hbody⟩ := hinput
      exact .inr (.inl ⟨t, parameters, rfl, hbody⟩)
    · exact .inr (.inr ⟨t, rfl, not_exists.mp hinput⟩)

theorem leafFaults_eq_nil_iff (ht : s.type? name = some t)
    (hleaf : ∀ parameters, t.body ≠ .inputObject parameters) (provided : List (String × Check)) :
    (namedFaults s name v = [] ↔ acceptsLeaf t v = true) ∧
      (objectFaults s name v provided = [] ↔ acceptsLeaf t v = true) := by
  cases hbody : t.body with
  | inputObject parameters => exact absurd hbody (hleaf parameters)
  | builtin _ | scalar | object _ _ | interface _ _ | union _ | enum _ =>
    simp [namedFaults, objectFaults, ht, hbody]

theorem namedFaults_eq_nil_iff (hv : v.isDefinite = true) (hobject : ∀ fields, v ≠ .object fields) :
    namedFaults s name v = [] ↔ Coercible s v (.named name n) := by
  rcases name_cases s name with hnone | ⟨t, parameters, ht, hbody⟩ | ⟨t, ht, hleaf⟩
  · exact iff_of_true (by simp [namedFaults, hnone]) (.unknown hv hnone)
  · rw [coercible_inputObject_iff hv ht hbody]
    refine iff_of_false (by simp [namedFaults, ht, hbody]) ?_
    rintro ⟨fields, rfl, -⟩
    exact hobject fields rfl
  · rw [(leafFaults_eq_nil_iff ht hleaf []).1]
    exact acceptsLeaf_iff_coercible hv ht hleaf

theorem objectFaults_eq_nil_iff_coercible {fields : List (String × Literal)}
    (hfields : ∀ t parameters, s.type? name = some t → t.body = .inputObject parameters →
      ∀ p ∈ parameters, ∀ value, fields.lookup p.name = some value →
        (faults s value p.type = [] ↔ Coercible s value p.type)) :
    objectFaults s name (.object fields) (fieldChecks s fields) = [] ↔
      Coercible s (.object fields) (.named name n) := by
  rcases name_cases s name with hnone | ⟨t, parameters, ht, hbody⟩ | ⟨t, ht, hleaf⟩
  · exact iff_of_true (by simp [objectFaults, hnone]) (.unknown rfl hnone)
  · rw [objectFaults_eq_nil_iff ht hbody, coercible_inputObject_iff rfl ht hbody]
    simp only [Literal.object.injEq, exists_eq_left']
    refine and_congr_right fun _ => forall₂_congr fun p hp => and_congr_left fun _ => ?_
    exact forall₂_congr fun value hvalue => hfields t parameters ht hbody p hp value hvalue
  · rw [(leafFaults_eq_nil_iff ht hleaf _).2]
    exact acceptsLeaf_iff_coercible rfl ht hleaf

/-- Nothing is found exactly if the literal is coercible to the type. -/
theorem Finds.eq_nil_iff {type : TypeRef} {found : List CoercionFault} (h : Finds s v type found) :
    found = [] ↔ Coercible s v type := by
  induction h with
  | var => exact iff_of_true rfl .var
  | @null type => simp [Coercible.null_iff]
  | @items items item n found _ ih =>
    rw [Coercible.items_iff, List.flatMap_eq_nil_iff]
    constructor
    · intro hnone v hv
      rw [← List.zipIdx_map_fst 0 items] at hv
      obtain ⟨p, hp, rfl⟩ := List.mem_map.mp hv
      exact (ih p.1 (List.fst_mem_of_mem_zipIdx hp)).mp (List.map_eq_nil_iff.mp (hnone p hp))
    · intro hitems p hp
      have hmem := List.fst_mem_of_mem_zipIdx hp
      rw [(ih p.1 hmem).mpr (hitems p.1 hmem), List.map_nil]
  | single hv _ ih => rw [ih, Coercible.single_iff hv]
  | named hv hobject => exact namedFaults_eq_nil_iff hv hobject
  | @object fields name n found h ih =>
    rw [(Finds.object (n := n) h).eq_faults, faults]
    refine objectFaults_eq_nil_iff_coercible fun t parameters ht hbody p hp value hvalue => ?_
    rw [← (h t parameters ht hbody p hp value hvalue).eq_faults]
    exact ih t parameters ht hbody p hp value hvalue

theorem faults_eq_nil_iff_coercible {type : TypeRef} :
    faults s v type = [] ↔ Coercible s v type :=
  (finds_faults s v type).eq_nil_iff

end Coercion

/-- The check of any literal at any type comes to an end, whatever the schema, and what it finds is
the list of faults. There are no messages exactly if the literal is coercible to the type. -/
theorem literal_accepted_iff_coercible (s : Schema) (type : TypeRef) (v : Literal) :
    (∀ found, Coercion.Finds s v type found ↔ found = Coercion.faults s v type) ∧
      ((Coercion.faults s v type).map CoercionFault.message = [] ↔ Coercible s v type) := by
  constructor
  · intro found
    constructor
    · exact Coercion.Finds.eq_faults
    · rintro rfl
      exact Coercion.finds_faults s v type
  · rw [List.map_eq_nil_iff, Coercion.faults_eq_nil_iff_coercible]

instance (s : Schema) (v : Literal) (type : TypeRef) : Decidable (Coercible s v type) :=
  decidable_of_iff ((Coercion.faults s v type).isEmpty = true)
    (List.isEmpty_iff.trans Coercion.faults_eq_nil_iff_coercible)

/-- A single child stands for a list of children, each of the type of its parent. -/
example : Coercible treeSchema treeLiteral (.list (.named "Tree" false) true) := by decide

/-! ### Types above -/

namespace Coercible

open TypeRef

variable {s : Schema} {v : Literal} {sub sup : TypeRef}

/-- At a name it matters for `null` only whether that is a value. -/
theorem named_congr (hv : v.isDefinite = true) {name : String} {n : Bool}
    (h : Coercible s v (.named name n)) (m : Bool) : Coercible s v (.named name m) := by
  cases h with
  | var => exact .var
  | null _ => cases hv
  | object ht hbody hdeclared hgiven homitted =>
    exact .object ht hbody hdeclared hgiven homitted
  | builtin ht hbody htakes => exact .builtin ht hbody htakes
  | enum ht hbody hvalue => exact .enum ht hbody hvalue
  | unknown _ hnone => exact .unknown hv hnone
  | unchecked _ ht hunchecked => exact .unchecked hv ht hunchecked

/-- What is coercible to a name is so to the names above it: an abstract type takes everything. -/
theorem of_isSubtypeName (hv : v.isDefinite = true) {name other : String} {n : Bool}
    (h : Coercible s v (.named name n)) (hsub : s.isSubtypeName name other = true) (m : Bool) :
    Coercible s v (.named other m) := by
  rcases Schema.isSubtypeName_iff.mp hsub with rfl | ⟨_, u, _, _, hu, habstract, _⟩
  · exact h.named_congr hv m
  · exact .unchecked hv hu (.inr (TypeDefinition.isComposite_of_isAbstract habstract))

/-- What is coercible to a type is so to the types above it. -/
theorem of_isSubtype (h : Coercible s v sub) (hsub : sub.isSubtype s sup = true) :
    Coercible s v sup := by
  -- On the lists around the types. A list of literals is taken apart with them, any other literal
  -- goes through all of them.
  induction sub generalizing v sup with
  | named name n =>
    cases sup with
    | list supItem m => cases hsub
    | named other m =>
      obtain ⟨hle, hname⟩ := isSubtype_named_named.mp hsub
      cases hv : v.isDefinite with
      | true => exact h.of_isSubtypeName hv hname m
      | false =>
        rcases Literal.eq_of_not_isDefinite hv with ⟨_, rfl⟩ | rfl
        · exact .var
        · exact .null (hle (null_iff.mp h))
  | list item n ih =>
    cases sup with
    | named other m => cases hsub
    | list supItem m =>
      obtain ⟨hle, hitem⟩ := isSubtype_list_list.mp hsub
      cases h with
      | var => exact .var
      | null hnullable => exact .null (hle hnullable)
      | items hitems => exact .items fun v hv => ih (hitems v hv) hitem
      | single hv h => exact .single hv (ih h hitem)

end Coercible

/-- A literal that is accepted at a type is accepted at every type that it is a subtype of. -/
theorem literal_accepted_at_supertype (s : Schema) (sub sup : TypeRef)
    (hsub : sub.isSubtype s sup = true) (v : Literal) (hv : Coercion.faults s v sub = []) :
    Coercion.faults s v sup = [] := by
  rw [Coercion.faults_eq_nil_iff_coercible] at hv ⊢
  exact hv.of_isSubtype hsub

/-- A list with an object and a variable. -/
def dogList : Literal := .list [.object [("name", .atom (.string "Rex"))], .atom (.var "dog")]

/-- A single tree stands for a list of trees that may be `null`, and a list of dogs for one of
pets. -/
theorem trees_and_dogs_accepted :
    (Coercion.faults treeSchema treeLiteral (.list (.named "Tree" false) false) = [] ∧
      Coercion.faults treeSchema treeLiteral (.list (.named "Tree" true) true) = []) ∧
    (Coercion.faults petSchema dogList (.list (.named "Dog" false) false) = [] ∧
      Coercion.faults petSchema dogList (.list (.named "Pet" true) true) = []) := by
  refine ⟨⟨rfl, ?_⟩, ⟨rfl, ?_⟩⟩
  · exact literal_accepted_at_supertype treeSchema (.list (.named "Tree" false) false) _
      (by decide) treeLiteral rfl
  · exact literal_accepted_at_supertype petSchema (.list (.named "Dog" false) false) _
      (by decide) dogList rfl

end GraphQLCheck
