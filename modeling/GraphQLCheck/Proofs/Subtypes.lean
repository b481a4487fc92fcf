import GraphQLCheck.Proofs.SchemaContents
import GraphQLCheck.Schema.Subtyping
import Mathlib.Order.Defs.Unbundled

/-!
# Subtypes are ordered

Whether one type reference is a subtype of another is decided from the outside in, and at each level
after a look whether the two are equal. Here it is said at once (`TypeRef.Below`): the lists are
equally deep, at no level does the greater reference require a value and the smaller one not, and
inside is the same name, or an object type and an abstract type that is declared to have it.

An object type is not abstract, so nothing else is below a type that is below an abstract one. That
makes subtypes a partial order.

## What is proved

* `isSubtypeName_iff` — what makes a name stand for another one.
* `isSubtype_named_named`, `isSubtype_list_list` — one level of a reference.
* `Built.possibleTypes_eq_declaredFor` — the possible types of a built schema are the declared ones.
* `subtypes_partially_ordered` — subtypes are a partial order, and which one.
-/

namespace GraphQLCheck

/-! ### Names -/

theorem TypeDefinition.not_isAbstract_of_isObject {t : TypeDefinition}
    (hobject : t.isObject = true) : t.isAbstract ≠ true := by
  have hkind : t.kind = .object := by simpa [isObject] using hobject
  simp [isAbstract, hkind, TypeKind.isAbstract]

theorem TypeDefinition.isComposite_of_isAbstract {t : TypeDefinition} (h : t.isAbstract = true) :
    t.isComposite = true := by
  unfold isAbstract at h
  unfold isComposite
  cases hkind : t.kind with
  | interface | union => rfl
  | scalar | object | enum | inputObject =>
    rw [hkind] at h
    cases h

namespace Schema

variable {s : Schema} {sub mid sup : String}

/-- A name stands for itself, and the name of an object type for that of an abstract type that can
have it. -/
theorem isSubtypeName_iff :
    s.isSubtypeName sub sup = true ↔
      sub = sup ∨ ∃ t u, s.type? sub = some t ∧ t.isObject = true ∧ s.type? sup = some u ∧
        u.isAbstract = true ∧ sub ∈ s.possibleTypes sup := by
  by_cases hname : sub = sup
  · simp [isSubtypeName, hname]
  · cases hsub : s.type? sub with
    | none => simp [isSubtypeName, hname, hsub]
    | some t =>
      cases hsup : s.type? sup with
      | none => simp [isSubtypeName, hname, hsub, hsup]
      | some u =>
        have ht : t.name = sub := by simpa using List.find?_some hsub
        have hu : u.name = sup := by simpa using List.find?_some hsup
        simp [isSubtypeName, hname, hsub, hsup, ht, hu, isPossible]

theorem isSubtypeName_refl (s : Schema) (name : String) : s.isSubtypeName name name = true :=
  isSubtypeName_iff.mpr (.inl rfl)

/-- Two steps up are no more than one, since nothing is abstract and an object type at once. -/
theorem eq_or_eq_of_isSubtypeName (hsub : s.isSubtypeName sub mid = true)
    (hsup : s.isSubtypeName mid sup = true) : sub = mid ∨ mid = sup := by
  rcases isSubtypeName_iff.mp hsub with hname | ⟨_, u, _, _, hmid, habstract, _⟩
  · exact .inl hname
  · rcases isSubtypeName_iff.mp hsup with hname | ⟨t, _, hmid', hobject, _, _, _⟩
    · exact .inr hname
    · obtain rfl : u = t := Option.some.inj (hmid.symm.trans hmid')
      exact absurd habstract (TypeDefinition.not_isAbstract_of_isObject hobject)

theorem isSubtypeName_trans (hsub : s.isSubtypeName sub mid = true)
    (hsup : s.isSubtypeName mid sup = true) : s.isSubtypeName sub sup = true := by
  rcases eq_or_eq_of_isSubtypeName hsub hsup with rfl | rfl
  · exact hsup
  · exact hsub

theorem isSubtypeName_antisymm (hsub : s.isSubtypeName sub sup = true)
    (hsup : s.isSubtypeName sup sub = true) : sub = sup := by
  rcases eq_or_eq_of_isSubtypeName hsub hsup with hname | hname
  · exact hname
  · exact hname.symm

end Schema

/-! ### One level -/

namespace TypeRef

variable {s : Schema} {sub mid sup : TypeRef} {n m : Bool}

/-- The check at one level, where equal references are let through. Truth values are ordered, the
false one below the true one. -/
theorem level_iff {same below : Prop} (hsame : same → below) :
    (n = m ∧ same ∨ (m = true ∨ (!n) = true) ∧ below) ↔ n ≤ m ∧ below := by
  constructor
  · rintro (⟨rfl, h⟩ | ⟨hlevel, h⟩)
    · exact ⟨Bool.le_refl n, hsame h⟩
    · refine ⟨fun hn => hlevel.resolve_right ?_, h⟩
      simp [hn]
  · rintro ⟨hle, h⟩
    refine .inr ⟨?_, h⟩
    cases n with
    | false => exact .inr rfl
    | true => exact .inl (hle rfl)

theorem isSubtype_named_named {name other : String} :
    (named name n).isSubtype s (named other m) = true ↔
      n ≤ m ∧ s.isSubtypeName name other = true := by
  rw [isSubtype, decide_eq_true_eq]
  apply level_iff
  rintro rfl
  exact s.isSubtypeName_refl name

theorem isSubtype_refl (s : Schema) (t : TypeRef) : t.isSubtype s t = true := by
  cases t <;> simp [isSubtype]

theorem isSubtype_list_list :
    (list sub n).isSubtype s (list sup m) = true ↔ n ≤ m ∧ sub.isSubtype s sup = true := by
  rw [isSubtype, decide_eq_true_eq]
  apply level_iff
  rintro rfl
  exact isSubtype_refl s sub

/-! ### The order -/

theorem isSubtype_trans (hsub : sub.isSubtype s mid = true) (hsup : mid.isSubtype s sup = true) :
    sub.isSubtype s sup = true := by
  induction sub generalizing mid sup with
  | named name n =>
    cases mid with
    | list item m => cases hsub
    | named other m =>
      cases sup with
      | list item k => cases hsup
      | named third k =>
        rw [isSubtype_named_named] at hsub hsup ⊢
        exact ⟨Bool.le_trans hsub.1 hsup.1, Schema.isSubtypeName_trans hsub.2 hsup.2⟩
  | list subItem n ih =>
    cases mid with
    | named other m => cases hsub
    | list midItem m =>
      cases sup with
      | named third k => cases hsup
      | list supItem k =>
        rw [isSubtype_list_list] at hsub hsup ⊢
        exact ⟨Bool.le_trans hsub.1 hsup.1, ih hsub.2 hsup.2⟩

theorem isSubtype_antisymm (hsub : sub.isSubtype s sup = true) (hsup : sup.isSubtype s sub = true) :
    sub = sup := by
  induction sub generalizing sup with
  | named name n =>
    cases sup with
    | list item m => cases hsub
    | named other m =>
      rw [isSubtype_named_named] at hsub hsup
      rw [Schema.isSubtypeName_antisymm hsub.2 hsup.2, Bool.le_antisymm hsub.1 hsup.1]
  | list subItem n ih =>
    cases sup with
    | named other m => cases hsub
    | list supItem m =>
      rw [isSubtype_list_list] at hsub hsup
      rw [ih hsub.2 hsup.2, Bool.le_antisymm hsub.1 hsup.1]

theorem isPartialOrder_isSubtype (s : Schema) :
    IsPartialOrder TypeRef fun sub sup => sub.isSubtype s sup = true where
  refl := isSubtype_refl s
  trans _ _ _ := isSubtype_trans
  antisymm _ _ := isSubtype_antisymm

/-! ### All levels at once -/

/-- The number of lists around the name. -/
def depth : TypeRef → ℕ
  | named _ _ => 0
  | list item _ => item.depth + 1

/-- Whether `null` is a value at each level, from the outermost list to the name. -/
def levels : TypeRef → List Bool
  | named _ nullable => [nullable]
  | list item nullable => nullable :: item.levels

end TypeRef

/-- A name is that of an object type, which the registry declares for the abstract type of another
name. -/
def Schema.Declares (s : Schema) (abstract object : String) : Prop :=
  ∃ t u, s.type? object = some t ∧ t.isObject = true ∧ s.type? abstract = some u ∧
    u.isAbstract = true ∧ object ∈ s.declaredFor abstract

namespace TypeRef

/-- One reference is below another one, said of all levels at once. -/
structure Below (s : Schema) (sub sup : TypeRef) : Prop where
  /-- Both have the same number of lists. -/
  depth : sub.depth = sup.depth
  /-- At every level the greater one takes `null` or the smaller one does not. -/
  levels : ∀ p ∈ sub.levels.zip sup.levels, p.2 = true ∨ p.1 = false
  /-- Inside are equal names, or those of an object type and of an abstract type that has it. -/
  names : sub.innermost = sup.innermost ∨ s.Declares sup.innermost sub.innermost

variable {s : Schema} {sub sup : TypeRef} {n m : Bool}

theorem le_iff_nullable : n ≤ m ↔ m = true ∨ n = false := by
  cases n <;> cases m <;> decide

theorem below_named_named {name other : String} :
    (named name n).Below s (named other m) ↔
      n ≤ m ∧ (name = other ∨ s.Declares other name) := by
  constructor
  · rintro ⟨-, hlevels, hnames⟩
    exact ⟨le_iff_nullable.mpr (hlevels (n, m) (by simp [TypeRef.levels])), hnames⟩
  · rintro ⟨hle, hnames⟩
    refine ⟨rfl, ?_, hnames⟩
    simpa [TypeRef.levels] using le_iff_nullable.mp hle

theorem below_list_list : (list sub n).Below s (list sup m) ↔ n ≤ m ∧ sub.Below s sup := by
  constructor
  · rintro ⟨hdepth, hlevels, hnames⟩
    simp only [TypeRef.levels, List.zip_cons_cons, List.forall_mem_cons] at hlevels
    exact ⟨le_iff_nullable.mpr hlevels.1, Nat.succ.inj hdepth, hlevels.2, hnames⟩
  · rintro ⟨hle, hdepth, hlevels, hnames⟩
    refine ⟨congrArg (· + 1) hdepth, ?_, hnames⟩
    simp only [TypeRef.levels, List.zip_cons_cons, List.forall_mem_cons]
    exact ⟨le_iff_nullable.mp hle, hlevels⟩

/-- The check goes through all levels. -/
theorem isSubtype_iff_below
    (hnames : ∀ name other, s.isSubtypeName name other = true ↔
      name = other ∨ s.Declares other name) :
    sub.isSubtype s sup = true ↔ sub.Below s sup := by
  induction sub generalizing sup with
  | named name n =>
    cases sup with
    | named other m => rw [isSubtype_named_named, below_named_named, hnames]
    | list item m =>
      refine iff_of_false (by simp [isSubtype]) fun h => ?_
      cases h.depth
  | list item n ih =>
    cases sup with
    | named other m =>
      refine iff_of_false (by simp [isSubtype]) fun h => ?_
      cases h.depth
    | list supItem m => rw [isSubtype_list_list, below_list_list, ih]

end TypeRef

/-! ### Built schemas -/

/-- Definitions that were taken up one by one were taken up in files of one definition each. -/
theorem Assembly.Loaded.exists_files {a : Assembly} (h : Loaded a) :
    ∃ files, Assembly.empty.addFiles files = .ok a := by
  induction h with
  | empty => exact ⟨[], rfl⟩
  | @add a b file definition _ hadd ih =>
    obtain ⟨files, hfiles⟩ := ih
    refine ⟨files ++ [⟨file, [definition]⟩], addFiles_append_ok_iff.mpr ⟨a, hfiles, ?_⟩⟩
    rw [addFiles_eq_foldlM]
    simpa [Sdl.File.entries] using hadd

namespace Schema

variable {s : Schema}

theorem Built.exists_files (h : s.Built) : ∃ files, ofFiles files = .ok s := by
  obtain ⟨a, hloaded, hbuild⟩ := h
  obtain ⟨files, hfiles⟩ := hloaded.exists_files
  exact ⟨files, bind_succeeds_iff.mpr ⟨a, hfiles, hbuild⟩⟩

/-- In a built schema the possible types are those that are declared. -/
theorem Built.possibleTypes_eq_declaredFor (h : s.Built) (name : String) :
    s.possibleTypes name = s.declaredFor name := by
  obtain ⟨files, hfiles⟩ := h.exists_files
  obtain ⟨hloose, rfl⟩ := ofFiles_eq_ok_iff.mp hfiles
  rw [← map_snd_entries] at hloose
  exact Assembly.possibleTypes_eq_declaredFor hloose name

theorem Built.isSubtypeName_iff_declares (h : s.Built) (sub sup : String) :
    s.isSubtypeName sub sup = true ↔ sub = sup ∨ s.Declares sup sub := by
  rw [isSubtypeName_iff, h.possibleTypes_eq_declaredFor]
  rfl

end Schema

/-- Subtypes in a built schema are a partial order. Lists that take `null` alike keep and reflect
it, and a list and a name are never in order. One reference is below another one exactly if both
have the same list depth, at every level the greater one takes `null` or the smaller one does not,
and the names inside are equal or those of an object type and of an abstract type that is declared
to have it. -/
theorem subtypes_partially_ordered (s : Schema) (h : s.Built) :
    (IsPartialOrder TypeRef fun sub sup => sub.isSubtype s sup = true) ∧
      (∀ (sub sup : TypeRef) (nullable : Bool),
        (TypeRef.list sub nullable).isSubtype s (.list sup nullable) = sub.isSubtype s sup) ∧
      (∀ (item : TypeRef) (name : String) (n m : Bool),
        (TypeRef.list item n).isSubtype s (.named name m) = false ∧
          (TypeRef.named name m).isSubtype s (.list item n) = false) ∧
      ∀ sub sup : TypeRef, sub.isSubtype s sup = true ↔ sub.Below s sup := by
  refine ⟨TypeRef.isPartialOrder_isSubtype s, ?_, fun _ _ _ _ => ⟨rfl, rfl⟩, ?_⟩
  · intro sub sup nullable
    rw [Bool.eq_iff_iff, TypeRef.isSubtype_list_list, and_iff_right (Bool.le_refl nullable)]
  · intro sub sup
    exact TypeRef.isSubtype_iff_below h.isSubtypeName_iff_declares

/-- Two object types with an interface and a union. -/
def petTypes : List Sdl.Definition :=
  [.type ⟨⟨1, 1⟩, "Pet", .interface [] [⟨⟨1, 17⟩, "name", [], .named "String" true, []⟩]⟩,
    .type ⟨⟨2, 1⟩, "Dog", .object ["Pet"] [⟨⟨2, 27⟩, "name", [], .named "String" true, []⟩]⟩,
    .type ⟨⟨3, 1⟩, "Cat", .object ["Pet"] [⟨⟨3, 27⟩, "name", [], .named "String" true, []⟩]⟩,
    .type ⟨⟨4, 1⟩, "CatOrDog", .union ["Cat", "Dog"]⟩,
    .type ⟨⟨5, 1⟩, "Query", .object [] [⟨⟨5, 14⟩, "pet", [], .named "Pet" true, []⟩]⟩]

/-- The schema of these definitions. -/
def petSchema : Schema := (Schema.ofDefinitions "pet" petTypes).toOption.getD default

theorem built_petSchema : petSchema.Built := by
  have hbuild : Schema.ofDefinitions "pet" petTypes = .ok petSchema := rfl
  exact Schema.built_of_ofDefinitions hbuild

/-- A list of dogs is a list of pets, and of cats or dogs, but not the other way round. -/
theorem dogs_below_pets :
    petSchema.Built ∧
      (TypeRef.list (.named "Dog" false) false).isSubtype petSchema
        (.list (.named "Pet" true) true) = true ∧
      (TypeRef.list (.named "Dog" false) true).Below petSchema
        (.list (.named "CatOrDog" false) true) ∧
      (TypeRef.list (.named "Pet" true) true).isSubtype petSchema
        (.list (.named "Dog" true) true) = false := by
  obtain ⟨-, hlists, -, hbelow⟩ := subtypes_partially_ordered petSchema built_petSchema
  refine ⟨built_petSchema, (hbelow _ _).mpr ⟨rfl, by decide, .inr ⟨_, _, rfl, rfl, rfl, rfl, ?_⟩⟩,
    (hbelow _ _).mp ?_, ?_⟩
  · decide
  · rw [hlists]
    decide
  · rw [hlists]
    decide

end GraphQLCheck
