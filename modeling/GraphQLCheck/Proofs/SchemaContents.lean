import GraphQLCheck.Proofs.Assembling.Written
import GraphQLCheck.Proofs.LoadOrder

/-!
# What a built schema contains

Types are registered as they are loaded, extensions are merged into them when the schema is built,
and the index of possible types is made last. In the end the registry has the builtin scalars and
then the defined types in the order of loading, each with what its definition and its extensions
write down; the directives are the defined ones in the order of loading and then the builtin ones;
and the index says of an interface and of a union what the registry declares
(`Schema.contents_as_written`).
-/

namespace GraphQLCheck

open Assembly

/-! ### What the registry declares -/

namespace TypeDefinition

variable {t : TypeDefinition} {name : String}

/-- Apart from unions of that name, an object type that declares the name stands under it. -/
theorem possibleFor_eq_ite (hnodup : t.body.interfaces.Nodup)
    (hunion : t.kind = .union → t.name ≠ name) :
    t.possibleFor name = if t.isObject ∧ name ∈ t.interfaces then [t.name] else [] := by
  obtain ⟨typeName, location, body⟩ := t
  cases body with
  | object fields interfaces =>
    by_cases h : name ∈ interfaces
    · have hcount : interfaces.count name = 1 := List.nodup_iff_count_eq_one.mp hnodup name h
      simp [possibleFor, isObject, kind, TypeDefinition.interfaces, List.filter_eq, hcount, h]
    · have hcount : interfaces.count name = 0 := List.count_eq_zero.mpr h
      simp [possibleFor, TypeDefinition.interfaces, List.filter_eq, hcount, h]
  | union members =>
    have hne : typeName ≠ name := hunion rfl
    simp [possibleFor, isObject, kind, hne]
  | builtin _ | scalar | enum _ | inputObject _ | interface _ _ =>
    simp [possibleFor, isObject, kind]

theorem flatMap_ite_singleton {α β : Type} {p : α → Prop} [DecidablePred p] {f : α → β}
    (list : List α) :
    (list.flatMap fun a => if p a then [f a] else []) = (list.filter p).map f := by
  induction list with
  | nil => rfl
  | cons a list ih =>
    rw [List.flatMap_cons, ih, List.filter_cons]
    by_cases h : p a <;> simp [h]

end TypeDefinition

/-- The object types that the registry declares for a name: those that implement it, if it is that of
an interface, or the members, if it is that of a union. -/
def Schema.declaredFor (s : Schema) (name : String) : List String :=
  match s.type? name with
  | none => []
  | some t =>
    match t.body with
    | .interface _ _ => (s.types.filter fun u => u.isObject ∧ name ∈ u.interfaces).map (·.name)
    | .union members => members
    | _ => []

section Registry

variable {types : List TypeDefinition}

theorem flatMap_possibleFor_of_not_union {name : String} (hclean : ∀ t ∈ types, t.body.Clean)
    (h : ∀ t ∈ types, t.name = name → t.kind ≠ .union) :
    types.flatMap (·.possibleFor name) =
      (types.filter fun t => t.isObject ∧ name ∈ t.interfaces).map (·.name) := by
  rw [← TypeDefinition.flatMap_ite_singleton, List.flatMap, List.flatMap]
  refine congrArg _ (List.map_congr_left fun t ht => ?_)
  exact TypeDefinition.possibleFor_eq_ite (hclean t ht).interfaces fun hkind hname =>
    h t ht hname hkind

theorem flatMap_possibleFor_of_union {t : TypeDefinition} (hnames : (types.map (·.name)).Nodup)
    (ht : t ∈ types) (hkind : t.kind = .union) (hdeclared : ∀ u ∈ types, t.name ∉ u.body.interfaces) :
    types.flatMap (·.possibleFor t.name) = t.body.members := by
  obtain ⟨before, after, rfl⟩ := List.append_of_mem ht
  -- The union itself has its members, and no other type has anything under its name.
  have hown : t.possibleFor t.name = t.body.members := by
    obtain ⟨typeName, location, body⟩ := t
    cases body with
    | union members => simp [TypeDefinition.possibleFor, TypeBody.members]
    | _ => cases hkind
  have hother {u : TypeDefinition} (hu : u ∈ before ∨ u ∈ after) : u.possibleFor t.name = [] := by
    have hmem : u ∈ before ++ t :: after := by
      rw [List.mem_append, List.mem_cons]
      tauto
    refine Assembly.PossibleIndex.possibleFor_union (fun hname => ?_) ?_
    · rw [List.map_append, List.map_cons, List.nodup_middle, List.nodup_cons, ← List.map_append]
        at hnames
      exact hnames.1 (hname ▸ List.mem_map_of_mem (List.mem_append.mpr hu))
    · rw [u.interfaces_eq]
      exact hdeclared u hmem
  have hbefore : before.flatMap (·.possibleFor t.name) = [] :=
    List.flatMap_eq_nil_iff.mpr fun u hu => hother (.inl hu)
  have hafter : after.flatMap (·.possibleFor t.name) = [] :=
    List.flatMap_eq_nil_iff.mpr fun u hu => hother (.inr hu)
  rw [List.flatMap_append, List.flatMap_cons, hown, hbefore, hafter, List.append_nil,
    List.nil_append]

end Registry

/-! ### What is in a built schema -/

/-- What is written for a type: its definition, and then its extensions in the order of loading. -/
def Sdl.writings (entries : List Entry) (e : String × Sdl.TypeNode) :
    List (String × Sdl.TypeNode) :=
  e :: (sorted Sdl.Definition.extension? entries).filter (·.2.name = e.2.name)

namespace Schema

/-- A schema has all that entries write down, in their order, and nothing else but what every schema
has. -/
structure HasContents (s : Schema) (entries : List Entry) : Prop where
  /-- The builtin scalars come first, then the defined types. Each has its own name and place and
  what is written for it. -/
  types : ∃ defined, s.types = BuiltinScalar.all.map (·.definition) ++ defined ∧
    List.Forall₂ (fun e t => t.name = e.2.name ∧ t.location = .source e.1 e.2.position ∧
      t.body.WrittenAs (Sdl.writings entries e)) (sorted Sdl.Definition.type? entries) defined
  /-- Each type is found under its own name. -/
  named : ∀ t ∈ s.types, s.type? t.name = some t
  /-- The defined directives come first, then the builtin ones. -/
  directives : ∃ defined, s.directives = defined ++ DirectiveDefinition.builtins ∧
    List.Forall₂ (fun e d => d.WrittenAs e.1 e.2) (sorted Sdl.Definition.directive? entries) defined
  /-- The possible types are those that the registry declares. -/
  possible : ∀ name, s.possibleTypes name = s.declaredFor name
  /-- No possible type is repeated. -/
  possibleOnce : ∀ name, (s.possibleTypes name).Nodup

end Schema

namespace Assembly

variable {entries : List Entry}

theorem finalTypes_loaded : (loaded entries).finalTypes =
    BuiltinScalar.all.map (·.definition) ++ (sorted Sdl.Definition.type? entries).map fun e =>
      (typeOf e).extended (loaded entries).extensions := by
  rw [finalTypes, types_loaded, List.map_append, List.map_map, List.map_map]
  refine congrArg₂ _ (List.map_congr_left fun scalar _ => ?_) rfl
  exact congrArg (TypeDefinition.mk scalar.name .builtin) (body_extended_builtin scalar _)

section Loose

variable (hloose : Sdl.LooselyWellFormed (entries.map (·.2)))
include hloose

theorem type?_built_eq_some_iff {name : String} {t : TypeDefinition} :
    (loaded entries).built.type? name = some t ↔ t ∈ (loaded entries).finalTypes ∧ t.name = name :=
  References.find?_eq_some_iff (nodup_finalTypes hloose)

theorem clean_finalTypes : ∀ t ∈ (loaded entries).finalTypes, t.body.Clean :=
  (finalTypes_clean_iff (nodup_names_of_loose hloose)
    (finds_loaded_iff_extensions.mpr hloose.extensions)).mpr hloose.distinct

/-- A name that is not that of an interface is declared by no type. -/
theorem not_declared {name : String}
    (h : ∀ t ∈ (loaded entries).finalTypes, t.name = name → t.kind ≠ .interface)
    {u : TypeDefinition} (hu : u ∈ (loaded entries).finalTypes) : name ∉ u.body.interfaces := by
  intro hdeclared
  obtain ⟨i, hi, hname, hkind⟩ := exists_interface hloose hu hdeclared
  exact h i hi hname hkind

theorem possibleTypes_of_not_union {name : String}
    (h : ∀ t ∈ (loaded entries).finalTypes, t.name = name → t.kind ≠ .union) :
    (loaded entries).built.possibleTypes name =
      ((loaded entries).finalTypes.filter fun u => u.isObject ∧ name ∈ u.interfaces).map
        (·.name) := by
  rw [possibleTypes_built hloose, flatMap_possibleFor_of_not_union (clean_finalTypes hloose) h]

theorem possibleTypes_of_union {t : TypeDefinition} (ht : t ∈ (loaded entries).finalTypes)
    (hkind : t.kind = .union) :
    (loaded entries).built.possibleTypes t.name = t.body.members := by
  rw [possibleTypes_built hloose]
  refine flatMap_possibleFor_of_union (nodup_finalTypes hloose) ht hkind fun u hu => ?_
  refine not_declared hloose (fun v hv hname => ?_) hu
  rw [eq_of_name_eq (nodup_finalTypes hloose) hv ht hname, hkind]
  decide

theorem possibleTypes_eq_nil {name : String}
    (h : ∀ t ∈ (loaded entries).finalTypes, t.name = name →
      t.kind ≠ .union ∧ t.kind ≠ .interface) :
    (loaded entries).built.possibleTypes name = [] := by
  rw [possibleTypes_of_not_union hloose fun t ht hname => (h t ht hname).1, List.map_eq_nil_iff,
    List.filter_eq_nil_iff]
  intro u hu
  rw [decide_eq_true_eq, u.interfaces_eq]
  exact fun ⟨_, hdeclared⟩ => not_declared hloose (fun t ht hname => (h t ht hname).2) hu hdeclared

theorem possibleTypes_eq_declaredFor (name : String) :
    (loaded entries).built.possibleTypes name = (loaded entries).built.declaredFor name := by
  unfold Schema.declaredFor
  cases hfind : (loaded entries).built.type? name with
  | none =>
    refine possibleTypes_eq_nil hloose fun t ht hname => ?_
    rw [(type?_built_eq_some_iff hloose).mpr ⟨ht, hname⟩] at hfind
    cases hfind
  | some t =>
    obtain ⟨ht, rfl⟩ := (type?_built_eq_some_iff hloose).mp hfind
    -- There is no other type of this name, so its kind decides.
    have hkind (kind : TypeKind) (hne : t.body.kind ≠ kind) : ∀ u ∈ (loaded entries).finalTypes,
        u.name = t.name → u.kind ≠ kind := by
      intro u hu hname
      rwa [eq_of_name_eq (nodup_finalTypes hloose) hu ht hname, t.kind_eq]
    obtain ⟨name, location, body⟩ := t
    cases body with
    | interface fields interfaces =>
      exact possibleTypes_of_not_union hloose (hkind .union nofun)
    | union members => exact possibleTypes_of_union hloose ht rfl
    | builtin _ | scalar | object _ _ | enum _ | inputObject _ =>
      exact possibleTypes_eq_nil hloose fun u hu hname =>
        ⟨hkind .union nofun u hu hname, hkind .interface nofun u hu hname⟩

theorem nodup_possibleTypes (name : String) :
    ((loaded entries).built.possibleTypes name).Nodup := by
  by_cases hunion : ∃ t ∈ (loaded entries).finalTypes, t.name = name ∧ t.kind = .union
  · obtain ⟨t, ht, rfl, hkind⟩ := hunion
    rw [possibleTypes_of_union hloose ht hkind]
    exact (clean_finalTypes hloose t ht).members
  · rw [possibleTypes_of_not_union hloose fun t ht hname hkind => hunion ⟨t, ht, hname, hkind⟩]
    exact (List.filter_sublist.map _).nodup (nodup_finalTypes hloose)

end Loose

end Assembly

/-- Nothing is lost and nothing is added when a schema is assembled: a built schema has what the
definitions and extensions of its files write down, in the order of loading, with the builtin
scalars before and the builtin directives behind, and its possible types are those that are
declared. -/
theorem Schema.contents_as_written {files : List Sdl.File} {s : Schema} (h : s.MadeOf files) :
    s.HasContents (files.flatMap Sdl.File.entries) := by
  obtain ⟨hloose, rfl⟩ := madeOf_iff.mp h
  rw [← map_snd_entries] at hloose
  constructor
  case types =>
    refine ⟨_, finalTypes_loaded, List.forall₂_map_right_iff.mpr (List.forall₂_same.mpr ?_)⟩
    exact fun e he => ⟨rfl, rfl, writtenAs_extended (fitting_of_loose hloose he)⟩
  case named => exact fun t ht => (type?_built_eq_some_iff hloose).mpr ⟨ht, rfl⟩
  case directives =>
    refine ⟨_, ?_, forall₂_map_self writtenAs_directiveOf _⟩
    rw [built, missingBuiltins_loaded hloose]
    rfl
  case possible => exact possibleTypes_eq_declaredFor hloose
  case possibleOnce => exact nodup_possibleTypes hloose

/-- What a file that extends a type says is in the schema after what defines the type. -/
theorem Schema.contents_of_extended_root :
    ∃ s : Schema, s.MadeOf [extendingFile, definingFile] ∧
      s.HasContents ([extendingFile, definingFile].flatMap Sdl.File.entries) ∧
      s.typeNames = ["Boolean", "Float", "ID", "Int", "String", "Root", "Node"] ∧
      (s.type? "Root").map (·.body.fields.map (·.name)) = some ["id", "next"] ∧
      s.possibleTypes "Node" = ["Root"] := by
  have hmade : (loaded ([extendingFile, definingFile].flatMap Sdl.File.entries)).built.MadeOf
      [extendingFile, definingFile] := madeOf_iff.mpr ⟨by decide, rfl⟩
  exact ⟨_, hmade, contents_as_written hmade, by decide, by decide, by decide⟩

end GraphQLCheck
