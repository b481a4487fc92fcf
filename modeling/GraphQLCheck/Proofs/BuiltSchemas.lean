import GraphQLCheck.Schema.Loading
import Mathlib.Data.List.Nodup

/-!
# What holds of built schemas

A schema is built from definitions that were taken up one by one (`Schema.Built`); sources make up
no others. Whatever was loaded, the registry of types starts with the builtin scalars and the fields
of an input object have different names. References were checked when the schema was built, so every
type that it mentions is there and of the kind that its place asks for (`Schema.Closed`).
-/

namespace GraphQLCheck

/-! ### Steps that may fail, and names given once -/

/-- Two steps succeed if the second does from where the first has led. -/
theorem bind_succeeds_iff {ε α β : Type} {first : Except ε α} {next : α → Except ε β} {b : β} :
    (first >>= next) = .ok b ↔ ∃ a, first = .ok a ∧ next a = .ok b := by
  constructor
  · intro h
    cases first with
    | error e => cases h
    | ok a => exact ⟨a, rfl, h⟩
  · rintro ⟨a, rfl, ha⟩
    exact ha

/-- What is given a name of its own is found by its name. -/
theorem find?_of_nodup {α : Type} {name : α → String} {list : List α} {a : α}
    (h : (list.map name).Nodup) (ha : a ∈ list) : list.find? (name · = name a) = some a := by
  induction list with
  | nil => cases ha
  | cons b rest ih =>
    obtain ⟨hb, hrest⟩ := List.nodup_cons.mp h
    by_cases hname : name b = name a
    · obtain rfl : a = b := by
        rcases List.mem_cons.mp ha with rfl | ha
        · rfl
        · exact absurd (List.mem_map.mpr ⟨a, ha, hname.symm⟩) hb
      simp
    · have hmem : a ∈ rest := (List.mem_cons.mp ha).resolve_left fun h => hname (h ▸ rfl)
      rw [List.find?_cons_of_neg (by simpa using hname)]
      exact ih hrest hmem

/-- What every step keeps is kept by all of them. -/
theorem foldlM_keeps {ε σ α : Type} {step : σ → α → Except ε σ} (P : σ → Prop)
    (hstep : ∀ {s a t}, P s → step s a = .ok t → P t) {list : List α} {s t : σ} (hs : P s)
    (h : list.foldlM step s = .ok t) : P t := by
  induction list generalizing s with
  | nil =>
    cases h
    exact hs
  | cons a list ih =>
    rw [List.foldlM_cons, bind_succeeds_iff] at h
    obtain ⟨s', ha, hrest⟩ := h
    exact ih (hstep hs ha) hrest

namespace Assembly

/-! ### What is loaded -/

/-- The assemblies that come of taking up definitions. -/
inductive Loaded : Assembly → Prop where
  /-- Nothing is loaded. -/
  | empty : Loaded .empty
  /-- A definition is taken up. -/
  | add {a b : Assembly} {file : String} {definition : Sdl.Definition} :
      Loaded a → a.addDefinition file definition = .ok b → Loaded b

theorem Loaded.addDefinitions {a b : Assembly} {file : String} {definitions : List Sdl.Definition}
    (h : Loaded a) (hadd : a.addDefinitions file definitions = .ok b) : Loaded b :=
  foldlM_keeps Loaded .add h hadd

end Assembly

/-- The schema is built of definitions that were loaded. -/
def Schema.Built (schema : Schema) : Prop :=
  ∃ a, Assembly.Loaded a ∧ a.build = .ok schema

/-- The schema that the definitions of one file make up. -/
def Schema.ofDefinitions (file : String) (definitions : List Sdl.Definition) :
    Except SchemaError Schema := do
  (← Assembly.empty.addDefinitions file definitions).build

theorem Schema.built_of_ofDefinitions {schema : Schema} {file : String}
    {definitions : List Sdl.Definition} (h : Schema.ofDefinitions file definitions = .ok schema) :
    schema.Built := by
  obtain ⟨a, hadd, hbuild⟩ := bind_succeeds_iff.mp h
  exact ⟨a, .addDefinitions .empty hadd, hbuild⟩

namespace Loading

theorem loadText_loaded {l : Loading} (h : l.assembly.Loaded) (file content : String) :
    (l.loadText file content).1.assembly.Loaded := by
  unfold loadText
  split
  · exact h
  · exact h
  · rename_i definitions _
    cases hadd : l.assembly.addDefinitions file definitions with
    | ok assembly => exact h.addDefinitions hadd
    | error e => exact h

theorem loadFiles_loaded {l : Loading} (h : l.assembly.Loaded) (w : Workspace)
    (paths : List String) : (l.loadFiles w paths).1.assembly.Loaded := by
  induction paths generalizing l with
  | nil => exact h
  | cons path paths ih =>
    unfold loadFiles
    split
    · exact h
    · rename_i content _
      have htext := loadText_loaded h path content
      split
      · rename_i l' hl'
        rw [hl'] at htext
        exact ih htext
      · exact htext

theorem load_loaded {l : Loading} (h : l.assembly.Loaded) (w : Workspace) (source : Source) :
    (l.load w source).1.assembly.Loaded := by
  cases source with
  | text name? content =>
    cases name? with
    | none =>
      have hcounted : { l with unnamed := l.unnamed + 1 }.assembly.Loaded := h
      exact loadText_loaded hcounted (unnamedFile l.unnamed) content
    | some file => exact loadText_loaded h file content
  | files paths => exact loadFiles_loaded h w paths

theorem loadAll_loaded {l : Loading} (h : l.assembly.Loaded) (w : Workspace)
    (sources : List Source) : (l.loadAll w sources).1.assembly.Loaded := by
  induction sources generalizing l with
  | nil => exact h
  | cons source sources ih =>
    have hload := load_loaded h w source
    unfold loadAll
    split
    · rename_i l' hl'
      rw [hl'] at hload
      exact ih hload
    · rename_i l' e hl'
      rw [hl'] at hload
      exact hload

end Loading

/-- The schema that sources make up is built. -/
theorem Schema.built_of_ofSources {schema : Schema} {w : Workspace} {sources : List Source}
    (h : (Schema.ofSources w sources).1 = .ok schema) : schema.Built := by
  have hstart : Loading.start.assembly.Loaded := .empty
  have hloaded := Loading.loadAll_loaded hstart w sources
  unfold ofSources at h
  split at h
  · cases h
  · rename_i l _ hl
    rw [hl] at hloaded
    unfold Loading.build at h
    cases hbuild : l.assembly.build with
    | ok built =>
      rw [hbuild] at h
      cases h
      exact ⟨l.assembly, hloaded, hbuild⟩
    | error e =>
      rw [hbuild] at h
      cases h

/-! ### The registry of types -/

/-- The fields of an input object have different names. -/
def TypeBody.Distinct : TypeBody → Prop
  | .inputObject fields => (fields.map (·.name)).Nodup
  | _ => True

namespace Assembly

/-- What holds of the types of an assembly and of a schema. -/
structure Registry (types : List TypeDefinition) : Prop where
  /-- They start with the builtin scalars. -/
  builtins : BuiltinScalar.all.map (·.definition) <+: types
  /-- Input objects have no two fields of one name. -/
  distinct : ∀ t ∈ types, t.body.Distinct

theorem addInputField_distinct {typeName : String} {fields more : List InputValue}
    {field : InputValue} (h : (fields.map (·.name)).Nodup)
    (hadd : addInputField typeName fields field = .ok more) : (more.map (·.name)).Nodup := by
  unfold addInputField at hadd
  split at hadd
  · cases hadd
  · rename_i hnone
    cases hadd
    rw [List.map_append]
    refine List.nodup_append'.mpr ⟨h, List.nodup_singleton _, ?_⟩
    rw [List.map_singleton, List.disjoint_singleton]
    intro hmem
    obtain ⟨f, hf, hname⟩ := List.mem_map.mp hmem
    simpa [hname] using List.find?_eq_none.mp hnone f hf

theorem addParts?_distinct {file : String} {node : Sdl.TypeNode} {body more : TypeBody}
    (h : body.Distinct) (hadd : addParts? file node body = some (.ok more)) : more.Distinct := by
  unfold addParts? at hadd
  split at hadd
  case h_1 =>
    cases hadd
    trivial
  case h_2 | h_3 =>
    obtain ⟨fields, -, hrest⟩ := bind_succeeds_iff.mp (Option.some.inj hadd)
    obtain ⟨interfaces, -, hmore⟩ := bind_succeeds_iff.mp hrest
    cases hmore
    trivial
  case h_4 | h_5 =>
    obtain ⟨parts, -, hmore⟩ := bind_succeeds_iff.mp (Option.some.inj hadd)
    cases hmore
    trivial
  case h_6 =>
    obtain ⟨fields, hfields, hmore⟩ := bind_succeeds_iff.mp (Option.some.inj hadd)
    cases hmore
    exact foldlM_keeps (fun fields => (fields.map (·.name)).Nodup) addInputField_distinct h hfields
  case h_7 => cases hadd

theorem bodyOf_distinct {file : String} {node : Sdl.TypeNode} {body : TypeBody}
    (h : bodyOf file node = .ok body) : body.Distinct := by
  have hbare : (bareBody node.parts).Distinct := by
    cases node.parts with
    | inputObject fields => exact List.nodup_nil
    | scalar | object _ _ | interface _ _ | union _ | enum _ => trivial
  unfold bodyOf at h
  split at h
  · cases h
  · cases hparts : addParts? file node (bareBody node.parts) with
    | none =>
      rw [hparts] at h
      cases h
      exact hbare
    | some result =>
      rw [hparts, Option.getD_some] at h
      exact addParts?_distinct hbare (hparts.trans (congrArg some h))

/-- Registering a type keeps the registry. -/
theorem addType_registry {a b : Assembly} {file : String} {node : Sdl.TypeNode}
    (h : Registry a.types) (hadd : a.addType file node = .ok b) : Registry b.types := by
  unfold addType at hadd
  by_cases hreserved : isReserved node.name = true
  · simp [hreserved, throw, throwThe, MonadExceptOf.throw, bind, Except.bind] at hadd
  · simp only [hreserved] at hadd
    obtain ⟨body, hbody, hrest⟩ := bind_succeeds_iff.mp hadd
    split at hrest
    · cases hrest
    · cases hrest
      refine ⟨h.builtins.trans (List.prefix_append _ _), fun t ht => ?_⟩
      rcases List.mem_append.mp ht with ht | ht
      · exact h.distinct t ht
      · obtain rfl := List.mem_singleton.mp ht
        exact bodyOf_distinct hbody

/-- Definitions other than those of types leave the types alone. -/
theorem addDefinition_registry {a b : Assembly} {file : String} {definition : Sdl.Definition}
    (h : Registry a.types) (hadd : a.addDefinition file definition = .ok b) :
    Registry b.types := by
  cases definition with
  | type node => exact addType_registry h hadd
  | extension node =>
    cases hadd
    exact h
  | roots node =>
    obtain ⟨query?, -, hrest⟩ := bind_succeeds_iff.mp hadd
    obtain ⟨mutation?, -, hrest⟩ := bind_succeeds_iff.mp hrest
    obtain ⟨subscription?, -, hrest⟩ := bind_succeeds_iff.mp hrest
    obtain ⟨-, -, hrest⟩ := bind_succeeds_iff.mp hrest
    obtain ⟨-, -, hrest⟩ := bind_succeeds_iff.mp hrest
    obtain ⟨-, -, hrest⟩ := bind_succeeds_iff.mp hrest
    cases hrest
    exact h
  | directive node =>
    rw [addDefinition, addDirective] at hadd
    split_ifs at hadd
    split at hadd
    · cases hadd
    · cases hadd
      exact h

theorem Loaded.registry {a : Assembly} (h : Loaded a) : Registry a.types := by
  induction h with
  | empty =>
    refine ⟨List.prefix_rfl, fun t ht => ?_⟩
    obtain ⟨scalar, -, rfl⟩ := List.mem_map.mp ht
    trivial
  | add _ hadd ih => exact addDefinition_registry ih hadd

/-! ### Extensions -/

/-- A builtin scalar is found under its name. -/
theorem Registry.find?_builtin {types : List TypeDefinition} (h : Registry types)
    (scalar : BuiltinScalar) : References.find? types scalar.name = some scalar.definition := by
  obtain ⟨rest, rfl⟩ := h.builtins
  have hfound : References.find? (BuiltinScalar.all.map (·.definition)) scalar.name =
      some scalar.definition := by
    cases scalar <;> rfl
  rw [References.find?] at hfound ⊢
  rw [List.find?_append, hfound]
  rfl

/-- An extension keeps the registry. Builtin scalars take none. -/
theorem extend_registry {types more : List TypeDefinition} {extension : String × Sdl.TypeNode}
    (h : Registry types) (hextend : extend types extension = .ok more) : Registry more := by
  obtain ⟨file, node⟩ := extension
  simp only [extend] at hextend
  split at hextend
  · cases hextend
  · rename_i existing hexisting
    split at hextend
    · cases hextend
    · rename_i result hparts
      obtain ⟨body, rfl, hmore⟩ := bind_succeeds_iff.mp hextend
      cases hmore
      have hbody : body.Distinct :=
        addParts?_distinct (h.distinct existing (List.mem_of_find?_eq_some hexisting)) hparts
      have hother (scalar : BuiltinScalar) : scalar.name ≠ node.name := by
        intro hname
        rw [← hname, h.find?_builtin scalar] at hexisting
        obtain rfl := Option.some.inj hexisting
        cases hparts
      constructor
      · have hsame : (BuiltinScalar.all.map (·.definition)).map
            (fun t => if t.name = node.name then { t with body := body } else t) =
            BuiltinScalar.all.map (·.definition) := by
          rw [List.map_map]
          refine List.map_congr_left fun scalar _ => ?_
          simp [BuiltinScalar.definition, hother scalar]
        rw [← hsame]
        exact h.builtins.map _
      · intro t ht
        obtain ⟨t', ht', rfl⟩ := List.mem_map.mp ht
        split_ifs
        · exact hbody
        · exact h.distinct t' ht'

end Assembly

/-! ### References -/

namespace References

variable {types : List TypeDefinition}

theorem known_of_inputFault {owner : String} {value : InputValue}
    (h : inputFault types owner value = []) :
    ∃ t, find? types value.type.innermost = some t ∧ t.isInput = true := by
  simp only [inputFault] at h
  split at h
  · cases h
  · rename_i t ht
    split_ifs at h with hinput
    exact ⟨t, ht, hinput⟩

theorem known_of_fieldFaults {t : TypeDefinition} {field : FieldDefinition}
    (h : fieldFaults types t field = []) :
    (∃ u, find? types field.type.innermost = some u ∧ u.isOutput = true) ∧
      ∀ p ∈ field.parameters, ∃ u, find? types p.type.innermost = some u ∧ u.isInput = true := by
  obtain ⟨hown, hparameters⟩ := List.append_eq_nil_iff.mp h
  constructor
  · split at hown
    · cases hown
    · rename_i u hu
      split_ifs at hown with houtput
      exact ⟨u, hu, houtput⟩
  · intro p hp
    exact known_of_inputFault (List.flatMap_eq_nil_iff.mp hparameters p hp)

theorem known_of_rootFault {kind : OperationKind} {name : String}
    (h : rootFault types kind name = []) :
    ∃ t, find? types name = some t ∧ t.isObject = true := by
  unfold rootFault at h
  split at h
  · rename_i t ht
    split_ifs at h with hobject
    exact ⟨t, ht, hobject⟩
  · cases h

/-- The faults of a field are among those of its type. -/
theorem fieldFaults_eq_nil {t : TypeDefinition} {fields : List FieldDefinition}
    {field : FieldDefinition} (h : typeFaults types t = []) (hfields : t.fields? = some fields)
    (hfield : field ∈ fields) : fieldFaults types t field = [] := by
  unfold typeFaults at h
  unfold TypeDefinition.fields? at hfields
  split at hfields
  case h_1 own _ hbody | h_2 own _ hbody =>
    obtain rfl := Option.some.inj hfields
    rw [hbody] at h
    exact List.flatMap_eq_nil_iff.mp (List.append_eq_nil_iff.mp h).2 field hfield
  case h_3 => cases hfields

end References

/-- The types that a schema mentions are there and of the kind that their place asks for. -/
structure Schema.Closed (schema : Schema) : Prop where
  /-- The registry of types. -/
  registry : Assembly.Registry schema.types
  /-- Root types are object types. -/
  root : ∀ {kind name}, schema.rootName? kind = some name →
    ∃ t, schema.type? name = some t ∧ t.isObject = true
  /-- The values of a field can be answered. -/
  field : ∀ {t fields f}, t ∈ schema.types → t.fields? = some fields → f ∈ fields →
    ∃ u, schema.type? f.type.innermost = some u ∧ u.isOutput = true
  /-- The values of the parameter of a field can be given. -/
  parameter : ∀ {t fields f p}, t ∈ schema.types → t.fields? = some fields → f ∈ fields →
    p ∈ f.parameters → ∃ u, schema.type? p.type.innermost = some u ∧ u.isInput = true
  /-- The values of the parameter of a directive can be given. -/
  directive : ∀ {d p}, d ∈ schema.directives → p ∈ d.parameters →
    ∃ u, schema.type? p.type.innermost = some u ∧ u.isInput = true
  /-- The values of the field of an input object can be given. -/
  inputField : ∀ {t fields p}, t ∈ schema.types → t.inputFields? = some fields → p ∈ fields →
    ∃ u, schema.type? p.type.innermost = some u ∧ u.isInput = true

open Assembly in
/-- What building checks and leaves alone. -/
theorem Assembly.build_spec {a : Assembly} {schema : Schema} (h : a.build = .ok schema) :
    a.extensions.foldlM extend a.types = .ok schema.types ∧
      References.faults schema.types schema.directives = [] ∧
      rootFaults schema.types schema.query schema.mutation? schema.subscription? = [] := by
  obtain ⟨types, htypes, h⟩ := bind_succeeds_iff.mp h
  dsimp only at h
  split at h
  · obtain ⟨query, -, h⟩ := bind_succeeds_iff.mp h
    split_ifs at h with hfaults
    cases h
    obtain ⟨hreferences, hroots⟩ := List.append_eq_nil_iff.mp (List.isEmpty_iff.mp hfaults)
    exact ⟨htypes, hreferences, hroots⟩
  · cases h

theorem Schema.Built.closed {schema : Schema} (h : schema.Built) : schema.Closed := by
  obtain ⟨a, hloaded, hbuild⟩ := h
  obtain ⟨htypes, hfaults, hroots⟩ := Assembly.build_spec hbuild
  obtain ⟨htypeFaults, hdirectiveFaults⟩ := List.append_eq_nil_iff.mp hfaults
  have htype {t : TypeDefinition} (ht : t ∈ schema.types) :
      References.typeFaults schema.types t = [] := List.flatMap_eq_nil_iff.mp htypeFaults t ht
  constructor
  case registry =>
    exact foldlM_keeps Assembly.Registry Assembly.extend_registry hloaded.registry htypes
  case root =>
    intro kind name hname
    obtain ⟨hrest, hsubscription⟩ := List.append_eq_nil_iff.mp hroots
    obtain ⟨hquery, hmutation⟩ := List.append_eq_nil_iff.mp hrest
    cases kind with
    | query =>
      obtain rfl := Option.some.inj hname
      exact References.known_of_rootFault hquery
    | mutation =>
      have hmem : name ∈ schema.mutation?.toList := Option.mem_toList.mpr hname
      exact References.known_of_rootFault (List.flatMap_eq_nil_iff.mp hmutation name hmem)
    | subscription =>
      have hmem : name ∈ schema.subscription?.toList := Option.mem_toList.mpr hname
      exact References.known_of_rootFault (List.flatMap_eq_nil_iff.mp hsubscription name hmem)
  case field =>
    intro t fields f ht hfields hf
    exact (References.known_of_fieldFaults (References.fieldFaults_eq_nil (htype ht) hfields hf)).1
  case parameter =>
    intro t fields f p ht hfields hf hp
    exact (References.known_of_fieldFaults
      (References.fieldFaults_eq_nil (htype ht) hfields hf)).2 p hp
  case directive =>
    intro d p hd hp
    have hd := List.flatMap_eq_nil_iff.mp hdirectiveFaults d hd
    exact References.known_of_inputFault (List.flatMap_eq_nil_iff.mp hd p hp)
  case inputField =>
    intro t fields p ht hfields hp
    have hfaults := htype ht
    obtain ⟨name, location, body⟩ := t
    cases body with
    | inputObject own =>
      obtain rfl := Option.some.inj hfields
      exact References.known_of_inputFault (List.flatMap_eq_nil_iff.mp hfaults p hp)
    | builtin _ | scalar | object _ _ | interface _ _ | union _ | enum _ => cases hfields

end GraphQLCheck
