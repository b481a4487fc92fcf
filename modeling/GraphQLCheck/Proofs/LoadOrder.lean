import GraphQLCheck.Proofs.PossibleTypes
import GraphQLCheck.Proofs.SchemaAcceptance

/-!
# The order of loading

Definitions are registered as they are loaded while extensions wait, and blocks of root types are
checked against what was named before them. Still the order in which files are loaded does not
matter: either all orders succeed or none does, and the schemas that come out agree up to where
things are defined and in which order they are listed (`Schema.Agrees`). That all orders succeed or
none is `Sdl.LooselyWellFormed.perm`. What is in the schema is read off its explicit form
(`Assembly.built`), each part of which is made of the definitions without regard to their order.
-/

namespace GraphQLCheck

open Assembly

open scoped List

/-! ### Schemas that agree -/

/-- A parameter or input field without its location. -/
def InputValue.unlocated (p : InputValue) : InputValue := { p with location := .builtin }

/-- A field without locations. -/
def FieldDefinition.unlocated (f : FieldDefinition) : FieldDefinition :=
  { f with parameters := f.parameters.map (·.unlocated), location := .builtin }

/-- A value of an enum without its location. -/
def EnumValue.unlocated (v : EnumValue) : EnumValue := { v with location := .builtin }

/-- A directive without locations in texts. -/
def DirectiveDefinition.unlocated (d : DirectiveDefinition) : DirectiveDefinition :=
  { d with parameters := d.parameters.map (·.unlocated), location := .builtin }

/-- Bodies agree up to locations and the order of their parts. -/
structure TypeBody.Agrees (body other : TypeBody) : Prop where
  /-- They are of one kind. -/
  kind : body.kind = other.kind
  /-- They are of the same builtin scalar, if they are of one. -/
  builtin : ∀ scalar, body = .builtin scalar ↔ other = .builtin scalar
  /-- They have the same fields, with their types, parameters and deprecations. -/
  fields : body.fields.map (·.unlocated) ~ other.fields.map (·.unlocated)
  /-- They declare the same interfaces. -/
  interfaces : body.interfaces ~ other.interfaces
  /-- They have the same members. -/
  members : body.members ~ other.members
  /-- They have the same values, with their deprecations. -/
  values : body.values.map (·.unlocated) ~ other.values.map (·.unlocated)
  /-- They have the same fields of input objects, with their types and defaults. -/
  inputFields : body.inputFields.map (·.unlocated) ~ other.inputFields.map (·.unlocated)

/-- Schemas agree up to locations and the order of entries. -/
structure Schema.Agrees (s other : Schema) : Prop where
  /-- They have types of the same names. -/
  typeNames : s.typeNames ~ other.typeNames
  /-- Types of one name agree. -/
  types : ∀ t ∈ s.types, ∀ u ∈ other.types, t.name = u.name → t.body.Agrees u.body
  /-- They have the same directives. -/
  directives : s.directives.map (·.unlocated) ~ other.directives.map (·.unlocated)
  /-- They have the same root types. -/
  roots : ∀ kind, s.rootName? kind = other.rootName? kind
  /-- The same object types are possible for each name. -/
  possible : ∀ name object, object ∈ s.possibleTypes name ↔ object ∈ other.possibleTypes name

theorem TypeBody.Agrees.refl (body : TypeBody) : body.Agrees body :=
  ⟨rfl, fun _ => Iff.rfl, .refl _, .refl _, .refl _, .refl _, .refl _⟩

/-! ### What does not depend on the file -/

theorem map_unlocated_putParameter (parameters : List InputValue) (p : InputValue) :
    (putParameter parameters p).map (·.unlocated) =
      putParameter (parameters.map (·.unlocated)) p.unlocated := by
  have hany : (parameters.map (·.unlocated)).any (·.name = p.unlocated.name) =
      parameters.any (·.name = p.name) := by
    rw [List.any_map]
    rfl
  unfold putParameter
  rw [hany]
  split
  · rw [List.map_map, List.map_map]
    refine List.map_congr_left fun q _ => ?_
    by_cases h : q.name = p.name <;> simp [InputValue.unlocated, h]
  · simp

theorem map_unlocated_parametersOf (file : String) (nodes : List Sdl.InputValueNode) :
    (parametersOf file nodes).map (·.unlocated) = (parametersOf "" nodes).map (·.unlocated) := by
  have hfold (file : String) (parameters : List InputValue) :
      ((nodes.map (inputValueOf file)).foldl putParameter parameters).map (·.unlocated) =
        (nodes.map fun node => (inputValueOf "" node).unlocated).foldl putParameter
          (parameters.map (·.unlocated)) := by
    induction nodes generalizing parameters with
    | nil => rfl
    | cons node nodes ih =>
      rw [List.map_cons, List.foldl_cons, ih, map_unlocated_putParameter]
      rfl
  rw [parametersOf, parametersOf, hfold, hfold]

theorem unlocated_fieldOf (file : String) (node : Sdl.FieldNode) :
    (fieldOf file node).unlocated = (fieldOf "" node).unlocated := by
  simp only [FieldDefinition.unlocated, fieldOf, map_unlocated_parametersOf file]

theorem unlocated_directiveOf (e : String × Sdl.DirectiveNode) :
    (directiveOf e).unlocated = (directiveOf ("", e.2)).unlocated := by
  simp only [DirectiveDefinition.unlocated, directiveOf, map_unlocated_parametersOf e.1]

namespace Assembly

/-! ### The same definitions in another order -/

theorem eq_of_perm_of_length_le {α : Type} {list other : List α} (h : list ~ other)
    (hlength : list.length ≤ 1) : list = other := by
  match list, hlength with
  | [], _ => exact h.nil_eq
  | [a], _ => exact List.singleton_perm.mp h

section Order

variable {entries others : List Entry}

/-- What a type has of one sort is the same for every order of its extensions. -/
theorem part_perm {α β : Type} {part : TypeBody → List α} {strip : α → β}
    (hpart : ∀ {body other : TypeBody}, body.kind = other.kind →
      part (body.merge other) = part body ++ part other)
    (hstrip : ∀ file parts, (part (.ofParts file parts)).map strip =
      (part (.ofParts "" parts)).map strip)
    (hperm : entries.map (·.2) ~ others.map (·.2))
    {d e : String × Sdl.TypeNode} (hnode : d.2 = e.2)
    (hd : (typeOf d).Fitting (loaded entries).extensions)
    (he : (typeOf e).Fitting (loaded others).extensions) :
    (part ((typeOf d).extended (loaded entries).extensions).body).map strip ~
      (part ((typeOf e).extended (loaded others).extensions).body).map strip := by
  have hgiven {entries : List Entry} (d : String × Sdl.TypeNode) :
      ((ownEntries entries d).flatMap fun x => (part (.ofParts x.1 x.2.parts)).map strip) =
        (d.2.given (entries.map (·.2))).flatMap fun parts =>
          (part (.ofParts "" parts)).map strip := by
    rw [given_eq_map_ownEntries, List.flatMap_map]
    simp only [hstrip]
  rw [part_extended hd hpart, part_extended he hpart, List.map_flatMap, List.map_flatMap, hgiven,
    hgiven, hnode]
  exact (Sdl.given_perm hperm e.2).flatMap_right _

theorem body_extended_ne_builtin (e : String × Sdl.TypeNode)
    (extensions : List (String × Sdl.TypeNode)) (scalar : BuiltinScalar) :
    ((typeOf e).extended extensions).body ≠ .builtin scalar :=
  (TypeDefinition.takes_extended_iff.mpr (takes_typeOf_iff.mpr rfl)).2 scalar

theorem body_agrees (hperm : entries.map (·.2) ~ others.map (·.2))
    {d e : String × Sdl.TypeNode} (hnode : d.2 = e.2)
    (hd : (typeOf d).Fitting (loaded entries).extensions)
    (he : (typeOf e).Fitting (loaded others).extensions) :
    ((typeOf d).extended (loaded entries).extensions).body.Agrees
      ((typeOf e).extended (loaded others).extensions).body where
  kind := by
    rw [← TypeDefinition.kind_eq, ← TypeDefinition.kind_eq, TypeDefinition.kind_extended,
      TypeDefinition.kind_extended, kind_typeOf, kind_typeOf, hnode]
  builtin scalar :=
    iff_of_false (body_extended_ne_builtin d _ scalar) (body_extended_ne_builtin e _ scalar)
  fields := by
    refine part_perm TypeBody.fields_merge (fun file parts => ?_) hperm hnode hd he
    simp [unlocated_fieldOf file]
  interfaces := by
    have hstrip (file : String) (parts : Sdl.TypeParts) :
        (TypeBody.ofParts file parts).interfaces.map id =
          (TypeBody.ofParts "" parts).interfaces.map id := by simp
    simpa using part_perm TypeBody.interfaces_merge hstrip hperm hnode hd he
  members := by
    have hstrip (file : String) (parts : Sdl.TypeParts) :
        (TypeBody.ofParts file parts).members.map id =
          (TypeBody.ofParts "" parts).members.map id := by simp
    simpa using part_perm TypeBody.members_merge hstrip hperm hnode hd he
  values := by
    refine part_perm TypeBody.values_merge (fun file parts => ?_) hperm hnode hd he
    simp [enumValueOf, EnumValue.unlocated]
  inputFields := by
    refine part_perm TypeBody.inputFields_merge (fun file parts => ?_) hperm hnode hd he
    simp [inputValueOf, InputValue.unlocated]

theorem typeNames_built (entries : List Entry) :
    (loaded entries).built.typeNames =
      BuiltinScalar.all.map (·.name) ++ (Sdl.typeNodes (entries.map (·.2))).map (·.name) := by
  rw [Schema.typeNames, built, finalTypes, List.map_map]
  exact map_name_taking_types Assembly.empty entries

theorem mem_finalTypes_iff {t : TypeDefinition} :
    t ∈ (loaded entries).finalTypes ↔
      (∃ scalar ∈ BuiltinScalar.all,
        scalar.definition.extended (loaded entries).extensions = t) ∨
      ∃ e ∈ sorted Sdl.Definition.type? entries,
        (typeOf e).extended (loaded entries).extensions = t := by
  simp only [finalTypes, types_loaded, List.mem_map, List.mem_append, or_and_right, exists_or,
    exists_exists_and_eq_and]

theorem mem_typeNodes {e : String × Sdl.TypeNode}
    (he : e ∈ sorted Sdl.Definition.type? entries) :
    e.2 ∈ Sdl.typeNodes (entries.map (·.2)) := by
  rw [Sdl.typeNodes, ← map_snd_sorted]
  exact List.mem_map_of_mem he

section Loose

variable (hloose : Sdl.LooselyWellFormed (entries.map (·.2)))
include hloose

theorem nodup_names_of_loose : ((loaded entries).types.map (·.name)).Nodup :=
  nodup_types_loaded (admits_of_consistent hloose.toConsistent)

theorem fitting_of_loose {e : String × Sdl.TypeNode}
    (he : e ∈ sorted Sdl.Definition.type? entries) :
    (typeOf e).Fitting (loaded entries).extensions :=
  fitting_typeOf (nodup_names_of_loose hloose)
    (finds_loaded_iff_extensions.mpr hloose.extensions) he

theorem nodup_finalTypes : ((loaded entries).finalTypes.map (·.name)).Nodup := by
  rw [finalTypes, List.map_map]
  exact nodup_names_of_loose hloose

/-- No definition takes the place of a builtin directive. -/
theorem missingBuiltins_loaded :
    missingBuiltins (loaded entries).directives = DirectiveDefinition.builtins := by
  refine List.filter_eq_self.mpr fun b hb => ?_
  rw [Bool.not_eq_true', List.any_eq_false]
  intro d hd
  obtain ⟨e, he, rfl⟩ := List.mem_map.mp hd
  have hnode : e.2 ∈ Sdl.directiveNodes (entries.map (·.2)) := by
    rw [Sdl.directiveNodes, ← map_snd_sorted]
    exact List.mem_map_of_mem he
  have hnew := (hloose.newDirectives e.2 hnode).1
  intro hname
  exact hnew (List.mem_map.mpr ⟨b, hb, (of_decide_eq_true hname).symm⟩)

/-- The types that the types of the schema mention are there. -/
theorem finalTypes_bear : ∀ t ∈ (loaded entries).finalTypes,
    References.Bears (loaded entries).finalTypes t.body := by
  have hparameters := (Sdl.forall_parameterLists_iff.mp hloose.parameters).1
  exact (finalTypes_bear_iff (nodup_names_of_loose hloose)
    (finds_loaded_iff_extensions.mpr hloose.extensions)).mpr fun node hnode =>
      ⟨hloose.resolved node hnode, hparameters node hnode⟩

/-- What a type declares is an interface of the schema. -/
theorem exists_interface {t : TypeDefinition} (ht : t ∈ (loaded entries).finalTypes) {name : String}
    (hdeclared : name ∈ t.body.interfaces) :
    ∃ i ∈ (loaded entries).finalTypes, i.name = name ∧ i.kind = .interface := by
  obtain ⟨i, hfind, hkind⟩ := (finalTypes_bear hloose t ht).interfaces name hdeclared
  obtain ⟨hi, hname⟩ := (References.find?_eq_some_iff (nodup_finalTypes hloose)).mp hfind
  exact ⟨i, hi, hname, of_decide_eq_true hkind⟩

variable (hperm : entries.map (·.2) ~ others.map (·.2))
include hperm

theorem types_agree {t u : TypeDefinition} (ht : t ∈ (loaded entries).finalTypes)
    (hu : u ∈ (loaded others).finalTypes) (hname : t.name = u.name) : t.body.Agrees u.body := by
  have hother := hloose.perm hperm
  rcases mem_finalTypes_iff.mp ht with ⟨scalar, hscalar, rfl⟩ | ⟨d, hd, rfl⟩ <;>
    rcases mem_finalTypes_iff.mp hu with ⟨other, hother', rfl⟩ | ⟨e, he, rfl⟩
  · have hinjective : ∀ s ∈ BuiltinScalar.all, ∀ t ∈ BuiltinScalar.all,
        s.name = t.name → s = t := by
      decide
    obtain rfl := hinjective scalar hscalar other hother' hname
    rw [body_extended_builtin, body_extended_builtin]
    exact .refl _
  · exact absurd (List.mem_map.mpr ⟨scalar, hscalar, hname⟩)
      (hother.newTypes e.2 (mem_typeNodes he)).1
  · exact absurd (List.mem_map.mpr ⟨other, hother', hname.symm⟩)
      (hloose.newTypes d.2 (mem_typeNodes hd)).1
  · have hd' : d.2 ∈ Sdl.typeNodes (others.map (·.2)) :=
      (Sdl.typeNodes_perm hperm).mem_iff.mp (mem_typeNodes hd)
    have hnode : d.2 = e.2 :=
      List.inj_on_of_nodup_map hother.typeNames hd' (mem_typeNodes he) hname
    exact body_agrees hperm hnode (fitting_of_loose hloose hd) (fitting_of_loose hother he)

theorem directives_perm : (loaded entries).built.directives.map (·.unlocated) ~
    (loaded others).built.directives.map (·.unlocated) := by
  have hdefined (entries : List Entry) : (loaded entries).directives.map (·.unlocated) =
      (Sdl.directiveNodes (entries.map (·.2))).map fun node =>
        (directiveOf ("", node)).unlocated := by
    have hdirectives : (loaded entries).directives =
        (sorted Sdl.Definition.directive? entries).map directiveOf := rfl
    rw [hdirectives, Sdl.directiveNodes, ← map_snd_sorted, List.map_map, List.map_map]
    exact List.map_congr_left fun e _ => unlocated_directiveOf e
  rw [built, built, List.map_append, List.map_append, hdefined, hdefined,
    missingBuiltins_loaded hloose, missingBuiltins_loaded (hloose.perm hperm)]
  exact ((Sdl.directiveNodes_perm hperm).map _).append_right _

theorem rootName?_eq (kind : OperationKind) :
    (loaded entries).rootName? kind = (loaded others).rootName? kind := by
  have hroots : Sdl.rootNames (entries.map (·.2)) kind = Sdl.rootNames (others.map (·.2)) kind :=
    eq_of_perm_of_length_le (Sdl.rootNames_perm hperm kind) (hloose.rootsOnce kind)
  have hdefault : Sdl.Names (entries.map (·.2)) (· = .object) kind.render ↔
      Sdl.Names (others.map (·.2)) (· = .object) kind.render :=
    ⟨fun h => h.perm hperm, fun h => h.perm hperm.symm⟩
  ext name
  simp only [rootName?_loaded_eq_some_iff, hroots, hdefault,
    resolves_loaded_iff (nodup_names_of_loose hloose),
    resolves_loaded_iff (nodup_names_of_loose (hloose.perm hperm))]

end Loose

/-! ### Possible types -/

theorem mem_possibleFor_iff {t : TypeDefinition} {name object : String} :
    object ∈ t.possibleFor name ↔
      (t.body.kind = .object ∧ name ∈ t.body.interfaces ∧ object = t.name) ∨
        (t.body.kind = .union ∧ t.name = name ∧ object ∈ t.body.members) := by
  obtain ⟨typeName, location, body⟩ := t
  cases body with
  | object fields interfaces =>
    simp [TypeDefinition.possibleFor, TypeBody.kind, TypeBody.interfaces]
  | union members =>
    by_cases h : typeName = name
    · simp [TypeDefinition.possibleFor, TypeBody.kind, TypeBody.members, h]
    · simp [TypeDefinition.possibleFor, TypeBody.kind, h]
  | builtin _ | scalar | enum _ | inputObject _ | interface _ _ =>
    simp [TypeDefinition.possibleFor, TypeBody.kind]

/-- Types that agree have the same object types for a name. -/
theorem mem_possibleFor_of_agrees {t u : TypeDefinition} {name object : String}
    (hname : t.name = u.name) (hbody : t.body.Agrees u.body) (h : object ∈ t.possibleFor name) :
    object ∈ u.possibleFor name := by
  rw [mem_possibleFor_iff] at h ⊢
  rw [← hbody.kind, ← hname, ← hbody.interfaces.mem_iff, ← hbody.members.mem_iff]
  exact h

/-- What is possible for a name in a built schema. -/
theorem possibleTypes_built (hloose : Sdl.LooselyWellFormed (entries.map (·.2))) (name : String) :
    (loaded entries).built.possibleTypes name =
      (loaded entries).finalTypes.flatMap (·.possibleFor name) := by
  refine PossibleIndex.under_ofTypes (nodup_finalTypes hloose) (fun u hu t ht hdeclared => ?_) name
  obtain ⟨i, hi, hname, hkind⟩ := exists_interface hloose hu (u.interfaces_eq ▸ hdeclared)
  rwa [← eq_of_name_eq (nodup_finalTypes hloose) hi ht hname]

end Order

theorem built_agrees {entries others : List Entry}
    (hloose : Sdl.LooselyWellFormed (entries.map (·.2)))
    (hperm : entries.map (·.2) ~ others.map (·.2)) :
    (loaded entries).built.Agrees (loaded others).built := by
  have hnames {entries others : List Entry} (hperm : entries.map (·.2) ~ others.map (·.2)) :
      (loaded entries).built.typeNames ~ (loaded others).built.typeNames := by
    rw [typeNames_built, typeNames_built]
    exact ((Sdl.typeNodes_perm hperm).map _).append_left _
  have hpossible {entries others : List Entry} (hloose : Sdl.LooselyWellFormed (entries.map (·.2)))
      (hperm : entries.map (·.2) ~ others.map (·.2)) (name object : String)
      (h : object ∈ (loaded entries).built.possibleTypes name) :
      object ∈ (loaded others).built.possibleTypes name := by
    rw [possibleTypes_built hloose, List.mem_flatMap] at h
    obtain ⟨t, ht, hobject⟩ := h
    have hname : t.name ∈ (loaded others).built.typeNames :=
      (hnames hperm).mem_iff.mp (List.mem_map_of_mem ht)
    obtain ⟨u, hu, hname⟩ := List.mem_map.mp hname
    rw [possibleTypes_built (hloose.perm hperm), List.mem_flatMap]
    exact ⟨u, hu, mem_possibleFor_of_agrees hname.symm
      (types_agree hloose hperm ht hu hname.symm) hobject⟩
  constructor
  case typeNames => exact hnames hperm
  case types => exact fun t ht u hu hname => types_agree hloose hperm ht hu hname
  case directives => exact directives_perm hloose hperm
  case roots =>
    intro kind
    cases kind with
    | query => simp only [Schema.rootName?, built, rootName?_eq hloose hperm]
    | mutation => exact rootName?_eq hloose hperm .mutation
    | subscription => exact rootName?_eq hloose hperm .subscription
  case possible =>
    exact fun name object => ⟨hpossible hloose hperm name object,
      hpossible (hloose.perm hperm) hperm.symm name object⟩

end Assembly

/-! ### Files and sources in another order -/

/-- Two runs both fail, or both succeed with schemas that agree. -/
def Schema.SameOutcome (run other : Except SchemaError Schema) : Prop :=
  ((∃ s, run = .ok s) ↔ ∃ s, other = .ok s) ∧
    ∀ s t, run = .ok s → other = .ok t → s.Agrees t

theorem Schema.sameOutcome_ofFiles {files others : List Sdl.File}
    (h : files.map (·.definitions) ~ others.map (·.definitions)) :
    SameOutcome (ofFiles files) (ofFiles others) := by
  have hperm : files.flatMap (·.definitions) ~ others.flatMap (·.definitions) := by
    rw [List.flatMap, List.flatMap]
    exact h.flatten
  constructor
  · simp only [ofFiles_eq_ok_iff, exists_and_left, exists_eq, and_true]
    exact ⟨fun hloose => hloose.perm hperm, fun hloose => hloose.perm hperm.symm⟩
  · intro s t hs ht
    obtain ⟨hloose, rfl⟩ := ofFiles_eq_ok_iff.mp hs
    obtain ⟨-, rfl⟩ := ofFiles_eq_ok_iff.mp ht
    rw [← map_snd_entries] at hloose
    rw [← map_snd_entries, ← map_snd_entries] at hperm
    exact built_agrees hloose hperm

namespace Source

/-- The number of a text without a name only makes its name. -/
theorem read?_number {w : Workspace} {source : Source} {number : UInt16} {files : List Sdl.File}
    (h : source.read? w number = some files) (other : UInt16) :
    ∃ others, source.read? w other = some others ∧
      files.map (·.definitions) = others.map (·.definitions) := by
  cases source with
  | files paths => exact ⟨files, h, rfl⟩
  | text name? content =>
    simp only [read?, Sdl.File.ofText?, Option.map_map, Option.map_eq_some_iff] at h ⊢
    obtain ⟨definitions, hread, rfl⟩ := h
    exact ⟨_, ⟨definitions, hread, rfl⟩, rfl⟩

theorem readAll?_cons_eq_some_iff {w : Workspace} {number : UInt16} {source : Source}
    {rest : List Source} {files : List Sdl.File} :
    readAll? w number (source :: rest) = some files ↔
      ∃ own others, source.read? w number = some own ∧
        readAll? w (source.next number) rest = some others ∧ own ++ others = files := by
  simp only [readAll?, Option.bind_eq_bind, Option.bind_eq_some_iff, Option.pure_def,
    Option.some.injEq]
  constructor
  · rintro ⟨own, hown, others, hothers, heq⟩
    exact ⟨own, others, hown, hothers, heq⟩
  · rintro ⟨own, others, hown, hothers, heq⟩
    exact ⟨own, hown, others, hothers, heq⟩

theorem readAll?_number {w : Workspace} {sources : List Source} {number : UInt16}
    {files : List Sdl.File} (h : readAll? w number sources = some files) (other : UInt16) :
    ∃ others, readAll? w other sources = some others ∧
      files.map (·.definitions) = others.map (·.definitions) := by
  induction sources generalizing number files other with
  | nil =>
    cases h
    exact ⟨[], rfl, rfl⟩
  | cons source rest ih =>
    obtain ⟨own, ownRest, hown, hrest, rfl⟩ := readAll?_cons_eq_some_iff.mp h
    obtain ⟨own', hown', hsame⟩ := read?_number hown other
    obtain ⟨rest', hrest', hsameRest⟩ := ih hrest (source.next other)
    refine ⟨own' ++ rest', readAll?_cons_eq_some_iff.mpr ⟨own', rest', hown', hrest', rfl⟩, ?_⟩
    rw [List.map_append, List.map_append, hsame, hsameRest]

/-- Sources can be read in every order, with the same definitions. -/
theorem readAll?_perm {w : Workspace} {sources others : List Source} (h : sources ~ others)
    {number : UInt16} {files : List Sdl.File} (hread : readAll? w number sources = some files)
    (other : UInt16) : ∃ files', readAll? w other others = some files' ∧
      files.map (·.definitions) ~ files'.map (·.definitions) := by
  -- A text without a name is called by a number that depends on the order, so only the definitions
  -- are the same.
  induction h generalizing number files other with
  | nil =>
    cases hread
    exact ⟨[], rfl, .refl _⟩
  | cons source _ ih =>
    obtain ⟨own, rest, hown, hrest, rfl⟩ := readAll?_cons_eq_some_iff.mp hread
    obtain ⟨own', hown', hsame⟩ := read?_number hown other
    obtain ⟨rest', hrest', hperm⟩ := ih hrest (source.next other)
    refine ⟨own' ++ rest', readAll?_cons_eq_some_iff.mpr ⟨own', rest', hown', hrest', rfl⟩, ?_⟩
    rw [List.map_append, List.map_append, hsame]
    exact hperm.append_left _
  | swap first second rest =>
    obtain ⟨ownSecond, _, hsecond, hread', rfl⟩ := readAll?_cons_eq_some_iff.mp hread
    obtain ⟨ownFirst, ownRest, hfirst, hrest, rfl⟩ := readAll?_cons_eq_some_iff.mp hread'
    obtain ⟨first', hfirst', hsameFirst⟩ := read?_number hfirst other
    obtain ⟨second', hsecond', hsameSecond⟩ := read?_number hsecond (first.next other)
    obtain ⟨rest', hrest', hsameRest⟩ := readAll?_number hrest (second.next (first.next other))
    refine ⟨first' ++ (second' ++ rest'), readAll?_cons_eq_some_iff.mpr ⟨first', _, hfirst',
      readAll?_cons_eq_some_iff.mpr ⟨second', rest', hsecond', hrest', rfl⟩, rfl⟩, ?_⟩
    simp only [List.map_append, hsameFirst, hsameSecond, hsameRest]
    exact List.perm_append_comm_assoc _ _ _
  | trans _ _ ih₁ ih₂ =>
    obtain ⟨middle, hmiddle, hperm₁⟩ := ih₁ hread number
    obtain ⟨files', hfiles', hperm₂⟩ := ih₂ hmiddle other
    exact ⟨files', hfiles', hperm₁.trans hperm₂⟩

end Source

theorem Schema.sameOutcome_ofSources {w : Workspace} {sources others : List Source}
    (h : sources ~ others) : SameOutcome (ofSources w sources).1 (ofSources w others).1 := by
  have hsucceeds {sources others : List Source} (h : sources ~ others) :
      (∃ s, (ofSources w sources).1 = .ok s) → ∃ s, (ofSources w others).1 = .ok s := by
    rintro ⟨s, hs⟩
    obtain ⟨files, hread, hfiles⟩ := ofSources_eq_ok_iff.mp hs
    obtain ⟨files', hread', hperm⟩ := Source.readAll?_perm h hread 0
    obtain ⟨t, ht⟩ := (sameOutcome_ofFiles hperm).1.mp ⟨s, hfiles⟩
    exact ⟨t, ofSources_eq_ok_iff.mpr ⟨files', hread', ht⟩⟩
  refine ⟨⟨hsucceeds h, hsucceeds h.symm⟩, fun s t hs ht => ?_⟩
  obtain ⟨files, hread, hfiles⟩ := ofSources_eq_ok_iff.mp hs
  obtain ⟨files', hread', hperm⟩ := Source.readAll?_perm h hread 0
  obtain ⟨others', hothers, hfiles'⟩ := ofSources_eq_ok_iff.mp ht
  obtain rfl := Option.some.inj (hread'.symm.trans hothers)
  exact (sameOutcome_ofFiles hperm).2 s t hfiles hfiles'

/-- The order in which files or sources are loaded does not matter: if one order succeeds, so does
every other, and the schemas agree on everything but locations and the order of entries. -/
theorem load_order_irrelevant {files others : List Sdl.File} (hfiles : files ~ others)
    {sources rest : List Source} (hsources : sources ~ rest) (w : Workspace) :
    Schema.SameOutcome (Schema.ofFiles files) (Schema.ofFiles others) ∧
      Schema.SameOutcome (Schema.ofSources w sources).1 (Schema.ofSources w rest).1 :=
  ⟨Schema.sameOutcome_ofFiles (hfiles.map _), Schema.sameOutcome_ofSources hsources⟩

/-- A file that extends a type of another file and names the root type. -/
def extendingFile : Sdl.File where
  name := "extending"
  definitions :=
    [.extension ⟨⟨1, 8⟩, "Root", .object ["Node"] [⟨⟨1, 35⟩, "next", [], .named "Node" true, []⟩]⟩,
      .roots ⟨⟨2, 1⟩, some "Root", none, none⟩]

/-- A file that defines the type and its interface. -/
def definingFile : Sdl.File where
  name := "defining"
  definitions :=
    [.type ⟨⟨1, 1⟩, "Root", .object [] [⟨⟨1, 13⟩, "id", [], .named "ID" false, []⟩]⟩,
      .type ⟨⟨2, 1⟩, "Node", .interface [] [⟨⟨2, 18⟩, "id", [], .named "ID" false, []⟩]⟩]

/-- The first file as a text. -/
def extendingText : Source :=
  .text none "extend type Root implements Node { next: Node }\nschema { query: Root }"

/-- The second file as a text. -/
def definingText : Source :=
  .text none "type Root { id: ID! }\ninterface Node { id: ID! }"

/-- The extension may be loaded before the type, and then the schema is the same. -/
theorem extension_loaded_first :
    [extendingFile, definingFile] ~ [definingFile, extendingFile] ∧
      [extendingText, definingText] ~ [definingText, extendingText] ∧
      (∃ s t, Schema.ofFiles [extendingFile, definingFile] = .ok s ∧
        Schema.ofFiles [definingFile, extendingFile] = .ok t ∧ s.Agrees t) ∧
      Schema.SameOutcome (Schema.ofSources .empty [extendingText, definingText]).1
        (Schema.ofSources .empty [definingText, extendingText]).1 := by
  have hfiles : [extendingFile, definingFile] ~ [definingFile, extendingFile] := .swap _ _ _
  have hsources : [extendingText, definingText] ~ [definingText, extendingText] := .swap _ _ _
  have hloose : Sdl.LooselyWellFormed ([extendingFile, definingFile].flatMap (·.definitions)) := by
    decide
  have hfirst := Schema.ofFiles_eq_ok_iff.mpr ⟨hloose, rfl⟩
  obtain ⟨⟨hsucceeds, hagree⟩, htexts⟩ := load_order_irrelevant hfiles hsources .empty
  obtain ⟨t, ht⟩ := hsucceeds.mp ⟨_, hfirst⟩
  exact ⟨hfiles, hsources, ⟨_, t, hfirst, ht, hagree _ t hfirst ht⟩, htexts⟩

end GraphQLCheck
