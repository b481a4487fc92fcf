import GraphQLCheck.Proofs.Assembling.Extending

/-!
# Building a schema

What an assembly is made into (`Assembly.built`), and when this succeeds (`build_ok_iff`): its
extensions apply, there is a root type for queries, and all types that are mentioned are there and
of the kind that their place asks for. The faults of references are read as conditions on names
(`Resolves`).
-/

namespace GraphQLCheck

namespace References

/-! ### References without faults -/

/-- A name is that of a type of an allowed kind in a registry. -/
def Resolves (types : List TypeDefinition) (allowed : TypeKind → Bool) (name : String) : Prop :=
  ∃ t, find? types name = some t ∧ allowed t.kind = true

variable {types : List TypeDefinition} {owner : String} {t : TypeDefinition}

theorem inputFault_eq_nil_iff {value : InputValue} :
    inputFault types owner value = [] ↔ Resolves types TypeKind.isInput value.type.innermost := by
  simp only [inputFault, Resolves]
  cases find? types value.type.innermost with
  | none => simp
  | some u => cases hinput : u.kind.isInput <;> simp [TypeDefinition.isInput, hinput]

theorem interfaceFault_eq_nil_iff {interface : String} :
    interfaceFault types t interface = [] ↔ Resolves types (· = .interface) interface := by
  simp only [interfaceFault, Resolves]
  cases find? types interface with
  | none => simp
  | some u => simp

theorem memberFault_eq_nil_iff {member : String} :
    memberFault types t member = [] ↔ Resolves types (· = .object) member := by
  simp only [memberFault, Resolves]
  cases find? types member with
  | none => simp
  | some u => simp [TypeDefinition.isObject]

theorem rootFault_eq_nil_iff {kind : OperationKind} {name : String} :
    rootFault types kind name = [] ↔ Resolves types (· = .object) name := by
  simp only [rootFault, Resolves]
  cases find? types name with
  | none => simp
  | some u => simp [TypeDefinition.isObject]

theorem fieldFaults_eq_nil_iff {field : FieldDefinition} :
    fieldFaults types t field = [] ↔
      Resolves types TypeKind.isOutput field.type.innermost ∧
        ∀ p ∈ field.parameters, Resolves types TypeKind.isInput p.type.innermost := by
  simp only [fieldFaults, List.append_eq_nil_iff, List.flatMap_eq_nil_iff, inputFault_eq_nil_iff]
  refine and_congr_left fun _ => ?_
  cases hfind : find? types field.type.innermost with
  | none => simp [Resolves, hfind]
  | some u =>
    cases houtput : u.kind.isOutput <;> simp [Resolves, hfind, TypeDefinition.isOutput, houtput]

/-- The types that a body mentions are there and of the kind that their place asks for. -/
@[mk_iff]
structure Bears (types : List TypeDefinition) (body : TypeBody) : Prop where
  /-- What is implemented is an interface. -/
  interfaces : ∀ name ∈ body.interfaces, Resolves types (· = .interface) name
  /-- Members of unions are object types. -/
  members : ∀ name ∈ body.members, Resolves types (· = .object) name
  /-- The type of a field is not an input object. -/
  fields : ∀ f ∈ body.fields, Resolves types TypeKind.isOutput f.type.innermost
  /-- The values of a parameter can be given. -/
  parameters : ∀ f ∈ body.fields, ∀ p ∈ f.parameters,
    Resolves types TypeKind.isInput p.type.innermost
  /-- The values of a field of an input object can be given. -/
  inputFields : ∀ p ∈ body.inputFields, Resolves types TypeKind.isInput p.type.innermost

theorem typeFaults_eq_nil_iff : typeFaults types t = [] ↔ Bears types t.body := by
  have hboth {fields : List FieldDefinition} {interfaces : List String} :
      (interfaces.flatMap (interfaceFault types t) ++ fields.flatMap (fieldFaults types t) = []) ↔
        (∀ name ∈ interfaces, Resolves types (· = .interface) name) ∧
          (∀ f ∈ fields, Resolves types TypeKind.isOutput f.type.innermost) ∧
          ∀ f ∈ fields, ∀ p ∈ f.parameters, Resolves types TypeKind.isInput p.type.innermost := by
    simp only [List.append_eq_nil_iff, List.flatMap_eq_nil_iff, interfaceFault_eq_nil_iff,
      fieldFaults_eq_nil_iff, forall_and]
  obtain ⟨name, location, body⟩ := t
  cases body with
  | object fields interfaces | interface fields interfaces =>
    simp [typeFaults, hboth, bears_iff, TypeBody.fields, TypeBody.interfaces, TypeBody.members,
      TypeBody.inputFields]
  | union members =>
    simp [typeFaults, bears_iff, memberFault_eq_nil_iff, TypeBody.fields, TypeBody.interfaces,
      TypeBody.members, TypeBody.inputFields]
  | inputObject fields =>
    simp [typeFaults, bears_iff, inputFault_eq_nil_iff, TypeBody.fields, TypeBody.interfaces,
      TypeBody.members, TypeBody.inputFields]
  | builtin _ | scalar | enum _ =>
    simp [typeFaults, bears_iff, TypeBody.fields, TypeBody.interfaces, TypeBody.members,
      TypeBody.inputFields]

theorem faults_eq_nil_iff {directives : List DirectiveDefinition} :
    faults types directives = [] ↔ (∀ t ∈ types, Bears types t.body) ∧
      ∀ d ∈ directives, ∀ p ∈ d.parameters, Resolves types TypeKind.isInput p.type.innermost := by
  simp only [faults, directiveFaults, List.append_eq_nil_iff, List.flatMap_eq_nil_iff,
    typeFaults_eq_nil_iff, inputFault_eq_nil_iff]

/-- Where types have different names, a name is that of one of them. -/
theorem find?_eq_some_iff {name : String} (hnames : (types.map (·.name)).Nodup) :
    find? types name = some t ↔ t ∈ types ∧ t.name = name := by
  constructor
  · intro h
    exact ⟨List.mem_of_find?_eq_some h, by simpa using List.find?_some h⟩
  · rintro ⟨ht, rfl⟩
    exact find?_of_nodup hnames ht

end References

/-! ### The schema that an assembly is made into -/

namespace Assembly

/-- The types of an assembly with all extensions. -/
def finalTypes (a : Assembly) : List TypeDefinition := a.types.map (·.extended a.extensions)

/-- The name of the root type for a kind of operation: the one that is named, or the default name if
there is an object type of that name. -/
def rootName? (a : Assembly) (kind : OperationKind) : Option String :=
  ((a.roots.get kind).map (·.typeName)).or (defaultRoot? a.finalTypes kind.render)

/-- The schema that an assembly is made into. -/
def built (a : Assembly) : Schema where
  types := a.finalTypes
  directives := a.directives ++ missingBuiltins a.directives
  query := (a.rootName? .query).getD ""
  mutation? := a.rootName? .mutation
  subscription? := a.rootName? .subscription
  possible := PossibleIndex.ofTypes a.finalTypes

theorem rootFaults_built_eq_nil_iff {a : Assembly} (hquery : (a.rootName? .query).isSome = true) :
    rootFaults a.finalTypes a.built.query a.built.mutation? a.built.subscription? = [] ↔
      ∀ kind name, a.rootName? kind = some name →
        References.Resolves a.finalTypes (· = .object) name := by
  obtain ⟨query, hsome⟩ := Option.isSome_iff_exists.mp hquery
  simp only [rootFaults, built, hsome, Option.getD_some, List.append_eq_nil_iff,
    List.flatMap_eq_nil_iff, References.rootFault_eq_nil_iff, Option.mem_toList]
  constructor
  · rintro ⟨⟨hquery, hmutation⟩, hsubscription⟩ kind name hname
    cases kind with
    | query =>
      obtain rfl := Option.some.inj (hsome.symm.trans hname)
      exact hquery
    | mutation => exact hmutation name hname
    | subscription => exact hsubscription name hname
  · intro h
    exact ⟨⟨h .query query hsome, h .mutation⟩, h .subscription⟩

/-- What is left to do once the extensions have been applied. -/
theorem build_of_extended {a : Assembly}
    (h : a.extensions.foldlM extend a.types = .ok a.finalTypes) {schema : Schema} :
    a.build = .ok schema ↔
      (a.rootName? .query).isSome = true ∧
        References.faults a.built.types a.built.directives = [] ∧
        rootFaults a.finalTypes a.built.query a.built.mutation? a.built.subscription? = [] ∧
        schema = a.built := by
  have hquery : (a.roots.query?.map (·.typeName)).or (defaultRoot? a.finalTypes "Query") =
      a.rootName? .query := rfl
  rw [build, h]
  simp only [bind, Except.bind, hquery]
  cases hname : a.rootName? .query with
  | none => simp [throw, throwThe, MonadExceptOf.throw]
  | some name =>
    simp only [pure, Except.pure, List.isEmpty_iff, List.append_eq_nil_iff, built, hname,
      Option.getD_some, Option.isSome_some, true_and]
    split_ifs with hfaults
    · obtain ⟨hreferences, hroots⟩ := hfaults
      simp only [Except.ok.injEq]
      constructor
      · rintro rfl
        exact ⟨hreferences, hroots, rfl⟩
      · rintro ⟨-, -, rfl⟩
        rfl
    · rw [false_iff]
      rintro ⟨hreferences, hroots, -⟩
      exact hfaults ⟨hreferences, hroots⟩

/-- Building succeeds if the extensions apply, there is a root type for queries, and no reference
is at fault. -/
theorem build_ok_iff {a : Assembly} {schema : Schema} (hnames : (a.types.map (·.name)).Nodup)
    (hclean : ∀ t ∈ a.types, t.body.Clean) :
    a.build = .ok schema ↔
      (Finds a.types a.extensions ∧ (∀ t ∈ a.finalTypes, t.body.Clean) ∧
        (a.rootName? .query).isSome = true ∧
        References.faults a.built.types a.built.directives = [] ∧
        ∀ kind name, a.rootName? kind = some name →
          References.Resolves a.finalTypes (· = .object) name) ∧
      schema = a.built := by
  constructor
  · intro h
    obtain ⟨types, htypes, -⟩ := bind_succeeds_iff.mp h
    obtain ⟨hfinds, hcleans, rfl⟩ := (extendAll_ok_iff hnames hclean).mp htypes
    obtain ⟨hquery, hfaults, hroots, rfl⟩ := (build_of_extended htypes).mp h
    exact ⟨⟨hfinds, List.forall_mem_map.mpr hcleans, hquery, hfaults,
      (rootFaults_built_eq_nil_iff hquery).mp hroots⟩, rfl⟩
  · rintro ⟨⟨hfinds, hcleans, hquery, hfaults, hroots⟩, rfl⟩
    have htypes : a.extensions.foldlM extend a.types = .ok a.finalTypes :=
      (extendAll_ok_iff hnames hclean).mpr
        ⟨hfinds, fun t ht => hcleans _ (List.mem_map_of_mem ht), rfl⟩
    exact (build_of_extended htypes).mpr
      ⟨hquery, hfaults, (rootFaults_built_eq_nil_iff hquery).mpr hroots, rfl⟩

end Assembly

end GraphQLCheck
