import GraphQLCheck.Proofs.Assembling.Building
import GraphQLCheck.Proofs.Assembling.Sources

/-!
# Which schema texts are accepted

Files of definitions that are loaded in order and built make up a schema if the definitions in them,
taken together, are well-formed (`Sdl.WellFormed`), and only if they are so but for arguments that
others replace (`Sdl.LooselyWellFormed`). The checks of loading, of extending and of building are
each an equivalence; here they are put together and read as conditions on the definitions.
-/

namespace GraphQLCheck

namespace Assembly

/-! ### Parameters -/

theorem mem_putParameter_iff {parameters : List InputValue} {p x : InputValue} :
    x ∈ putParameter parameters p ↔ (x ∈ parameters ∧ x.name ≠ p.name) ∨ x = p := by
  unfold putParameter
  split_ifs with hany
  · simp only [List.any_eq_true, decide_eq_true_eq] at hany
    obtain ⟨q, hq, hname⟩ := hany
    rw [List.mem_map]
    constructor
    · rintro ⟨y, hy, rfl⟩
      by_cases h : y.name = p.name
      · simp [h]
      · simp [h, hy]
    · rintro (⟨hx, hne⟩ | rfl)
      · exact ⟨x, hx, if_neg hne⟩
      · exact ⟨q, hq, if_pos hname⟩
  · simp only [List.any_eq_true, decide_eq_true_eq, not_exists, not_and] at hany
    rw [List.mem_append, List.mem_singleton]
    refine or_congr_left ⟨fun hx => ⟨hx, hany x hx⟩, And.left⟩

/-- Of several parameters with one name the last one is kept. -/
theorem mem_parametersOf_iff {file : String} {nodes : List Sdl.InputValueNode} {x : InputValue} :
    x ∈ parametersOf file nodes ↔ ∃ p ∈ Sdl.counted nodes, inputValueOf file p = x := by
  have hfold (parameters : List InputValue) :
      x ∈ (nodes.map (inputValueOf file)).foldl putParameter parameters ↔
        (x ∈ parameters ∧ x.name ∉ nodes.map (·.name)) ∨
          ∃ p ∈ Sdl.counted nodes, inputValueOf file p = x := by
    induction nodes generalizing parameters with
    | nil => simp [Sdl.counted]
    | cons p nodes ih =>
      have hname : (inputValueOf file p).name = p.name := rfl
      rw [List.map_cons, List.foldl_cons, ih, mem_putParameter_iff, Sdl.counted, hname,
        List.map_cons]
      by_cases hmem : p.name ∈ nodes.map (·.name)
      · -- A later parameter takes the place of this one.
        grind
      · grind
  rw [parametersOf, hfold]
  simp

/-! ### What has been loaded -/

/-- What has been loaded when entries have been taken up. -/
def loaded (entries : List Entry) : Assembly := Assembly.empty.taking entries

theorem admits_empty_iff {definitions : List Sdl.Definition} :
    Assembly.empty.Admits definitions ↔
      (∀ node ∈ Sdl.typeNodes definitions,
        isReserved node.name = false ∧ node.parts ≠ .enum [] ∧ Sdl.Distinct [node.parts]) ∧
      (((Sdl.typeNodes definitions).map (·.name)).Nodup ∧
        ∀ node ∈ Sdl.typeNodes definitions, node.name ∉ BuiltinScalar.all.map (·.name)) ∧
      (∀ node ∈ Sdl.directiveNodes definitions,
        node.name ∉ DirectiveDefinition.builtins.map (·.name) ∧ isReserved node.name = false) ∧
      ((Sdl.directiveNodes definitions).map (·.name)).Nodup ∧
      (∀ kind, (Sdl.rootNames definitions kind).length ≤ 1) ∧
      Roots.Apart (Sdl.rootNames definitions) := by
  have hbuiltins : Assembly.empty.types.map (·.name) = BuiltinScalar.all.map (·.name) := rfl
  have hnodup : (BuiltinScalar.all.map (·.name)).Nodup := by decide
  have hroots (kind : OperationKind) : Assembly.empty.roots.names kind = [] := by
    cases kind <;> rfl
  have hdirectives : Assembly.empty.directives = [] := rfl
  have hnew : ((BuiltinScalar.all.map (·.name)).Disjoint
      ((Sdl.typeNodes definitions).map (·.name))) ↔
        ∀ node ∈ Sdl.typeNodes definitions, node.name ∉ BuiltinScalar.all.map (·.name) := by
    rw [List.disjoint_comm, List.disjoint_left, List.forall_mem_map]
  rw [admits_iff, hbuiltins, hdirectives, List.nodup_append', hnew]
  simp only [hroots, List.map_nil, List.nil_append, hnodup, true_and]

theorem forall_mem_sorted_iff {α : Type} {choose : Sdl.Definition → Option α}
    {entries : List Entry} {P : α → Prop} :
    (∀ e ∈ sorted choose entries, P e.2) ↔ ∀ a ∈ (entries.map (·.2)).filterMap choose, P a := by
  rw [← map_snd_sorted, List.forall_mem_map]

theorem exists_mem_sorted_iff {α : Type} {choose : Sdl.Definition → Option α}
    {entries : List Entry} {P : α → Prop} :
    (∃ e ∈ sorted choose entries, P e.2) ↔ ∃ a ∈ (entries.map (·.2)).filterMap choose, P a := by
  simp only [← map_snd_sorted, List.mem_map, exists_exists_and_eq_and]

variable {entries : List Entry}

theorem types_loaded : (loaded entries).types =
    BuiltinScalar.all.map (·.definition) ++ (sorted Sdl.Definition.type? entries).map typeOf := rfl

theorem extensions_loaded :
    (loaded entries).extensions = sorted Sdl.Definition.extension? entries := rfl

theorem kind_typeOf (e : String × Sdl.TypeNode) : (typeOf e).kind = kindOf e.2.parts := by
  rw [TypeDefinition.kind_eq]
  exact TypeBody.kind_ofParts _ _

/-- A defined type takes the parts of its kind. -/
theorem takes_typeOf_iff {e : String × Sdl.TypeNode} {parts : Sdl.TypeParts} :
    (typeOf e).body.Takes parts ↔ kindOf e.2.parts = kindOf parts := by
  have hbuiltin (scalar : BuiltinScalar) : (typeOf e).body ≠ .builtin scalar := by
    intro h
    simp only [typeOf] at h
    cases hparts : e.2.parts <;> rw [hparts] at h <;> cases h
  rw [TypeBody.Takes, ← TypeDefinition.kind_eq, kind_typeOf]
  exact and_iff_left hbuiltin

/-- Only a defined type can be extended. -/
theorem finds_loaded_iff : Finds (loaded entries).types (loaded entries).extensions ↔
    ∀ e ∈ sorted Sdl.Definition.extension? entries,
      ∃ d ∈ sorted Sdl.Definition.type? entries,
        d.2.name = e.2.name ∧ kindOf d.2.parts = kindOf e.2.parts := by
  have hbuiltin {parts : Sdl.TypeParts} {scalar : BuiltinScalar} :
      ¬ scalar.definition.body.Takes parts := fun h => h.2 scalar rfl
  rw [Finds, extensions_loaded, types_loaded]
  refine forall₂_congr fun e _ => ?_
  simp only [List.mem_append, or_and_right, exists_or, List.mem_map, exists_exists_and_eq_and,
    hbuiltin, and_false, exists_false, false_or, takes_typeOf_iff]
  rfl

theorem finds_loaded_iff_extensions :
    Finds (loaded entries).types (loaded entries).extensions ↔
      ∀ extension ∈ Sdl.extensionNodes (entries.map (·.2)),
        ∃ node ∈ Sdl.typeNodes (entries.map (·.2)),
          node.name = extension.name ∧ kindOf node.parts = kindOf extension.parts := by
  rw [finds_loaded_iff, Sdl.extensionNodes, Sdl.typeNodes, ← forall_mem_sorted_iff]
  refine forall₂_congr fun e _ => ?_
  rw [← exists_mem_sorted_iff]

/-! ### References in what has been loaded -/

section Names

variable (hnames : ((loaded entries).types.map (·.name)).Nodup)
include hnames

theorem resolves_loaded_iff {allowed : TypeKind → Bool} {name : String} :
    References.Resolves (loaded entries).finalTypes allowed name ↔
      Sdl.Names (entries.map (·.2)) allowed name := by
  have hfinal : ((loaded entries).finalTypes.map (·.name)).Nodup := by
    simpa [finalTypes, List.map_map, Function.comp_def] using hnames
  have hmem : References.Resolves (loaded entries).finalTypes allowed name ↔
      ∃ t ∈ (loaded entries).types, t.name = name ∧ allowed t.kind = true := by
    simp only [References.Resolves, References.find?_eq_some_iff hfinal, and_assoc]
    simp only [finalTypes, List.mem_map, exists_exists_and_eq_and, TypeDefinition.name_extended,
      TypeDefinition.kind_extended]
  rw [hmem, types_loaded, Sdl.Names, Sdl.typeNodes, ← exists_mem_sorted_iff]
  simp only [List.mem_append, or_and_right, exists_or, List.mem_map, exists_exists_and_eq_and,
    kind_typeOf]
  refine or_congr ?_ Iff.rfl
  constructor
  · rintro ⟨scalar, hscalar, rfl, hallowed⟩
    exact ⟨⟨scalar, hscalar, rfl⟩, hallowed⟩
  · rintro ⟨⟨scalar, hscalar, rfl⟩, hallowed⟩
    exact ⟨scalar, hscalar, rfl, hallowed⟩

theorem bears_ofParts_iff {file : String} {parts : Sdl.TypeParts} :
    References.Bears (loaded entries).finalTypes (.ofParts file parts) ↔
      Sdl.Resolved (entries.map (·.2)) parts ∧ ∀ f ∈ parts.fields, ∀ p ∈ Sdl.counted f.parameters,
        Sdl.Names (entries.map (·.2)) TypeKind.isInput p.type.innermost := by
  simp only [References.bears_iff, Sdl.resolved_iff, resolves_loaded_iff hnames,
    TypeBody.interfaces_ofParts, TypeBody.members_ofParts, TypeBody.fields_ofParts,
    TypeBody.inputFields_ofParts, List.forall_mem_map, fieldOf, mem_parametersOf_iff,
    forall_exists_index, and_imp, forall_apply_eq_imp_iff₂, inputValueOf]
  tauto

/-- The types that builtin directives mention are builtin. -/
theorem resolves_builtin_parameter {d : DirectiveDefinition} {p : InputValue}
    (hd : d ∈ DirectiveDefinition.builtins) (hp : p ∈ d.parameters) :
    References.Resolves (loaded entries).finalTypes TypeKind.isInput p.type.innermost := by
  rw [resolves_loaded_iff hnames]
  refine .inl ⟨?_, rfl⟩
  have hall : ∀ d ∈ DirectiveDefinition.builtins, ∀ p ∈ d.parameters,
      p.type.innermost ∈ BuiltinScalar.all.map (·.name) := by decide
  exact hall d hd p hp

theorem directives_resolved_iff :
    (∀ d ∈ (loaded entries).built.directives, ∀ p ∈ d.parameters,
      References.Resolves (loaded entries).finalTypes TypeKind.isInput p.type.innermost) ↔
    ∀ node ∈ Sdl.directiveNodes (entries.map (·.2)), ∀ p ∈ Sdl.counted node.parameters,
      Sdl.Names (entries.map (·.2)) TypeKind.isInput p.type.innermost := by
  have hdirectives : (loaded entries).directives =
      (sorted Sdl.Definition.directive? entries).map directiveOf := rfl
  have hbuiltins : ∀ d ∈ missingBuiltins (loaded entries).directives, ∀ p ∈ d.parameters,
      References.Resolves (loaded entries).finalTypes TypeKind.isInput p.type.innermost :=
    fun d hd p hp => resolves_builtin_parameter hnames (List.mem_of_mem_filter hd) hp
  rw [built, List.forall_mem_append, and_iff_left hbuiltins, hdirectives, List.forall_mem_map,
    Sdl.directiveNodes, ← forall_mem_sorted_iff]
  simp only [directiveOf, mem_parametersOf_iff, forall_exists_index, and_imp,
    forall_apply_eq_imp_iff₂, resolves_loaded_iff hnames, inputValueOf]

end Names

/-! ### What a type is given -/

/-- The definition of a type with its extensions. -/
def ownEntries (entries : List Entry) (e : String × Sdl.TypeNode) : List (String × Sdl.TypeNode) :=
  e :: (loaded entries).extensions.filter (·.2.name = e.2.name)

theorem given_eq_map_ownEntries (e : String × Sdl.TypeNode) :
    e.2.given (entries.map (·.2)) = (ownEntries entries e).map (·.2.parts) := by
  rw [Sdl.TypeNode.given, Sdl.extensionNodes, ← map_snd_sorted, List.filter_map, List.map_map]
  rfl

section Fitting

variable {e : String × Sdl.TypeNode} (hfit : (typeOf e).Fitting (loaded entries).extensions)
include hfit

theorem part_extended {α : Type} {part : TypeBody → List α}
    (hpart : ∀ {body other : TypeBody}, body.kind = other.kind →
      part (body.merge other) = part body ++ part other) :
    part ((typeOf e).extended (loaded entries).extensions).body =
      (ownEntries entries e).flatMap fun x => part (.ofParts x.1 x.2.parts) := by
  have hpieces : (typeOf e).body :: TypeDefinition.pieces (loaded entries).extensions e.2.name =
      (ownEntries entries e).map fun x => .ofParts x.1 x.2.parts := rfl
  rw [TypeDefinition.body_extended, TypeBody.foldl_merge_eq hpart hfit,
    show (typeOf e).name = e.2.name from rfl, hpieces, List.flatMap_map]

theorem clean_extended_iff :
    ((typeOf e).extended (loaded entries).extensions).body.Clean ↔
      Sdl.Distinct (e.2.given (entries.map (·.2))) := by
  rw [given_eq_map_ownEntries, TypeBody.clean_iff, Sdl.distinct_iff,
    part_extended hfit TypeBody.fields_merge, part_extended hfit TypeBody.interfaces_merge,
    part_extended hfit TypeBody.members_merge, part_extended hfit TypeBody.values_merge,
    part_extended hfit TypeBody.inputFields_merge]
  simp only [List.flatMap_map, List.map_flatMap, TypeBody.fields_ofParts,
    TypeBody.interfaces_ofParts, TypeBody.members_ofParts, TypeBody.values_ofParts,
    TypeBody.inputFields_ofParts, List.map_map, Function.comp_def, fieldOf, enumValueOf,
    inputValueOf, List.forall_mem_flatMap, List.forall_mem_map]

theorem bears_extended_iff {types : List TypeDefinition} :
    References.Bears types ((typeOf e).extended (loaded entries).extensions).body ↔
      ∀ x ∈ ownEntries entries e, References.Bears types (.ofParts x.1 x.2.parts) := by
  simp only [References.bears_iff, part_extended hfit TypeBody.fields_merge,
    part_extended hfit TypeBody.interfaces_merge, part_extended hfit TypeBody.members_merge,
    part_extended hfit TypeBody.inputFields_merge, List.forall_mem_flatMap, forall_and]

end Fitting

theorem body_extended_builtin (scalar : BuiltinScalar) (extensions : List (String × Sdl.TypeNode)) :
    (scalar.definition.extended extensions).body = .builtin scalar := by
  rw [TypeDefinition.body_extended]
  induction TypeDefinition.pieces extensions scalar.definition.name with
  | nil => rfl
  | cons piece pieces ih => exact ih

/-- What holds of builtin scalars anyway is to be shown of the defined types. -/
theorem forall_finalTypes_iff {P : TypeBody → Prop} (hbuiltin : ∀ scalar, P (.builtin scalar)) :
    (∀ t ∈ (loaded entries).finalTypes, P t.body) ↔
      ∀ e ∈ sorted Sdl.Definition.type? entries,
        P ((typeOf e).extended (loaded entries).extensions).body := by
  rw [finalTypes, List.forall_mem_map, types_loaded, List.forall_mem_append, List.forall_mem_map,
    List.forall_mem_map]
  refine and_iff_right fun scalar _ => ?_
  rw [body_extended_builtin]
  exact hbuiltin scalar

section Finds

variable (hnames : ((loaded entries).types.map (·.name)).Nodup)
  (hfinds : Finds (loaded entries).types (loaded entries).extensions)
include hnames hfinds

theorem fitting_typeOf {e : String × Sdl.TypeNode}
    (he : e ∈ sorted Sdl.Definition.type? entries) :
    (typeOf e).Fitting (loaded entries).extensions := by
  refine hfinds.fitting hnames ?_
  rw [types_loaded]
  exact List.mem_append_right _ (List.mem_map_of_mem he)

theorem finalTypes_clean_iff : (∀ t ∈ (loaded entries).finalTypes, t.body.Clean) ↔
    ∀ node ∈ Sdl.typeNodes (entries.map (·.2)), Sdl.Distinct (node.given (entries.map (·.2))) := by
  rw [forall_finalTypes_iff TypeBody.clean_builtin, Sdl.typeNodes, ← forall_mem_sorted_iff]
  exact forall₂_congr fun e he => clean_extended_iff (fitting_typeOf hnames hfinds he)

theorem finalTypes_bear_iff :
    (∀ t ∈ (loaded entries).finalTypes,
      References.Bears (loaded entries).finalTypes t.body) ↔
    ∀ node ∈ Sdl.typeNodes (entries.map (·.2)) ++ Sdl.extensionNodes (entries.map (·.2)),
      Sdl.Resolved (entries.map (·.2)) node.parts ∧
        ∀ f ∈ node.parts.fields, ∀ p ∈ Sdl.counted f.parameters,
          Sdl.Names (entries.map (·.2)) TypeKind.isInput p.type.innermost := by
  have hbuiltin (scalar : BuiltinScalar) :
      References.Bears (loaded entries).finalTypes (.builtin scalar) := by
    simp [References.bears_iff, TypeBody.fields, TypeBody.interfaces, TypeBody.members,
      TypeBody.inputFields]
  have hpieces : (∀ t ∈ (loaded entries).finalTypes,
      References.Bears (loaded entries).finalTypes t.body) ↔
      ∀ e ∈ sorted Sdl.Definition.type? entries, ∀ x ∈ ownEntries entries e,
        Sdl.Resolved (entries.map (·.2)) x.2.parts ∧
          ∀ f ∈ x.2.parts.fields, ∀ p ∈ Sdl.counted f.parameters,
            Sdl.Names (entries.map (·.2)) TypeKind.isInput p.type.innermost := by
    rw [forall_finalTypes_iff hbuiltin]
    refine forall₂_congr fun e he => ?_
    rw [bears_extended_iff (fitting_typeOf hnames hfinds he)]
    exact forall₂_congr fun x _ => bears_ofParts_iff hnames
  rw [hpieces, List.forall_mem_append, Sdl.typeNodes, Sdl.extensionNodes, ← forall_mem_sorted_iff,
    ← forall_mem_sorted_iff]
  constructor
  · intro h
    refine ⟨fun e he => h e he e List.mem_cons_self, fun x hx => ?_⟩
    -- An extension is among the pieces of the type that it finds.
    obtain ⟨e, he, hname, -⟩ := finds_loaded_iff.mp hfinds x hx
    refine h e he x (List.mem_cons_of_mem _ (List.mem_filter.mpr ⟨hx, ?_⟩))
    simp [hname]
  · rintro ⟨htypes, hextensions⟩ e he x hx
    rcases List.mem_cons.mp hx with rfl | hx
    · exact htypes x he
    · exact hextensions x (List.mem_of_mem_filter hx)

end Finds

/-! ### Root types of what has been loaded -/

theorem map_typeName_get_loaded (kind : OperationKind) :
    ((loaded entries).roots.get kind).map (·.typeName) =
      (Sdl.rootNames (entries.map (·.2)) kind).head? := by
  have hget : (loaded entries).roots.get kind =
      ((sorted Sdl.Definition.roots? entries).filterMap (rootOf? kind)).head? := by
    cases kind <;> rfl
  rw [hget, ← List.head?_map, map_typeName_rootOf?]

theorem defaultRoot?_eq_some_iff {types : List TypeDefinition} {name other : String} :
    defaultRoot? types name = some other ↔
      References.Resolves types (· = .object) name ∧ other = name := by
  unfold defaultRoot? References.Resolves
  cases References.find? types name with
  | none => simp
  | some t =>
    by_cases h : t.kind = .object
    · simpa [TypeDefinition.isObject, h] using eq_comm
    · simp [TypeDefinition.isObject, h]

/-- The root type of a kind is the one that is named, or the one of the default name. -/
theorem rootName?_loaded_eq_some_iff {kind : OperationKind} {name : String} :
    (loaded entries).rootName? kind = some name ↔
      (Sdl.rootNames (entries.map (·.2)) kind).head? = some name ∨
        Sdl.rootNames (entries.map (·.2)) kind = [] ∧
          References.Resolves (loaded entries).finalTypes (· = .object) kind.render ∧
          name = kind.render := by
  rw [rootName?, map_typeName_get_loaded, Option.or_eq_some_iff, List.head?_eq_none_iff,
    defaultRoot?_eq_some_iff]

theorem query_loaded_iff (hnames : ((loaded entries).types.map (·.name)).Nodup) :
    ((loaded entries).rootName? .query).isSome = true ↔
      Sdl.rootNames (entries.map (·.2)) .query ≠ [] ∨
        Sdl.Names (entries.map (·.2)) (· = .object) "Query" := by
  rw [Option.isSome_iff_exists, ← resolves_loaded_iff hnames]
  simp only [rootName?_loaded_eq_some_iff]
  cases hroots : Sdl.rootNames (entries.map (·.2)) .query with
  | nil => simp [OperationKind.render]
  | cons name others => simp

theorem roots_loaded_iff (hnames : ((loaded entries).types.map (·.name)).Nodup)
    (honce : ∀ kind, (Sdl.rootNames (entries.map (·.2)) kind).length ≤ 1) :
    (∀ kind name, (loaded entries).rootName? kind = some name →
      References.Resolves (loaded entries).finalTypes (· = .object) name) ↔
    ∀ kind, ∀ name ∈ Sdl.rootNames (entries.map (·.2)) kind,
      Sdl.Names (entries.map (·.2)) (· = .object) name := by
  have hhead (kind : OperationKind) (name : String) :
      (Sdl.rootNames (entries.map (·.2)) kind).head? = some name ↔
        name ∈ Sdl.rootNames (entries.map (·.2)) kind := by
    rw [← Option.mem_toList, toList_head?_of_length_le (honce kind)]
  simp only [rootName?_loaded_eq_some_iff, hhead, ← resolves_loaded_iff hnames]
  constructor
  · intro h kind name hname
    exact h kind name (.inl hname)
  · rintro h kind name (hname | ⟨-, hdefault, rfl⟩)
    · exact h kind name hname
    · exact hdefault

/-! ### Acceptance -/

theorem distinct_of_given {definitions : List Sdl.Definition} {node : Sdl.TypeNode}
    (h : Sdl.Distinct (node.given definitions)) : Sdl.Distinct [node.parts] := by
  obtain ⟨hfields, hreserved, hinterfaces, hmembers, hvalues, hinputFields⟩ := h
  simp only [Sdl.TypeNode.given, List.flatMap_cons, List.map_append, List.forall_mem_append]
    at hfields hreserved hinterfaces hmembers hvalues hinputFields
  constructor <;> simp only [List.flatMap_cons, List.flatMap_nil, List.append_nil]
  · exact hfields.of_append_left
  · exact hreserved.1
  · exact hinterfaces.of_append_left
  · exact hmembers.of_append_left
  · exact hvalues.of_append_left
  · exact hinputFields.of_append_left

section Admitted

variable (hadmits : Assembly.empty.Admits (entries.map (·.2)))
include hadmits

theorem nodup_types_loaded : ((loaded entries).types.map (·.name)).Nodup := by
  rw [loaded, map_name_taking_types]
  exact hadmits.typeNames

theorem clean_types_loaded : ∀ t ∈ (loaded entries).types, t.body.Clean := by
  rw [types_loaded, List.forall_mem_append, List.forall_mem_map, List.forall_mem_map]
  refine ⟨fun scalar _ => TypeBody.clean_builtin scalar, fun e he => ?_⟩
  have hdistinct := (forall_mem_sorted_iff.mpr hadmits.types) e he
  exact clean_ofParts_iff.mpr hdistinct.2.2

/-- What has been loaded can be built if the definitions satisfy the conditions that concern them
together. -/
theorem build_loaded_iff {schema : Schema} :
    (loaded entries).build = .ok schema ↔
      Sdl.LooselyWellFormed (entries.map (·.2)) ∧ schema = (loaded entries).built := by
  have hnames := nodup_types_loaded hadmits
  obtain ⟨htypes, ⟨htypeNames, hnewTypes⟩, hnewDirectives, hdirectiveNames, honce, hapart⟩ :=
    admits_empty_iff.mp hadmits
  have hbuilt : (loaded entries).built.types = (loaded entries).finalTypes := rfl
  rw [build_ok_iff hnames (clean_types_loaded hadmits), finds_loaded_iff_extensions,
    query_loaded_iff hnames, roots_loaded_iff hnames honce, References.faults_eq_nil_iff, hbuilt,
    directives_resolved_iff hnames, Sdl.looselyWellFormed_iff, Sdl.forall_parameterLists_iff]
  refine and_congr_left fun _ => ?_
  constructor
  · rintro ⟨hextensions, hclean, hquery, ⟨hbear, hparameters⟩, hroots⟩
    have hfinds := finds_loaded_iff_extensions.mpr hextensions
    have hresolved := (finalTypes_bear_iff hnames hfinds).mp hbear
    refine ⟨?_, fun node hnode => (hresolved node hnode).2, hparameters⟩
    constructor
    case typeNames => exact htypeNames
    case newTypes => exact fun node hnode => ⟨hnewTypes node hnode, (htypes node hnode).1⟩
    case enums => exact fun node hnode => (htypes node hnode).2.1
    case distinct => exact (finalTypes_clean_iff hnames hfinds).mp hclean
    case extensions => exact hextensions
    case directiveNames => exact hdirectiveNames
    case newDirectives => exact hnewDirectives
    case rootsOnce => exact honce
    case rootsApart => exact hapart
    case query => exact hquery
    case roots => exact hroots
    case resolved => exact fun node hnode => (hresolved node hnode).1
  · rintro ⟨h, hfields, hdirectives⟩
    have hfinds := finds_loaded_iff_extensions.mpr h.extensions
    have hbear := (finalTypes_bear_iff hnames hfinds).mpr fun node hnode =>
      ⟨h.resolved node hnode, hfields node hnode⟩
    exact ⟨h.extensions, (finalTypes_clean_iff hnames hfinds).mpr h.distinct, h.query,
      ⟨hbear, hdirectives⟩, h.roots⟩

end Admitted

/-- Definitions that fit together can be taken up. -/
theorem admits_of_consistent {definitions : List Sdl.Definition}
    (h : Sdl.Consistent definitions) : Assembly.empty.Admits definitions := by
  refine admits_empty_iff.mpr ⟨fun node hnode => ?_, ⟨h.typeNames, fun node hnode => ?_⟩,
    h.newDirectives, h.directiveNames, h.rootsOnce, h.rootsApart⟩
  · exact ⟨(h.newTypes node hnode).2, h.enums node hnode, distinct_of_given (h.distinct node hnode)⟩
  · exact (h.newTypes node hnode).1

end Assembly

namespace Schema

theorem map_snd_entries (files : List Sdl.File) :
    (files.flatMap Sdl.File.entries).map (·.2) = files.flatMap (·.definitions) := by
  simp [List.map_flatMap, Sdl.File.entries, Function.comp_def]

/-- Files make up a schema if their definitions are loosely well-formed, and the schema is the one
that is built of all of them. -/
theorem ofFiles_eq_ok_iff {files : List Sdl.File} {schema : Schema} :
    ofFiles files = .ok schema ↔
      Sdl.LooselyWellFormed (files.flatMap (·.definitions)) ∧
        schema = (Assembly.loaded (files.flatMap Sdl.File.entries)).built := by
  have hempty : Assembly.empty.Admits [] := by simp [Assembly.admits_empty_iff, Roots.Apart,
    Sdl.typeNodes, Sdl.directiveNodes, Sdl.rootNames]
  rw [ofFiles, bind_succeeds_iff, Assembly.addFiles_eq_foldlM, ← map_snd_entries]
  simp only [Assembly.addAll_ok_iff hempty]
  constructor
  · rintro ⟨a, ⟨hadmits, rfl⟩, hbuild⟩
    exact (Assembly.build_loaded_iff hadmits).mp hbuild
  · rintro ⟨hloose, hschema⟩
    have hadmits := Assembly.admits_of_consistent hloose.toConsistent
    exact ⟨_, ⟨hadmits, rfl⟩, (Assembly.build_loaded_iff hadmits).mpr ⟨hloose, hschema⟩⟩

/-- The schema is what files make up, loaded in order as they are or read of sources. -/
def MadeOf (s : Schema) (files : List Sdl.File) : Prop :=
  ofFiles files = .ok s ∨
    ∃ w sources, Source.readAll? w 0 sources = some files ∧ (ofSources w sources).1 = .ok s

theorem madeOf_iff {files : List Sdl.File} {s : Schema} :
    s.MadeOf files ↔
      Sdl.LooselyWellFormed (files.flatMap (·.definitions)) ∧
        s = (Assembly.loaded (files.flatMap Sdl.File.entries)).built := by
  rw [MadeOf, ← ofFiles_eq_ok_iff]
  constructor
  · rintro (h | ⟨w, sources, hread, h⟩)
    · exact h
    · obtain ⟨others, hothers, hschema⟩ := ofSources_eq_ok_iff.mp h
      obtain rfl := Option.some.inj (hread.symm.trans hothers)
      exact hschema
  · exact .inl

theorem exists_ofFiles_iff (files : List Sdl.File) :
    (∃ schema, ofFiles files = .ok schema) ↔
      Sdl.LooselyWellFormed (files.flatMap (·.definitions)) := by
  simp only [ofFiles_eq_ok_iff, exists_and_left, exists_eq, and_true]

/-- Files that are loaded in order make up a schema exactly if the definitions in them, taken
together, are well-formed but for arguments that a later one of their name replaces. So they do if
the definitions are well-formed, and where no list of arguments repeats a name only then. Sources do
so exactly if all of them can be read and what was read satisfies the same condition. -/
theorem builds_iff_wellFormed (files : List Sdl.File) (w : Workspace) (sources : List Source) :
    ((∃ schema, ofFiles files = .ok schema) ↔
      Sdl.LooselyWellFormed (files.flatMap (·.definitions))) ∧
    (Sdl.WellFormed (files.flatMap (·.definitions)) → ∃ schema, ofFiles files = .ok schema) ∧
    (Sdl.UnrepeatedParameters (files.flatMap (·.definitions)) →
      ((∃ schema, ofFiles files = .ok schema) ↔
        Sdl.WellFormed (files.flatMap (·.definitions)))) ∧
    ((∃ schema, (ofSources w sources).1 = .ok schema) ↔
      ∃ files, Source.readAll? w 0 sources = some files ∧
        Sdl.LooselyWellFormed (files.flatMap (·.definitions))) := by
  refine ⟨exists_ofFiles_iff files, fun hwell => ?_, fun hunrepeated => ?_, ?_⟩
  · exact (exists_ofFiles_iff files).mpr hwell.loosely
  · rw [exists_ofFiles_iff, Sdl.looselyWellFormed_iff_wellFormed hunrepeated]
  · simp only [ofSources_eq_ok_iff, ← exists_ofFiles_iff]
    constructor
    · rintro ⟨schema, files, hread, hschema⟩
      exact ⟨files, hread, schema, hschema⟩
    · rintro ⟨files, hread, schema, hschema⟩
      exact ⟨schema, files, hread, hschema⟩

/-- A file with a root type of queries, whose field has given arguments. -/
def queryFile (parameters : List Sdl.InputValueNode) : Sdl.File where
  name := "query"
  definitions :=
    [.type ⟨⟨1, 1⟩, "Query",
      .object [] [⟨⟨1, 14⟩, "f", parameters, .named "Int" true, []⟩]⟩]

/-- The file of the text `type Query { f(a: Int, b: String): Int }`. -/
def distinctArgumentsFile : Sdl.File :=
  queryFile [⟨⟨1, 16⟩, "a", .named "Int" true, none⟩, ⟨⟨1, 24⟩, "b", .named "String" true, none⟩]

/-- A field with two arguments of different names and of builtin types makes up a schema. -/
theorem builds_distinct_arguments :
    Sdl.UnrepeatedParameters ([distinctArgumentsFile].flatMap (·.definitions)) ∧
      Sdl.WellFormed ([distinctArgumentsFile].flatMap (·.definitions)) ∧
      ∃ schema, ofFiles [distinctArgumentsFile] = .ok schema := by
  have hunrepeated : Sdl.UnrepeatedParameters
      ([distinctArgumentsFile].flatMap (·.definitions)) := by decide
  have hwell : Sdl.WellFormed ([distinctArgumentsFile].flatMap (·.definitions)) := by decide
  obtain ⟨-, -, hiff, -⟩ := builds_iff_wellFormed [distinctArgumentsFile] .empty []
  exact ⟨hunrepeated, hwell, (hiff hunrepeated).mpr hwell⟩

/-- The file of the text `type Query { f(a: Nope, a: Int): Int }`. -/
def replacedArgumentFile : Sdl.File :=
  queryFile [⟨⟨1, 16⟩, "a", .named "Nope" true, none⟩, ⟨⟨1, 25⟩, "a", .named "Int" true, none⟩]

/-- A type that is not defined goes unnoticed at an argument that a later one of its name replaces:
the file makes up a schema, although its definitions are not well-formed. -/
theorem undefined_type_of_replaced_argument :
    (∃ schema, ofFiles [replacedArgumentFile] = .ok schema) ∧
      ¬ Sdl.WellFormed ([replacedArgumentFile].flatMap (·.definitions)) :=
  ⟨(exists_ofFiles_iff _).mpr (by decide), by decide⟩

end Schema

end GraphQLCheck
