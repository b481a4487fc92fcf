import GraphQLCheck.Proofs.SchemaContents

/-!
# Parameters of fields and directives

The arguments that are written for a field or a directive are collected by name, and unlike fields,
values, members and types they are not checked for names that stand twice: a later argument silently
takes the place of an earlier one of its name. So a built schema has one parameter for each name
(`Sdl.Collected`), and it has all that were written exactly where no name is repeated. This holds of
every field, defined or added by an extension, and of every directive
(`Schema.parameters_collected`).
-/

namespace GraphQLCheck

open Assembly

/-! ### Fields and directives of a built schema -/

theorem TypeDefinition.field?_eq (t : TypeDefinition) (name : String) :
    t.field? name = t.body.fields.find? (·.name = name) := by
  obtain ⟨typeName, location, body⟩ := t
  cases body <;> rfl

namespace Assembly

variable {entries : List Entry} (hloose : Sdl.LooselyWellFormed (entries.map (·.2)))
include hloose

/-- A field that is written for a type is found in the schema. -/
theorem fieldOf?_built {e x : String × Sdl.TypeNode} (he : e ∈ sorted Sdl.Definition.type? entries)
    (hx : x ∈ ownEntries entries e) {node : Sdl.FieldNode} (hnode : node ∈ x.2.parts.fields) :
    (loaded entries).built.fieldOf? x.2.name node.name = some (fieldOf x.1 node) := by
  have ht : (typeOf e).extended (loaded entries).extensions ∈ (loaded entries).finalTypes :=
    mem_finalTypes_iff.mpr (.inr ⟨e, he, rfl⟩)
  have hname : e.2.name = x.2.name := by
    rcases List.mem_cons.mp hx with rfl | hx
    · rfl
    · exact (of_decide_eq_true (List.mem_filter.mp hx).2).symm
  have hmem : fieldOf x.1 node ∈
      ((typeOf e).extended (loaded entries).extensions).body.fields := by
    rw [part_extended (fitting_of_loose hloose he) TypeBody.fields_merge, List.mem_flatMap]
    refine ⟨x, hx, ?_⟩
    rw [TypeBody.fields_ofParts]
    exact List.mem_map_of_mem hnode
  rw [Schema.fieldOf?, (type?_built_eq_some_iff hloose).mpr ⟨ht, hname⟩, Option.bind_some,
    TypeDefinition.field?_eq]
  exact find?_of_nodup (clean_finalTypes hloose _ ht).fields hmem

/-- A directive that is written is found in the schema. -/
theorem directive?_built {e : String × Sdl.DirectiveNode}
    (he : e ∈ sorted Sdl.Definition.directive? entries) :
    (loaded entries).built.directive? e.2.name = some (directiveOf e) := by
  have hdefined : (loaded entries).directives.map (·.name) =
      (Sdl.directiveNodes (entries.map (·.2))).map (·.name) :=
    map_name_taking_directives Assembly.empty entries
  have hbuiltins : (DirectiveDefinition.builtins.map (·.name)).Nodup := by decide
  have hnames : ((loaded entries).built.directives.map (·.name)).Nodup := by
    rw [built, missingBuiltins_loaded hloose, List.map_append, hdefined]
    refine hloose.directiveNames.append hbuiltins ?_
    rw [List.disjoint_left, List.forall_mem_map]
    exact fun node hnode => (hloose.newDirectives node hnode).1
  have hmem : directiveOf e ∈ (loaded entries).built.directives :=
    List.mem_append_left _ (List.mem_map_of_mem he)
  exact find?_of_nodup hnames hmem

end Assembly

/-- The fields and directives of a schema have the parameters that are collected of what entries
write down for them. -/
structure Schema.CollectsParameters (s : Schema) (entries : List Entry) : Prop where
  /-- Fields of object types and interfaces, in definitions and extensions. -/
  fields : ∀ e ∈ sorted Sdl.Definition.type? entries ++ sorted Sdl.Definition.extension? entries,
    ∀ node ∈ e.2.parts.fields, ∃ f, s.fieldOf? e.2.name node.name = some f ∧
      Sdl.Collected e.1 node.parameters f.parameters
  /-- Directives. -/
  directives : ∀ e ∈ sorted Sdl.Definition.directive? entries,
    ∃ d, s.directive? e.2.name = some d ∧ Sdl.Collected e.1 e.2.parameters d.parameters

/-- In a built schema every field, defined or added, and every directive has one parameter for each
name among its arguments, the last one of the name. So it has as many parameters as arguments were
written for it, each with its own type and default, exactly if no name is repeated there. -/
theorem Schema.parameters_collected {files : List Sdl.File} {s : Schema} (h : s.MadeOf files) :
    s.CollectsParameters (files.flatMap Sdl.File.entries) := by
  obtain ⟨hloose, rfl⟩ := madeOf_iff.mp h
  rw [← map_snd_entries] at hloose
  constructor
  case fields =>
    intro x hx node hnode
    -- An extension is written for the type that it finds.
    have howner : ∃ e ∈ sorted Sdl.Definition.type? (files.flatMap Sdl.File.entries),
        x ∈ ownEntries (files.flatMap Sdl.File.entries) e := by
      rcases List.mem_append.mp hx with hx | hx
      · exact ⟨x, hx, List.mem_cons_self⟩
      · obtain ⟨e, he, hname, -⟩ :=
          finds_loaded_iff.mp (finds_loaded_iff_extensions.mpr hloose.extensions) x hx
        refine ⟨e, he, List.mem_cons_of_mem _ (List.mem_filter.mpr ⟨hx, ?_⟩)⟩
        simp [hname]
    obtain ⟨e, he, hown⟩ := howner
    exact ⟨_, fieldOf?_built hloose he hown hnode, collected_parametersOf x.1 node.parameters⟩
  case directives =>
    intro e he
    exact ⟨_, directive?_built hloose he, collected_parametersOf e.1 e.2.parameters⟩

/-- A file that repeats an argument of a field and one of a directive, and none of the field that its
extension adds. -/
def repeatingFile : Sdl.File where
  name := "repeating"
  definitions :=
    [.type ⟨⟨1, 1⟩, "Query", .object []
        [⟨⟨1, 14⟩, "f", [⟨⟨1, 16⟩, "a", .named "Int" true, none⟩,
          ⟨⟨1, 24⟩, "b", .named "Int" true, none⟩, ⟨⟨1, 32⟩, "a", .named "String" true, none⟩],
          .named "Int" true, []⟩]⟩,
      .extension ⟨⟨2, 8⟩, "Query", .object []
        [⟨⟨2, 21⟩, "g", [⟨⟨2, 23⟩, "a", .named "Int" true, none⟩,
          ⟨⟨2, 31⟩, "b", .named "Int" false, none⟩], .named "Int" true, []⟩]⟩,
      .directive ⟨⟨3, 1⟩, "d", [⟨⟨3, 14⟩, "x", .named "Int" true, none⟩,
        ⟨⟨3, 22⟩, "x", .named "Float" true, none⟩], false, [.field]⟩]

/-- The schema of the file. -/
def repeatingSchema : Schema := (loaded ([repeatingFile].flatMap Sdl.File.entries)).built

theorem madeOf_repeatingSchema : repeatingSchema.MadeOf [repeatingFile] :=
  Schema.madeOf_iff.mpr ⟨by decide, rfl⟩

/-- The parameters of a file with repeated and with different names. -/
theorem Schema.parameters_collected_repeating :
    repeatingSchema.MadeOf [repeatingFile] ∧
      repeatingSchema.CollectsParameters ([repeatingFile].flatMap Sdl.File.entries) ∧
      (repeatingSchema.fieldOf? "Query" "g").map (·.parameters.map (·.name)) = some ["a", "b"] :=
  ⟨madeOf_repeatingSchema, parameters_collected madeOf_repeatingSchema, by decide⟩

/-- Repeated arguments make nothing fail: three were written for the field, and two are left, the
first one with the type of the third; of the two of the directive one is left. -/
theorem Schema.repeated_arguments_swallowed :
    repeatingSchema.MadeOf [repeatingFile] ∧
      (repeatingSchema.fieldOf? "Query" "f").map (·.parameters.map fun p => (p.name, p.type)) =
        some [("a", .named "String" true), ("b", .named "Int" true)] ∧
      (repeatingSchema.directive? "d").map (·.parameters.map fun p => (p.name, p.type)) =
        some [("x", .named "Float" true)] :=
  ⟨madeOf_repeatingSchema, by decide, by decide⟩

end GraphQLCheck
