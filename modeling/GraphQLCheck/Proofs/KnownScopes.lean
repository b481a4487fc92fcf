import GraphQLCheck.Proofs.BuiltSchemas
import GraphQLCheck.Proofs.Sets
import GraphQLCheck.Proofs.SilentRules

/-!
# Nothing is skipped in silence

Most rules have nothing to say where the scope is not known, and leave it to other rules to report
the cause. Here it is shown that some rule always does: if a run with all rules is silent, then
every field is selected from a known composite type and has a definition, every directive is
defined, and every reference leads to a fragment that can apply. So the rules that look at fields,
arguments, directives and references have looked at all of them.

## What is proved

* `Clean.composite_of_hasSet` — a set that selects something selects from a known composite type.
  This is an induction over the nesting of sets: the type can get lost at an operation, a fragment,
  a field or an inline fragment, and each time a rule or the way schemas are built excludes it.
* `Clean.field_fits`, `Clean.directive_fits`, `Clean.spread_fits` — what then holds of the fields,
  directives and references of a set.
* `silent_run_knows_scopes` — the same for all visits of the walk.
-/

namespace GraphQLCheck

/-! ### Known fields, directives and references -/

/-- A field with the given selections has a definition in the type that it is selected from, and
fits it. -/
structure Field.Fits (schema : Schema) (f : Field) (items : List Selection)
    (parent : TypeDefinition) (definition : FieldDefinition) (type : TypeDefinition) : Prop where
  /-- The type that it is selected from is known. -/
  known : schema.type? parent.name = some parent
  /-- Fields can be selected from that type. -/
  composite : parent.isComposite = true
  /-- The definition of the field. -/
  selected : schema.selectedField? parent f.name = some definition
  /-- The type of the field is known. -/
  typed : schema.type? definition.type.innermost = some type
  /-- It has selections exactly if that type is no leaf. -/
  selects : items ≠ [] ↔ type.isLeaf = false
  /-- Its arguments are for parameters. -/
  arguments : ∀ a ∈ f.arguments, ∃ p ∈ definition.parameters, p.name = a.name
  /-- The parameters that need a value have an argument. -/
  required : ∀ p ∈ definition.parameters, p.type.nullable = false →
    ∃ a ∈ f.arguments, a.name = p.name

/-- A directive is defined and fits its definition. -/
structure Directive.Fits (schema : Schema) (directive : Directive) (location : DirectiveLocation)
    (definition : DirectiveDefinition) : Prop where
  /-- The definition of the directive. -/
  defined : schema.directive? directive.name = some definition
  /-- It may stand where it stands. -/
  allowed : location ∈ definition.locations
  /-- Its arguments are for parameters. -/
  arguments : ∀ a ∈ directive.arguments, ∃ p ∈ definition.parameters, p.name = a.name

/-- A reference leads to a fragment that can apply where fields are selected from a type. -/
structure FragmentSpread.Fits (schema : Schema) (d : Document) (node : FragmentSpread)
    (parent : TypeDefinition) (f : FragmentDefinition) (type : TypeDefinition) : Prop where
  /-- The fragment is defined. -/
  defined : d.fragment? node.name = some f
  /-- The type that it applies to is known. -/
  typed : schema.type? f.condition = some type
  /-- Fields can be selected from that type. -/
  composite : type.isComposite = true
  /-- There are objects of both types. -/
  overlaps : schema.overlap type parent = true

/-- A run with all rules is silent about a document whose operations have root types. -/
structure Document.Clean (schema : Schema) (d : Document) : Prop where
  /-- The types that the schema mentions are there. -/
  closed : schema.Closed
  /-- All operations have root types. -/
  roots : ∀ o ∈ d.operations, (schema.rootName? o.kind).isSome
  /-- Nothing is reported. -/
  quiet : Validation.full.diagnostics schema d = []

theorem Validation.mem_full (r : RuleName) : r ∈ Validation.full.rules := by
  cases r <;> decide

/-! ### Types of the schema -/

theorem TypeDefinition.isComposite_of_isOutput {t : TypeDefinition} (houtput : t.isOutput = true)
    (hleaf : t.isLeaf = false) : t.isComposite = true := by
  obtain ⟨name, location, body⟩ := t
  cases body with
  | object _ _ | interface _ _ | union _ => rfl
  | builtin _ | scalar | enum _ => cases hleaf
  | inputObject _ => cases houtput

theorem TypeDefinition.isComposite_of_isObject {t : TypeDefinition} (h : t.isObject = true) :
    t.isComposite = true := by
  have hkind : t.kind = .object := by simpa [isObject] using h
  rw [isComposite, hkind]
  rfl

/-- The type of a field that can be selected is known, and its values can be answered. -/
theorem Schema.Closed.selectedField {schema : Schema} (h : schema.Closed) {parent : TypeDefinition}
    {name : String} {definition : FieldDefinition}
    (hselected : schema.selectedField? parent name = some definition) :
    ∃ t, schema.type? definition.type.innermost = some t ∧ t.isOutput = true := by
  unfold selectedField? at hselected
  split_ifs at hselected
  · obtain rfl := Option.some.inj hselected
    exact ⟨BuiltinScalar.string.definition, h.registry.find?_builtin .string, rfl⟩
  · obtain ⟨t, ht, hfield⟩ := Option.bind_eq_some_iff.mp hselected
    obtain ⟨fields, hfields, hfield⟩ := Option.bind_eq_some_iff.mp hfield
    exact h.field (List.mem_of_find?_eq_some ht) hfields (List.mem_of_find?_eq_some hfield)

theorem Field.Fits.type?_eq {schema : Schema} {f : Field} {items : List Selection}
    {parent type : TypeDefinition} {definition : FieldDefinition}
    (h : f.Fits schema items parent definition type) :
    f.type? schema (some parent) = some type := by
  rw [Field.type?, Option.bind_some, h.selected]
  exact h.typed

/-! ### Scopes inside a set -/

namespace Scope

variable {schema : Schema} {s : Scope} {parent : TypeDefinition}

theorem Inside.parent?_eq (h : s.Inside (some parent)) (hcomposite : parent.isComposite = true) :
    s.parent? = some parent := by
  rw [h.parent, Option.filter_some, if_pos hcomposite]

theorem Inside.field?_field (h : s.Inside (some parent)) (hcomposite : parent.isComposite = true)
    (node : Field) (set : SelectionSet) :
    (s.enter schema (.field node set)).field? = schema.selectedField? parent node.name := by
  change s.parent?.bind _ = _
  rw [h.parent?_eq hcomposite]
  rfl

/-- The location of directives on a selection does not depend on where the selection stands. -/
theorem exists_location (schema : Schema) (item : Selection) :
    ∃ location, ∀ s : Scope, (s.enter schema item.node).directiveLocation? = some location := by
  cases item with
  | field _ _ _ => exact ⟨.field, fun _ => rfl⟩
  | spread _ => exact ⟨.fragmentSpread, fun _ => rfl⟩
  | inline _ _ _ => exact ⟨.inlineFragment, fun _ => rfl⟩

end Scope

/-- The entry that is found under a name is one of that name. -/
theorem InputValue.named_of_find? {parameters : List InputValue} {name : String} {p : InputValue}
    (h : parameters.find? (·.name = name) = some p) : ∃ p ∈ parameters, p.name = name :=
  ⟨p, List.mem_of_find?_eq_some h, by simpa using List.find?_some h⟩

namespace Rule

variable {s : Scope} {rest : List NodeKind}

/-- An argument of a known field is given to that field. -/
theorem argumentOwner?_field {definition : FieldDefinition} {parent : TypeDefinition}
    (hancestors : s.ancestors = .argument :: .field :: rest) (hfield : s.field? = some definition)
    (hparent : s.parent? = some parent) :
    argumentOwner? s = some (.field definition parent) := by
  simp only [argumentOwner?, hancestors, hfield, hparent]

/-- An argument of a known directive is given to that directive. -/
theorem argumentOwner?_directive {definition : DirectiveDefinition}
    (hancestors : s.ancestors = .argument :: .directive :: rest)
    (hdirective : s.directive? = some definition) :
    argumentOwner? s = some (.directive definition) := by
  simp only [argumentOwner?, hancestors, hdirective, Option.map_some]

end Rule

/-- Whether a step enters a directive. -/
def Hook.entersDirective : Hook → Bool
  | .enter (.directive _) => true
  | _ => false

/-- No directive is entered in a walk of arguments. -/
theorem Visit.not_enter_directive {schema : Schema} {s t : Scope} {directive : Directive}
    (position : Position) (list : List Argument) :
    ⟨.enter (.directive directive), s⟩ ∉ Visit.along schema t (Hook.ofArguments position list) := by
  have hother := Hook.only_ofArguments (P := fun hook => !hook.entersDirective)
    (fun _ _ => ⟨rfl, rfl⟩) (fun _ _ => rfl) (fun _ _ => ⟨rfl, rfl⟩) position list
  intro hv
  cases hother _ (Visit.hook_mem_of_mem_along hv)

namespace Document

variable {schema : Schema} {d : Document} {type? : Option TypeDefinition} {address : Address}
  {items : List Selection} {s t : Scope} {parent : TypeDefinition} {index : ℕ}

/-! ### Silence about one set -/

/-- The fields of a set that selects from a composite type fit their definitions. -/
theorem Clean.field_fits (h : d.Clean schema) (hset : d.HasSet schema (some parent) address items)
    (hcomposite : parent.isComposite = true) {node : Field} {span : Span} {own : List Selection}
    (hitem : items[index]? = some (.field node span own)) :
    ∃ definition type, node.Fits schema own parent definition type := by
  obtain ⟨s, hs⟩ := hset.walked_of_mem (List.mem_of_getElem? hitem)
  have henter : ⟨.enter (.field node ⟨span, own⟩), s.enter schema (.field node ⟨span, own⟩)⟩ ∈
      d.visits schema := hs.visits_item hitem (.inl rfl)
  have hleave : ⟨.leave (.field node ⟨span, own⟩), s.enter schema (.field node ⟨span, own⟩)⟩ ∈
      d.visits schema := hs.visits_item hitem (.inr (.inr (.inr rfl)))
  have hparent : (s.enter schema (.field node ⟨span, own⟩)).parent? = some parent :=
    hs.inside.parent?_eq hcomposite
  obtain ⟨definition, hfield⟩ :=
    Validation.field_defined h.quiet (Validation.mem_full _) henter hparent
  have hselected : schema.selectedField? parent node.name = some definition := by
    rw [← hfield, hs.inside.field?_field hcomposite]
  obtain ⟨type, htype, -⟩ := h.closed.selectedField hselected
  have hscope : (s.enter schema (.field node ⟨span, own⟩)).type? = some type := by
    rw [hs.inside.type?_field _ hset.knows, Field.type?, Option.bind_some, hselected]
    exact htype
  refine ⟨definition, type, ?_⟩
  exact
    { known := hset.knows parent rfl
      composite := hcomposite
      selected := hselected
      typed := htype
      selects :=
        Validation.selects_iff_not_leaf h.quiet (Validation.mem_full _) henter hscope hfield
      arguments := by
        intro a ha
        have hvisit := hs.argument_visited hitem ha
        obtain ⟨p, hp⟩ := Validation.known_argument h.quiet (Validation.mem_full _) hvisit
          (Rule.argumentOwner?_field rfl hfield hparent)
        rw [hs.inside.parameter?_argument hset.knows, Option.bind_some, hselected] at hp
        exact InputValue.named_of_find? hp
      required := fun p hp hrequired =>
        Validation.given_field h.quiet (Validation.mem_full _) hleave hfield hp hrequired }

/-- The definition of a fragment is visited. -/
theorem fragmentDefinition_visited (schema : Schema) {number : ℕ} {f : FragmentDefinition}
    (hnumber : d.definitions[number]? = some (.fragment f)) :
    ⟨.enter (.fragmentDefinition f), (d.topScope schema).enter schema (.fragmentDefinition f)⟩ ∈
      d.visits schema :=
  mem_visits.mpr (.inr (.inr (.inl ⟨number, f, hnumber,
    (Visit.mem_along_ofFragmentDefinition (d.idle_topScope schema)).mpr (.inl rfl)⟩)))

/-- Fragments apply to known composite types. -/
theorem Clean.fragment_type (h : d.Clean schema) {number : ℕ} {f : FragmentDefinition}
    (hnumber : d.definitions[number]? = some (.fragment f)) :
    ∃ type, schema.type? f.condition = some type ∧ type.isComposite = true := by
  have hvisit := fragmentDefinition_visited schema hnumber
  obtain ⟨type, htype⟩ := Validation.known_fragmentDefinition h.quiet (Validation.mem_full _) hvisit
  exact ⟨type, htype,
    Validation.composite_fragmentDefinition h.quiet (Validation.mem_full _) hvisit htype⟩

/-- The references of a set that selects from a composite type lead to fragments that can apply. -/
theorem Clean.spread_fits (h : d.Clean schema) (hset : d.HasSet schema (some parent) address items)
    (hcomposite : parent.isComposite = true) {node : FragmentSpread}
    (hitem : items[index]? = some (.spread node)) :
    ∃ f type, node.Fits schema d parent f type := by
  obtain ⟨s, hs⟩ := hset.walked_of_mem (List.mem_of_getElem? hitem)
  have hvisit : ⟨.enter (.spread node), s.enter schema (.spread node)⟩ ∈ d.visits schema :=
    hs.visits_item hitem (.inl rfl)
  have hparent : (s.enter schema (.spread node)).parent? = some parent :=
    hs.inside.parent?_eq hcomposite
  obtain ⟨f, hf⟩ := Validation.known_fragment h.quiet (Validation.mem_full _) hvisit
  obtain ⟨number, hnumber⟩ := exists_fragment_number hf
  obtain ⟨type, htype, hcomposite⟩ := h.fragment_type hnumber
  exact ⟨f, type, hf, htype, hcomposite,
    Validation.overlap_spread h.quiet (Validation.mem_full _) hvisit hf htype hcomposite hparent⟩

/-! ### No set loses its type -/

/-- The set of an inline fragment selects from a composite type if the set around it does. -/
theorem Clean.inline_type (h : d.Clean schema) (hset : d.HasSet schema (some parent) address items)
    (hcomposite : parent.isComposite = true) {node : InlineFragment} {span : Span}
    {own : List Selection} (hitem : items[index]? = some (.inline node span own)) :
    ∃ type, node.type? schema (some parent) = some type ∧ type.isComposite = true := by
  obtain ⟨s, hs⟩ := hset.walked_of_mem (List.mem_of_getElem? hitem)
  have hvisit : ⟨.enter (.inline node), s.enter schema (.inline node)⟩ ∈ d.visits schema :=
    hs.visits_item hitem (.inl rfl)
  unfold InlineFragment.type?
  cases hname : node.condition? with
  | none => exact ⟨parent, rfl, hcomposite⟩
  | some name =>
    obtain ⟨type, htype⟩ := Validation.known_inline h.quiet (Validation.mem_full _) hvisit hname
    exact ⟨type, htype,
      Validation.composite_inline h.quiet (Validation.mem_full _) hvisit hname htype⟩

/-- A set that selects something selects from a composite type. -/
theorem Clean.composite_of_hasSet (h : d.Clean schema) (hset : d.HasSet schema type? address items)
    (hne : items ≠ []) : ∃ type, type? = some type ∧ type.isComposite = true := by
  -- Outwards in: a set inside another is not empty only if the other is not, so that the type of
  -- the outer one is known by the time that the rules about its fields and fragments are asked.
  induction hset with
  | @operation number definition o hnumber hoperation =>
    have ho : o ∈ d.operations :=
      List.mem_filterMap.mpr ⟨definition, List.mem_of_getElem? hnumber, hoperation⟩
    obtain ⟨name, hname⟩ := Option.isSome_iff_exists.mp (h.roots o ho)
    obtain ⟨type, htype, hobject⟩ := h.closed.root hname
    exact ⟨type, Option.bind_eq_some_iff.mpr ⟨name, hname, htype⟩,
      TypeDefinition.isComposite_of_isObject hobject⟩
  | fragment hnumber => exact h.fragment_type hnumber
  | field hset hitem ih =>
    obtain ⟨parent, rfl, hcomposite⟩ := ih (List.ne_nil_of_mem (List.mem_of_getElem? hitem))
    obtain ⟨definition, type, hfits⟩ := h.field_fits hset hcomposite hitem
    obtain ⟨type', htype', houtput⟩ := h.closed.selectedField hfits.selected
    obtain rfl := Option.some.inj (htype'.symm.trans hfits.typed)
    exact ⟨type', hfits.type?_eq,
      TypeDefinition.isComposite_of_isOutput houtput (hfits.selects.mp hne)⟩
  | inline hset hitem ih =>
    obtain ⟨parent, rfl, hcomposite⟩ := ih (List.ne_nil_of_mem (List.mem_of_getElem? hitem))
    exact h.inline_type hset hcomposite hitem

/-! ### Directives -/

/-- The directives that are walked in a scope are defined and fit their definitions. -/
theorem Clean.directive_fits (h : d.Clean schema) (hs : s.Idle) {list : List Directive}
    (hsub : Visit.along schema s (Hook.ofDirectives list) ⊆ d.visits schema)
    {directive : Directive} (hdirective : directive ∈ list) {location : DirectiveLocation}
    (hlocation : s.directiveLocation? = some location) :
    ∃ definition, directive.Fits schema location definition := by
  have hvisit := directive_visited hs hsub hdirective
  obtain ⟨definition, hdefined, hallowed⟩ :=
    Validation.known_directive h.quiet (Validation.mem_full _) hvisit
  refine ⟨definition, hdefined, hallowed location hlocation, fun a ha => ?_⟩
  have hargument := directive_argument_visited hs hsub hdirective ha
  obtain ⟨p, hp⟩ := Validation.known_argument h.quiet (Validation.mem_full _) hargument
    (Rule.argumentOwner?_directive rfl hdefined)
  change (s.enter schema (.directive directive)).directive?.bind _ = _ at hp
  rw [hdefined, Option.bind_some] at hp
  exact InputValue.named_of_find? hp

/-- The directives of an operation or of a fragment have a location. -/
theorem HasDirectives.exists_location {list : List Directive}
    (h : d.HasDirectives schema s list) : ∃ location, s.directiveLocation? = some location := by
  cases h with
  | @operation number definition o _ _ =>
    change ∃ location, (NodeKind.operation o.kind).directiveLocation? = some location
    cases o.kind <;> exact ⟨_, rfl⟩
  | fragment _ => exact ⟨.fragmentDefinition, rfl⟩

/-- A directive that is entered in a walk of directives is one of them. -/
theorem directive_of_mem_along (ht : t.Idle) {list : List Directive} {directive : Directive}
    (hv : ⟨.enter (.directive directive), s⟩ ∈ Visit.along schema t (Hook.ofDirectives list)) :
    directive ∈ list ∧ s = t.enter schema (.directive directive) := by
  rcases (Visit.mem_along_ofDirectives ht).mp hv with hv | ⟨other, hother, hv | hv | hv⟩
  · cases hv
  · cases hv
    exact ⟨hother, rfl⟩
  · exact absurd hv (Visit.not_enter_directive other.position other.arguments)
  · cases hv

/-- A directive that is entered in a walk of the details of a selection is one of its directives. -/
theorem directive_of_mem_details (ht : t.Idle) {item : Selection} {directive : Directive}
    (hv : ⟨.enter (.directive directive), s⟩ ∈ Visit.along schema t item.details) :
    directive ∈ item.directives ∧ s = t.enter schema (.directive directive) := by
  cases item with
  | field node span own =>
    rcases (Visit.mem_along_append (Scope.after_ofArguments ht.1 _ _)).mp hv with hv | hv
    · exact absurd hv (Visit.not_enter_directive node.position node.arguments)
    · exact directive_of_mem_along ht hv
  | spread node => exact directive_of_mem_along ht hv
  | inline node span own => exact directive_of_mem_along ht hv

/-! ### Silence at a visit -/

/-- Every field that is entered fits its definition, and the scope holds that definition. -/
theorem Clean.field_visit (h : d.Clean schema) {node : Field} {set : SelectionSet}
    (hv : ⟨.enter (.field node set), s⟩ ∈ d.visits schema) :
    ∃ parent definition type, s.parent? = some parent ∧ s.field? = some definition ∧
      s.type? = some type ∧ node.Fits schema set.items parent definition type := by
  obtain ⟨type?, address, items, t, item, hmem, hset, ht, hnode, rfl⟩ :=
    item_of_mem_visits (.field node set.span set.items) hv
  cases item with
  | field other span own =>
    cases hnode
    obtain ⟨index, hitem⟩ := List.getElem?_of_mem hmem
    obtain ⟨parent, rfl, hcomposite⟩ := h.composite_of_hasSet hset (List.ne_nil_of_mem hmem)
    obtain ⟨definition, type, hfits⟩ := h.field_fits hset hcomposite hitem
    refine ⟨parent, definition, type, ht.parent?_eq hcomposite, ?_, ?_, hfits⟩
    · exact (ht.field?_field hcomposite node set).trans hfits.selected
    · exact (ht.type?_field set hset.knows node).trans (hfits.type?_eq)
  | spread _ => cases hnode
  | inline _ _ _ => cases hnode

/-- Every reference that is entered fits the fragment that it leads to. -/
theorem Clean.spread_visit (h : d.Clean schema) {node : FragmentSpread}
    (hv : ⟨.enter (.spread node), s⟩ ∈ d.visits schema) :
    ∃ parent f type, s.parent? = some parent ∧ node.Fits schema d parent f type := by
  obtain ⟨type?, address, items, t, item, hmem, hset, ht, hnode, rfl⟩ :=
    item_of_mem_visits (.spread node) hv
  cases item with
  | spread other =>
    cases hnode
    obtain ⟨index, hitem⟩ := List.getElem?_of_mem hmem
    obtain ⟨parent, rfl, hcomposite⟩ := h.composite_of_hasSet hset (List.ne_nil_of_mem hmem)
    obtain ⟨f, type, hfits⟩ := h.spread_fits hset hcomposite hitem
    exact ⟨parent, f, type, ht.parent?_eq hcomposite, hfits⟩
  | field _ _ _ => cases hnode
  | inline _ _ _ => cases hnode

/-- Every directive that is entered fits its definition. -/
theorem Clean.directive_visit (h : d.Clean schema) {directive : Directive}
    (hv : ⟨.enter (.directive directive), s⟩ ∈ d.visits schema) :
    ∃ definition location, s.directive? = some definition ∧
      s.directiveLocation? = some location ∧ directive.Fits schema location definition := by
  rcases visit_cases hv with hat | ⟨t, list, hlist, hmem⟩ | houter
  · generalize hw : (⟨.enter (.directive directive), s⟩ : Visit) = w at hat
    cases hat with
    | enter _ _ => cases hw
    | leave _ _ => cases hw
    | @enterItem _ _ _ _ item _ _ _ => cases item <;> cases hw
    | leaveItem _ _ _ => cases hw
    | @detail type? address items t item v hset ht hitem hdetail =>
      -- The rules are asked in the scope in which the set is known to be walked; what they say of
      -- the directive is the same in both.
      obtain ⟨hdirective, rfl⟩ :=
        directive_of_mem_details (ht.idle.item schema item) (hw ▸ hdetail)
      obtain ⟨index, hindex⟩ := List.getElem?_of_mem hitem
      obtain ⟨w, hw⟩ := hset.walked_of_mem hitem
      obtain ⟨location, hlocation⟩ := Scope.exists_location schema item
      obtain ⟨definition, hfits⟩ := h.directive_fits (hw.inside.idle.item schema item)
        (hw.directives_subset hindex) hdirective (hlocation w)
      exact ⟨definition, location, hfits.defined, hlocation t, hfits⟩
  · obtain ⟨hdirective, rfl⟩ := directive_of_mem_along hlist.idle hmem
    obtain ⟨location, hlocation⟩ := hlist.exists_location
    obtain ⟨definition, hfits⟩ :=
      h.directive_fits hlist.idle hlist.visits_subset hdirective hlocation
    exact ⟨definition, location, hfits.defined, hlocation, hfits⟩
  · cases houter

end Document

/-- For a built schema and a document whose operations have root types: if a run with all rules is
silent, then every field, directive and reference that the walk enters is known and fits what it
refers to. -/
theorem silent_run_knows_scopes (schema : Schema) (hbuilt : schema.Built) (d : Document)
    (hroots : ∀ o ∈ d.operations, (schema.rootName? o.kind).isSome)
    (hquiet : Validation.full.diagnostics schema d = []) :
    (∀ (f : Field) (set : SelectionSet) (s : Scope),
      ⟨.enter (.field f set), s⟩ ∈ d.visits schema →
        ∃ parent definition type, s.parent? = some parent ∧ s.field? = some definition ∧
          s.type? = some type ∧ f.Fits schema set.items parent definition type) ∧
    (∀ (directive : Directive) (s : Scope),
      ⟨.enter (.directive directive), s⟩ ∈ d.visits schema →
        ∃ definition location, s.directive? = some definition ∧
          s.directiveLocation? = some location ∧ directive.Fits schema location definition) ∧
    (∀ (node : FragmentSpread) (s : Scope),
      ⟨.enter (.spread node), s⟩ ∈ d.visits schema →
        ∃ parent f type, s.parent? = some parent ∧ node.Fits schema d parent f type) := by
  have hclean : d.Clean schema := ⟨hbuilt.closed, hroots, hquiet⟩
  refine ⟨?_, ?_, ?_⟩
  · intro f set s hv
    exact hclean.field_visit hv
  · intro directive s hv
    exact hclean.directive_visit hv
  · intro node s hv
    exact hclean.spread_visit hv

/-! ### A friend of a user -/

/-- An interface, an object type that has it, and a field of that interface. -/
def friendTypes : List Sdl.Definition :=
  [.type ⟨⟨1, 1⟩, "Node", .interface [] [⟨⟨1, 18⟩, "id", [], .named "ID" false, []⟩]⟩,
    .type ⟨⟨2, 1⟩, "User", .object ["Node"]
      [⟨⟨2, 29⟩, "id", [], .named "ID" false, []⟩,
        ⟨⟨2, 37⟩, "friend", [⟨⟨2, 44⟩, "since", .named "Int" false, none⟩], .named "Node" true,
          []⟩]⟩,
    .type ⟨⟨3, 1⟩, "Query", .object []
      [⟨⟨3, 14⟩, "node", [⟨⟨3, 19⟩, "id", .named "ID" false, none⟩], .named "Node" true, []⟩]⟩]

/-- The schema of these definitions. -/
def friendSchema : Schema := (Schema.ofDefinitions "friend" friendTypes).toOption.getD default

theorem built_friendSchema : friendSchema.Built := by
  have hbuild : Schema.ofDefinitions "friend" friendTypes = .ok friendSchema := rfl
  exact Schema.built_of_ofDefinitions hbuild

/-- A directive on a reference. -/
def friendDirective : Directive := ⟨⟨1, 24⟩, "include", [⟨"if", .atom (.bool true)⟩]⟩

/-- A reference to a fragment for objects of one type, where there can be others. -/
def friendSpread : FragmentSpread := ⟨⟨1, 22⟩, "F", [friendDirective]⟩

/-- The field that the fragment selects, with an argument. -/
def friendField : Field := ⟨⟨1, 68⟩, none, "friend", [⟨"since", .atom (.int 2)⟩], []⟩

/-- What is selected from the friend. -/
def friendSet : SelectionSet :=
  ⟨⟨⟨1, 85⟩, ⟨1, 90⟩⟩, [.field ⟨⟨1, 87⟩, none, "id", [], []⟩ ⟨⟨1, 87⟩, ⟨1, 87⟩⟩ []]⟩

/-- A query and a fragment. -/
def friendDocument : Document :=
  ⟨[.bare ⟨⟨⟨1, 1⟩, ⟨1, 45⟩⟩, [.field ⟨⟨1, 3⟩, none, "node", [⟨"id", .atom (.string "1")⟩], []⟩
      ⟨⟨1, 17⟩, ⟨1, 43⟩⟩ [.spread friendSpread]]⟩,
    .fragment ⟨⟨1, 47⟩, "F", "User", [], ⟨⟨⟨1, 66⟩, ⟨1, 92⟩⟩,
      [.field friendField friendSet.span friendSet.items]⟩⟩], []⟩

/-- A field in a fragment, a reference to that fragment and a directive on the reference. -/
theorem silent_run_knows_friend :
    friendSchema.Built ∧
      (∀ o ∈ friendDocument.operations, (friendSchema.rootName? o.kind).isSome) ∧
      Validation.full.diagnostics friendSchema friendDocument = [] ∧
      (∃ parent definition type,
        friendField.Fits friendSchema friendSet.items parent definition type) ∧
      (∃ definition location, friendDirective.Fits friendSchema location definition) ∧
      ∃ parent f type, friendSpread.Fits friendSchema friendDocument parent f type := by
  have hroots : ∀ o ∈ friendDocument.operations, (friendSchema.rootName? o.kind).isSome := by decide
  have hquiet : Validation.full.diagnostics friendSchema friendDocument = [] := by decide +kernel
  obtain ⟨hfield, hdirective, hspread⟩ := silent_run_knows_scopes friendSchema built_friendSchema
    friendDocument hroots hquiet
  refine ⟨built_friendSchema, hroots, hquiet, ?_, ?_, ?_⟩
  · obtain ⟨parent, definition, type, -, -, -, hfits⟩ :=
      hfield friendField friendSet _ (List.mem_of_getElem? (i := 29) rfl)
    exact ⟨parent, definition, type, hfits⟩
  · obtain ⟨definition, location, -, -, hfits⟩ :=
      hdirective friendDirective _ (List.mem_of_getElem? (i := 14) rfl)
    exact ⟨definition, location, hfits⟩
  · obtain ⟨parent, f, type, -, hfits⟩ :=
      hspread friendSpread _ (List.mem_of_getElem? (i := 12) rfl)
    exact ⟨parent, f, type, hfits⟩

end GraphQLCheck
