import GraphQLCheck.Proofs.SilentRules
import GraphQLCheck.Proofs.Substitution
import GraphQLCheck.Proofs.VariableUses

/-!
# Variables are of the types that are expected of them

Literals are checked by one rule, which lets variables through, and the uses of variables by others.
Together they cover everything: if they are silent, then whatever values the variables of an
operation get, as long as these are of the types of the variables, every argument that the operation
reaches is of the type of its parameter once its variables are replaced.
-/

namespace GraphQLCheck

namespace Schema

variable {schema : Schema} {name argument : String} {p : InputValue}

/-- The parameters of a field that can be selected take values. -/
theorem Closed.takesValues_of_selectedField? (h : schema.Closed) {parent : TypeDefinition}
    {definition : FieldDefinition} (hselected : schema.selectedField? parent name = some definition)
    (hp : definition.parameter? argument = some p) : schema.TakesValues p.type.innermost := by
  unfold selectedField? at hselected
  split_ifs at hselected
  · obtain rfl := Option.some.inj hselected
    cases hp
  · obtain ⟨t, ht, hfield⟩ := Option.bind_eq_some_iff.mp hselected
    obtain ⟨fields, hfields, hfield⟩ := Option.bind_eq_some_iff.mp hfield
    exact h.parameter (List.mem_of_find?_eq_some ht) hfields (List.mem_of_find?_eq_some hfield)
      (List.mem_of_find?_eq_some hp)

/-- The parameters of a directive take values. -/
theorem Closed.takesValues_of_directive? (h : schema.Closed) {definition : DirectiveDefinition}
    (hdefinition : schema.directive? name = some definition)
    (hp : definition.parameter? argument = some p) : schema.TakesValues p.type.innermost :=
  h.directive (List.mem_of_find?_eq_some hdefinition) (List.mem_of_find?_eq_some hp)

end Schema

namespace Operation

variable {schema : Schema} {d : Document} {o : Operation}

/-- The sets that an operation reaches are sets of the document. -/
theorem HasSet.exists_address (ho : o ∈ d.operations) {parent? : Option TypeDefinition}
    {items : List Selection} (h : o.HasSet schema d parent? items) :
    ∃ address, d.HasSet schema parent? address items := by
  induction h with
  | own =>
    obtain ⟨number, definition, hnumber, hoperation⟩ := Document.exists_operation_number ho
    exact ⟨[number], .operation hnumber hoperation⟩
  | field _ hitem ih =>
    obtain ⟨address, hset⟩ := ih
    obtain ⟨index, hindex⟩ := List.getElem?_of_mem hitem
    exact ⟨index :: address, hset.field hindex⟩
  | inline _ hitem ih =>
    obtain ⟨address, hset⟩ := ih
    obtain ⟨index, hindex⟩ := List.getElem?_of_mem hitem
    exact ⟨index :: address, hset.inline hindex⟩
  | fragment _ _ hf _ =>
    obtain ⟨number, hnumber⟩ := Document.exists_fragment_number hf
    exact ⟨[number], .fragment hnumber⟩

/-- A directive that an operation reaches is walked in a list of directives. -/
theorem HasDirective.walked (ho : o ∈ d.operations) {directive : Directive}
    (h : o.HasDirective schema d directive) :
    ∃ s list, s.Idle ∧ Visit.along schema s (Hook.ofDirectives list) ⊆ d.visits schema ∧
      directive ∈ list := by
  cases h with
  | own hmem =>
    obtain ⟨number, definition, hnumber, hoperation⟩ := Document.exists_operation_number ho
    have hdirectives : d.HasDirectives schema _ o.directives := .operation hnumber hoperation
    exact ⟨_, _, hdirectives.idle, hdirectives.visits_subset, hmem⟩
  | @selection parent? items item _ hreached hitem hmem =>
    obtain ⟨address, hset⟩ := hreached.exists_address ho
    obtain ⟨index, hindex⟩ := List.getElem?_of_mem hitem
    obtain ⟨s, hs⟩ := hset.walked_of_mem hitem
    exact ⟨s.enter schema item.node, item.directives, hs.inside.idle.item schema item,
      hs.directives_subset hindex, hmem⟩
  | @fragment parent? items node f _ hreached hitem hf hmem =>
    obtain ⟨number, hnumber⟩ := Document.exists_fragment_number hf
    have hdirectives : d.HasDirectives schema _ f.directives := .fragment hnumber
    exact ⟨_, _, hdirectives.idle, hdirectives.visits_subset, hmem⟩

/-- An argument that an operation reaches is visited with its parameter. -/
theorem Gives.visited (ho : o ∈ d.operations) {a : Argument} {p : InputValue}
    (h : o.Gives schema d a p) :
    ∃ position s, ⟨.enter (.argument position a), s⟩ ∈ d.visits schema ∧
      s.parameter? = some p := by
  cases h with
  | @field _ _ node _ _ a p hreached hitem ha hp =>
    obtain ⟨address, hset⟩ := hreached.exists_address ho
    obtain ⟨index, hindex⟩ := List.getElem?_of_mem hitem
    obtain ⟨s, hs⟩ := hset.walked_of_mem hitem
    refine ⟨node.position, _, hs.argument_visited hindex ha, ?_⟩
    rw [hs.inside.parameter?_argument hset.knows]
    exact hp
  | @directive directive a p hdirective ha hp =>
    obtain ⟨s, list, hidle, hsub, hmem⟩ := hdirective.walked ho
    exact ⟨directive.position, _, Document.directive_argument_visited hidle hsub hmem ha, hp⟩

/-- The parameter of an argument that an operation reaches takes values. -/
theorem Gives.takesValues (hclosed : schema.Closed) {a : Argument} {p : InputValue}
    (h : o.Gives schema d a p) : schema.TakesValues p.type.innermost := by
  cases h with
  | @field parent? items node _ _ a p hreached hitem ha hp =>
    obtain ⟨definition, hdefinition, hparameter⟩ := Option.bind_eq_some_iff.mp hp
    obtain ⟨parent, -, hselected⟩ := Option.bind_eq_some_iff.mp hdefinition
    exact hclosed.takesValues_of_selectedField? hselected hparameter
  | @directive directive a p _ _ hp =>
    obtain ⟨definition, hdefinition, hparameter⟩ := Option.bind_eq_some_iff.mp hp
    exact hclosed.takesValues_of_directive? hdefinition hparameter

/-! ### Operations are visited -/

/-- An operation is entered and left under the number by which its uses of variables are kept. -/
theorem visited (schema : Schema) (ho : o ∈ d.operations) :
    ∃ index s, (Setting.of schema d).usesOf index = o.variableUses schema d ∧
      ⟨.enter (.operation index o), s⟩ ∈ d.visits schema ∧
      ⟨.leave (.operation index o), s⟩ ∈ d.visits schema ∧
      ∀ x ∈ o.declared, ∃ s, ⟨.enter (.variableDefinition x), s⟩ ∈ d.visits schema := by
  obtain ⟨index, hindex⟩ := List.mem_iff_getElem?.mp ho
  obtain ⟨s, henter, hleave, hdeclared⟩ := Document.exists_visits_of_operation schema hindex
  exact ⟨index, s, Setting.usesOf_operation hindex, henter, hleave, hdeclared⟩

end Operation

/-! ### Soundness -/

variable {schema : Schema} {d : Document} {o : Operation}

/-- The last definition of a variable is one of its definitions. -/
theorem Rule.exists_definitionOf? {name : String} (h : ∃ x ∈ o.declared, x.name = name) :
    ∃ x, Rule.definitionOf? o name = some x ∧ x ∈ o.declared ∧ x.name = name := by
  obtain ⟨y, hy, hname⟩ := h
  have hsome : (Rule.definitionOf? o name).isSome := by
    rw [Rule.definitionOf?, List.find?_isSome]
    exact ⟨y, List.mem_reverse.mpr hy, by simpa using hname⟩
  obtain ⟨x, hx⟩ := Option.isSome_iff_exists.mp hsome
  exact ⟨x, hx, List.mem_reverse.mp (List.mem_of_find?_eq_some hx), by simpa using List.find?_some hx⟩

/-- The rules that together keep values of the wrong type away from parameters. -/
def Validation.ofVariables : Validation :=
  .ofRules [.knownTypeNames, .uniqueVariableNames, .noUndefinedVariables, .argumentsOfCorrectType,
    .variablesInAllowedPositions]

/-- The values that variables of an operation are assigned are literals without variables, of the
types that the variables have in effect. -/
def Operation.Assigns (schema : Schema) (o : Operation) (assign : String → Option Literal) : Prop :=
  ∀ x ∈ o.declared, ∃ value, assign x.name = some value ∧ value.closed = true ∧
    Coercion.faults schema value (Rule.effectiveType x) = []

/-- If the rules are silent, a use of a variable is of a declared one, and the value assigned to that
is of the type expected of it. -/
theorem Operation.Assigns.of_use
    (hquiet : Validation.ofVariables.diagnostics schema d = []) (ho : o ∈ d.operations)
    {assign : String → Option Literal} (hassign : o.Assigns schema assign) {u : VariableUse}
    (hu : u ∈ o.variableUses schema d)
    (hexpected : ∀ type, u.expected? = some type → schema.TakesValues type.innermost) :
    ∃ value, assign u.name = some value ∧ value.closed = true ∧
      ∀ type, u.expected? = some type → Coercion.faults schema value type = [] := by
  obtain ⟨index, s, huses, henter, hleave, hdeclared⟩ := Operation.visited schema ho
  rw [← huses] at hu
  have hdefined := Validation.declared_use hquiet (by decide) henter hu
  obtain ⟨x, hx, hmem, hname⟩ := Rule.exists_definitionOf? hdefined
  obtain ⟨value, hvalue, hvalueClosed, haccepted⟩ := hassign x hmem
  rw [hname] at hvalue
  refine ⟨value, hvalue, hvalueClosed, fun type htype => ?_⟩
  obtain ⟨s', hs'⟩ := hdeclared x hmem
  obtain ⟨t, ht⟩ := Validation.known_variableDefinition hquiet (by decide) hs'
  have hplaced := Validation.not_misplaced hquiet (by decide) hleave hu
  have hsub : (Rule.effectiveType x).isSubtype schema type = true := by
    simp only [Rule.misplaced, hx, htype, ht] at hplaced
    split_ifs at hplaced with hsub
    exact hsub
  exact Coercion.faults_of_isSubtype (hexpected type htype) hsub haccepted

/-- If the rules are silent, every argument for a known parameter that an operation reaches is of the
type of the parameter after its variables have been replaced by values of their types. -/
theorem arguments_accepted_after_substitution (schema : Schema) (hbuilt : schema.Built)
    (d : Document) (hquiet : Validation.ofVariables.diagnostics schema d = []) (o : Operation)
    (ho : o ∈ d.operations) (assign : String → Option Literal) (hassign : o.Assigns schema assign)
    (a : Argument) (p : InputValue) (ha : o.Gives schema d a p) :
    (a.value.subst assign).closed = true ∧
      Coercion.faults schema (a.value.subst assign) p.type = [] := by
  have hclosed := hbuilt.closed
  obtain ⟨position, huses⟩ := ha.uses_subset
  have htakes := ha.takesValues hclosed
  have huse : ∀ u ∈ VariableUse.inLiteral schema position (some p.type) a.value,
      ∃ value, assign u.name = some value ∧ value.closed = true ∧
        ∀ type, u.expected? = some type → Coercion.faults schema value type = [] := by
    intro u hu
    refine hassign.of_use hquiet ho (huses hu) ?_
    refine VariableUse.takesValues_of_mem_inLiteral hclosed (fun type htype => ?_) hu
    obtain rfl := Option.some.inj htype
    exact htakes
  constructor
  · apply Coercion.closed_subst schema position (some p.type)
    intro u hu
    obtain ⟨value, hvalue, hvalueClosed, -⟩ := huse u hu
    exact ⟨value, hvalue, hvalueClosed⟩
  · obtain ⟨_, s, hv, hp⟩ := ha.visited ho
    have haccepted := Validation.faults_argument hquiet (by decide) hv hp
    apply Coercion.faults_subst hclosed haccepted
    intro u hu
    obtain ⟨value, hvalue, -, hvalueAccepted⟩ := huse u hu
    exact ⟨value, hvalue, hvalueAccepted⟩

/-! ### A range and a bound -/

/-- An input object and a field with parameters. -/
def rangeTypes : List Sdl.Definition :=
  [.type ⟨⟨1, 1⟩, "Range", .inputObject
      [⟨⟨1, 15⟩, "low", .named "Int" false, none⟩,
        ⟨⟨1, 26⟩, "tags", .list (.named "String" false) true, none⟩]⟩,
    .type ⟨⟨2, 1⟩, "Query", .object []
      [⟨⟨2, 14⟩, "find", [⟨⟨2, 19⟩, "range", .named "Range" true, none⟩,
        ⟨⟨2, 33⟩, "first", .named "Int" false, none⟩], .named "Int" true, []⟩]⟩]

/-- The schema of these definitions. -/
def rangeSchema : Schema := (Schema.ofDefinitions "range" rangeTypes).toOption.getD default

theorem built_rangeSchema : rangeSchema.Built := by
  have hbuild : Schema.ofDefinitions "range" rangeTypes = .ok rangeSchema := rfl
  exact Schema.built_of_ofDefinitions hbuild

/-- The range that is looked for, with variables inside. -/
def rangeArgument : Argument :=
  ⟨"range", .object [(⟨"tags", ⟨1, 83⟩⟩, .atom (.var "tags")), (⟨"low", ⟨1, 96⟩⟩, .atom (.var "low"))]⟩

/-- A query with two variables, which it uses in a fragment only. -/
def rangeQuery : Operation :=
  { kind := .query
    position := ⟨1, 1⟩
    name? := none
    declared := [⟨⟨1, 8⟩, "low", .named "Int" true, some (.atom (.int 1))⟩,
      ⟨⟨1, 23⟩, "tags", .list (.named "String" false) true, none⟩]
    directives := []
    selectionSet := ⟨⟨⟨1, 41⟩, ⟨1, 48⟩⟩, [.spread ⟨⟨1, 46⟩, "F", []⟩]⟩ }

/-- The field that the fragment selects. -/
def rangeField : Field :=
  ⟨⟨1, 70⟩, none, "find", [rangeArgument, ⟨"first", .atom (.var "low")⟩], []⟩

/-- The query and the fragment. -/
def rangeDocument : Document :=
  ⟨[.operation rangeQuery,
    .fragment ⟨⟨1, 50⟩, "F", "Query", [], ⟨⟨⟨1, 68⟩, ⟨1, 120⟩⟩,
      [.field rangeField ⟨⟨1, 70⟩, ⟨1, 70⟩⟩ []]⟩⟩], []⟩

/-- A number, and a single text for a list of them. -/
def rangeValues (name : String) : Option Literal :=
  if name = "low" then some (.atom (.int 5))
  else if name = "tags" then some (.atom (.string "x")) else none

/-- A literal with variables in the field of an input object, in a fragment. -/
theorem range_accepted_after_substitution :
    rangeSchema.Built ∧ Validation.ofVariables.diagnostics rangeSchema rangeDocument = [] ∧
      rangeQuery.Assigns rangeSchema rangeValues ∧
      ((rangeArgument.value.subst rangeValues).closed = true ∧
        Coercion.faults rangeSchema (rangeArgument.value.subst rangeValues)
          (.named "Range" true) = []) := by
  have hquiet : Validation.ofVariables.diagnostics rangeSchema rangeDocument = [] := by decide
  have hassigns : rangeQuery.Assigns rangeSchema rangeValues := by
    intro x hx
    rcases List.mem_cons.mp hx with rfl | hx
    · exact ⟨.atom (.int 5), rfl, rfl, rfl⟩
    · obtain rfl := List.mem_singleton.mp hx
      exact ⟨.atom (.string "x"), rfl, rfl, rfl⟩
  have hgives : rangeQuery.Gives rangeSchema rangeDocument rangeArgument
      ⟨"range", .named "Range" true, none, .source "range" ⟨2, 19⟩⟩ :=
    .field (.fragment .own List.mem_cons_self rfl) List.mem_cons_self List.mem_cons_self rfl
  exact ⟨built_rangeSchema, hquiet, hassigns,
    arguments_accepted_after_substitution rangeSchema built_rangeSchema rangeDocument hquiet
      rangeQuery List.mem_cons_self rangeValues hassigns rangeArgument _ hgives⟩

end GraphQLCheck
