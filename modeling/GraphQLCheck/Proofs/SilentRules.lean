import GraphQLCheck.Proofs.Reports

/-!
# What silent rules say

If a run reports nothing, each of its rules has found nothing at any visit. Here this is read off for
the rules that other statements rest on: one lemma for a rule and a kind of node, about the visits
of such nodes.
-/

namespace GraphQLCheck.Validation

variable {v : Validation} {schema : Schema} {d : Document} {s : Scope}

section Names

/-- Types that fragments and variables name are defined. -/
theorem type?_of_unknownType {name : String} {node : NodeRef}
    (h : Rule.unknownType schema name node = []) : ∃ t, schema.type? name = some t := by
  unfold Rule.unknownType at h
  split at h
  · rename_i t ht
    exact ⟨t, ht⟩
  · cases h

theorem known_fragmentDefinition (h : v.diagnostics schema d = [])
    (hr : .knownTypeNames ∈ v.rules) {f : FragmentDefinition}
    (hv : ⟨.enter (.fragmentDefinition f), s⟩ ∈ d.visits schema) :
    ∃ t, schema.type? f.condition = some t :=
  type?_of_unknownType (quiet_each h hr rfl hv)

theorem known_inline (h : v.diagnostics schema d = []) (hr : .knownTypeNames ∈ v.rules)
    {i : InlineFragment} (hv : ⟨.enter (.inline i), s⟩ ∈ d.visits schema) {name : String}
    (hname : i.condition? = some name) : ∃ t, schema.type? name = some t := by
  have hquiet := quiet_each h hr rfl hv
  simp only [hname] at hquiet
  exact type?_of_unknownType hquiet

theorem known_variableDefinition (h : v.diagnostics schema d = [])
    (hr : .knownTypeNames ∈ v.rules) {x : VariableDefinition}
    (hv : ⟨.enter (.variableDefinition x), s⟩ ∈ d.visits schema) :
    ∃ t, schema.type? x.type.innermost = some t :=
  type?_of_unknownType (quiet_each h hr rfl hv)

/-- Directives are defined and stand where they are allowed. -/
theorem known_directive (h : v.diagnostics schema d = []) (hr : .knownDirectives ∈ v.rules)
    {directive : Directive} (hv : ⟨.enter (.directive directive), s⟩ ∈ d.visits schema) :
    ∃ definition, s.directive? = some definition ∧
      ∀ location, s.directiveLocation? = some location → location ∈ definition.locations := by
  have hquiet := quiet_each h hr rfl hv
  dsimp only at hquiet
  split at hquiet
  · cases hquiet
  · rename_i definition location hdefinition hlocation
    split_ifs at hquiet with hmem
    refine ⟨definition, hdefinition, fun other hother => ?_⟩
    rw [hlocation] at hother
    exact Option.some.inj hother ▸ hmem
  · rename_i definition hdefinition hlocation
    refine ⟨definition, hdefinition, fun other hother => ?_⟩
    rw [hlocation] at hother
    cases hother

/-- References name fragments of the document. -/
theorem known_fragment (h : v.diagnostics schema d = []) (hr : .knownFragmentNames ∈ v.rules)
    {node : FragmentSpread} (hv : ⟨.enter (.spread node), s⟩ ∈ d.visits schema) :
    ∃ f, d.fragment? node.name = some f := by
  have hquiet := quiet_each h hr rfl hv
  dsimp only at hquiet
  split at hquiet
  · rename_i f hf
    exact ⟨f, hf⟩
  · cases hquiet

/-- Arguments of what is known name parameters. -/
theorem known_argument (h : v.diagnostics schema d = []) (hr : .knownArgumentNames ∈ v.rules)
    {position : Position} {a : Argument}
    (hv : ⟨.enter (.argument position a), s⟩ ∈ d.visits schema) {owner : Rule.ArgumentOwner}
    (howner : Rule.argumentOwner? s = some owner) : ∃ p, s.parameter? = some p := by
  have hquiet := quiet_each h hr rfl hv
  simp only [howner] at hquiet
  cases hp : s.parameter? with
  | none =>
    rw [hp] at hquiet
    cases hquiet
  | some p => exact ⟨p, rfl⟩

end Names

section Types

theorem composite_of_not_isNotComposite {name : String} {t : TypeDefinition}
    (ht : schema.type? name = some t) (h : ¬ Rule.isNotComposite schema name = true) :
    t.isComposite = true := by
  simpa [Rule.isNotComposite, ht] using h

/-- Fragments apply to composite types. -/
theorem composite_fragmentDefinition (h : v.diagnostics schema d = [])
    (hr : .fragmentsOnCompositeTypes ∈ v.rules) {f : FragmentDefinition}
    (hv : ⟨.enter (.fragmentDefinition f), s⟩ ∈ d.visits schema) {t : TypeDefinition}
    (ht : schema.type? f.condition = some t) : t.isComposite = true := by
  have hquiet := quiet_each h hr rfl hv
  dsimp only at hquiet
  split_ifs at hquiet with hcomposite
  exact composite_of_not_isNotComposite ht hcomposite

theorem composite_inline (h : v.diagnostics schema d = [])
    (hr : .fragmentsOnCompositeTypes ∈ v.rules) {i : InlineFragment}
    (hv : ⟨.enter (.inline i), s⟩ ∈ d.visits schema) {name : String}
    (hname : i.condition? = some name) {t : TypeDefinition} (ht : schema.type? name = some t) :
    t.isComposite = true := by
  have hquiet := quiet_each h hr rfl hv
  simp only [hname] at hquiet
  split_ifs at hquiet with hcomposite
  exact composite_of_not_isNotComposite ht hcomposite

/-- Fragments stand where they can apply. -/
theorem overlap_spread (h : v.diagnostics schema d = [])
    (hr : .possibleFragmentSpreads ∈ v.rules) {node : FragmentSpread}
    (hv : ⟨.enter (.spread node), s⟩ ∈ d.visits schema) {f : FragmentDefinition}
    (hf : d.fragment? node.name = some f) {type parent : TypeDefinition}
    (htype : schema.type? f.condition = some type) (hcomposite : type.isComposite = true)
    (hparent : s.parent? = some parent) : schema.overlap type parent = true := by
  have hcondition : ((Setting.of schema d).document.fragment? node.name).bind
      ((Setting.of schema d).schema.type? ·.condition) = some type :=
    Option.bind_eq_some_iff.mpr ⟨f, hf, htype⟩
  have hquiet := quiet_each h hr rfl hv
  simp only [hcondition, hparent] at hquiet
  split_ifs at hquiet with hnever
  change ¬ Rule.neverApplies schema type parent = true at hnever
  simpa [Rule.neverApplies, hcomposite] using hnever

/-- A field is defined on the type that it is selected from. -/
theorem field_defined (h : v.diagnostics schema d = []) (hr : .fieldsOnCorrectType ∈ v.rules)
    {f : Field} {set : SelectionSet} (hv : ⟨.enter (.field f set), s⟩ ∈ d.visits schema)
    {parent : TypeDefinition} (hparent : s.parent? = some parent) :
    ∃ definition, s.field? = some definition := by
  have hquiet := quiet_each h hr rfl hv
  simp only [hparent] at hquiet
  cases hfield : s.field? with
  | none =>
    rw [hfield] at hquiet
    cases hquiet
  | some definition => exact ⟨definition, rfl⟩

/-- A field selects something exactly if its type is no leaf. -/
theorem selects_iff_not_leaf (h : v.diagnostics schema d = []) (hr : .scalarLeafs ∈ v.rules)
    {f : Field} {set : SelectionSet} (hv : ⟨.enter (.field f set), s⟩ ∈ d.visits schema)
    {type : TypeDefinition} {definition : FieldDefinition} (htype : s.type? = some type)
    (hfield : s.field? = some definition) : set.items ≠ [] ↔ type.isLeaf = false := by
  have hquiet := quiet_each h hr rfl hv
  simp only [htype, hfield] at hquiet
  cases hleaf : type.isLeaf <;> cases hitems : set.items <;> simp_all

end Types

section Values

/-- An argument for a known parameter is of its type. -/
theorem faults_argument (h : v.diagnostics schema d = []) (hr : .argumentsOfCorrectType ∈ v.rules)
    {position : Position} {a : Argument}
    (hv : ⟨.enter (.argument position a), s⟩ ∈ d.visits schema) {p : InputValue}
    (hp : s.parameter? = some p) : Coercion.faults schema a.value p.type = [] := by
  have hquiet := quiet_each h hr rfl hv
  simp only [hp] at hquiet
  split at hquiet
  · assumption
  · cases hquiet

/-- An operation defines the variables that it reaches. -/
theorem declared_use (h : v.diagnostics schema d = []) (hr : .noUndefinedVariables ∈ v.rules)
    {index : ℕ} {o : Operation} (hv : ⟨.enter (.operation index o), s⟩ ∈ d.visits schema)
    {u : VariableUse} (hu : u ∈ (Setting.of schema d).usesOf index) :
    ∃ x ∈ o.declared, x.name = u.name := by
  have hquiet := quiet_each h hr rfl hv
  rw [List.map_eq_nil_iff, List.filter_eq_nil_iff] at hquiet
  simpa using hquiet u hu

/-- A variable stands where a value of its type may stand. -/
theorem not_misplaced (h : v.diagnostics schema d = [])
    (hr : .variablesInAllowedPositions ∈ v.rules) {index : ℕ} {o : Operation}
    (hv : ⟨.leave (.operation index o), s⟩ ∈ d.visits schema) {u : VariableUse}
    (hu : u ∈ (Setting.of schema d).usesOf index) : Rule.misplaced schema o u = [] :=
  List.flatMap_eq_nil_iff.mp (quiet_each h hr rfl hv) u hu

theorem given_of_missing {parameters : List InputValue} {arguments : List Argument}
    (h : Rule.missing parameters arguments = []) {p : InputValue} (hp : p ∈ parameters)
    (hrequired : p.type.nullable = false) : ∃ a ∈ arguments, a.name = p.name := by
  have hnot := List.filter_eq_nil_iff.mp h p hp
  simpa [hrequired] using hnot

/-- The required arguments of a field are given. -/
theorem given_field (h : v.diagnostics schema d = []) (hr : .providedNonNullArguments ∈ v.rules)
    {f : Field} {set : SelectionSet} (hv : ⟨.leave (.field f set), s⟩ ∈ d.visits schema)
    {definition : FieldDefinition} (hfield : s.field? = some definition) {p : InputValue}
    (hp : p ∈ definition.parameters) (hrequired : p.type.nullable = false) :
    ∃ a ∈ f.arguments, a.name = p.name := by
  have hquiet := quiet_each h hr rfl hv
  simp only [hfield, List.map_eq_nil_iff] at hquiet
  exact given_of_missing hquiet hp hrequired

end Values

end GraphQLCheck.Validation
