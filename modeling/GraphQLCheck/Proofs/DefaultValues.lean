import GraphQLCheck.Proofs.KnownScopes
import GraphQLCheck.Proofs.UniqueNames
import GraphQLCheck.Proofs.VariableOccurrences
import GraphQLCheck.Proofs.VariableSoundness

/-!
# Default values where they flow

The default value of a variable is checked against the type of the variable, and a use of the
variable against that type without `null`, because the default stands in for a missing value. So the
default itself should be of the type that the use expects.

## What is proved

* `expectsValues_variableUses` — a type that is expected of a variable is of values that can be
  given, at every use that an operation reaches.
* `faults_asNonNull` — taking `null` away from a type changes nothing for other literals.
* `default_accepted_iff` — in a silent run a default value is of the type expected at each use of
  its variable, unless it is `null` and the use takes none.
* `null_default_flows_into_required` — that exception is real: nothing is reported then.
-/

namespace GraphQLCheck

/-! ### The types expected of variables -/

namespace VariableUse

variable {schema : Schema} {u : VariableUse}

/-- The type expected at a use, if it is known, is of values that can be given. -/
def ExpectsValues (schema : Schema) (u : VariableUse) : Prop :=
  ∀ type, u.expected? = some type → schema.TakesValues type.innermost

/-- The uses in arguments expect values, if the parameters take values. -/
theorem expectsValues_inArguments (hclosed : schema.Closed) {position : Position}
    {parameter? : String → Option InputValue} {list : List Argument}
    (hparameter : ∀ name p, parameter? name = some p → schema.TakesValues p.type.innermost)
    (hu : u ∈ inArguments schema position parameter? list) : u.ExpectsValues schema := by
  obtain ⟨a, -, hu⟩ := List.mem_flatMap.mp hu
  refine takesValues_of_mem_inLiteral hclosed (fun type htype => ?_) hu
  obtain ⟨p, hp, rfl⟩ := Option.map_eq_some_iff.mp htype
  exact hparameter a.name p hp

theorem expectsValues_inDirectives (hclosed : schema.Closed) {list : List Directive}
    (hu : u ∈ inDirectives schema list) : u.ExpectsValues schema := by
  obtain ⟨directive, -, hu⟩ := List.mem_flatMap.mp hu
  refine expectsValues_inArguments hclosed (fun name p hp => ?_) hu
  obtain ⟨definition, hdefinition, hp⟩ := Option.bind_eq_some_iff.mp hp
  exact hclosed.takesValues_of_directive? hdefinition hp

theorem expectsValues_inField (hclosed : schema.Closed) {parent? : Option TypeDefinition}
    {node : Field} (hu : u ∈ inField schema (parent?.bind (schema.selectedField? · node.name)) node) :
    u.ExpectsValues schema := by
  refine expectsValues_inArguments hclosed (fun name p hp => ?_) hu
  obtain ⟨definition, hdefinition, hp⟩ := Option.bind_eq_some_iff.mp hp
  obtain ⟨parent, -, hselected⟩ := Option.bind_eq_some_iff.mp hdefinition
  exact hclosed.takesValues_of_selectedField? hselected hp

theorem expectsValues_usesInSet (hclosed : schema.Closed) {parent? : Option TypeDefinition}
    {items : List Selection} (hu : u ∈ usesInSet schema parent? items) :
    u.ExpectsValues schema := by
  induction items using Selection.items_induction generalizing parent? with
  | nil => cases hu
  | field node span own rest ihOwn ihRest =>
    rw [usesInSet, usesInSelection, List.mem_append, List.mem_append, List.mem_append] at hu
    rcases hu with ((hu | hu) | hu) | hu
    · exact expectsValues_inField hclosed hu
    · exact expectsValues_inDirectives hclosed hu
    · exact ihOwn hu
    · exact ihRest hu
  | spread node rest ihRest =>
    rw [usesInSet, usesInSelection, List.mem_append] at hu
    rcases hu with hu | hu
    · exact expectsValues_inDirectives hclosed hu
    · exact ihRest hu
  | inline node span own rest ihOwn ihRest =>
    rw [usesInSet, usesInSelection, List.mem_append, List.mem_append] at hu
    rcases hu with (hu | hu) | hu
    · exact expectsValues_inDirectives hclosed hu
    · exact ihOwn hu
    · exact ihRest hu

theorem expectsValues_usesInFragment (hclosed : schema.Closed) {d : Document} {name : String}
    (hu : u ∈ usesInFragment schema d name) : u.ExpectsValues schema := by
  unfold usesInFragment at hu
  split at hu
  · rcases List.mem_append.mp hu with hu | hu
    · exact expectsValues_inDirectives hclosed hu
    · exact expectsValues_usesInSet hclosed hu
  · cases hu

end VariableUse

open VariableUse in
/-- Every use that an operation reaches expects values that can be given. -/
theorem Operation.expectsValues_variableUses {schema : Schema} (hclosed : schema.Closed)
    {d : Document} {o : Operation} {u : VariableUse} (hu : u ∈ o.variableUses schema d) :
    u.ExpectsValues schema := by
  have hmem := (o.collects_found schema d).uses.subset hu
  rw [List.mem_append, List.mem_append, List.mem_flatMap] at hmem
  rcases hmem with hu | hu | ⟨name, -, hu⟩
  · exact expectsValues_inDirectives hclosed hu
  · exact expectsValues_usesInSet hclosed hu
  · exact expectsValues_usesInFragment hclosed hu

/-! ### Types without `null` -/

namespace TypeRef

@[simp]
theorem innermost_asNonNull (t : TypeRef) : t.asNonNull.innermost = t.innermost := by
  cases t <;> rfl

end TypeRef

/-- Taking `null` away from a type changes nothing for the other literals. -/
theorem Coercion.faults_asNonNull {value : Literal} (h : value ≠ .atom .null) (schema : Schema)
    (type : TypeRef) : faults schema value type.asNonNull = faults schema value type := by
  cases value with
  | atom a =>
    cases a with
    | null => exact absurd rfl h
    | var name => rfl
    | int _ | float _ | string _ | bool _ | enum _ =>
      simp only [faults, TypeRef.innermost_asNonNull]
  | list items => cases type <;> rfl
  | object fields => simp only [faults, TypeRef.innermost_asNonNull]

/-! ### What silent rules say about default values -/

variable {schema : Schema} {d : Document} {o : Operation} {x : VariableDefinition}

namespace Validation

variable {v : Validation} {s : Scope}

/-- A default value is of the type of its variable, and that takes `null`. -/
theorem default_of_type (h : v.diagnostics schema d = [])
    (hr : .defaultValuesOfCorrectType ∈ v.rules)
    (hv : ⟨.enter (.variableDefinition x), s⟩ ∈ d.visits schema) {value : Literal}
    (hvalue : x.default? = some value) :
    x.type.nullable = true ∧ Coercion.faults schema value x.type = [] := by
  have hquiet := quiet_each h hr rfl hv
  have hfault : Rule.defaultFault? schema x value = none := by
    simp only [hvalue, Option.bind_some] at hquiet
    split at hquiet
    · cases hquiet
    · assumption
  unfold Rule.defaultFault? at hfault
  split_ifs at hfault with hnullable
  refine ⟨hnullable, ?_⟩
  split at hfault
  · assumption
  · cases hfault

end Validation

/-- The last definition of a variable is the only one, if names are not repeated. -/
theorem Rule.definitionOf?_eq_some (hnodup : (o.declared.map (·.name)).Nodup) (hx : x ∈ o.declared) :
    definitionOf? o x.name = some x := by
  obtain ⟨y, hy, hmem, hname⟩ := exists_definitionOf? ⟨x, hx, rfl⟩
  rw [hy, List.inj_on_of_nodup_map hnodup hmem hx hname]

/-- The type that a variable with a default value has in effect takes no `null`. -/
theorem Rule.effectiveType_of_default {value : Literal} (hvalue : x.default? = some value)
    (hnullable : x.type.nullable = true) : effectiveType x = x.type.asNonNull := by
  simp [effectiveType, hvalue, hnullable]

/-- If the rules are silent, what a variable has in effect may stand wherever it is used. -/
theorem isSubtype_of_use (hquiet : Validation.full.diagnostics schema d = [])
    (ho : o ∈ d.operations) (hx : x ∈ o.declared) {u : VariableUse}
    (hu : u ∈ o.variableUses schema d) (hname : u.name = x.name) {type : TypeRef}
    (htype : u.expected? = some type) : (Rule.effectiveType x).isSubtype schema type = true := by
  obtain ⟨index, s, huses, henter, hleave, hdeclared⟩ := Operation.visited schema ho
  obtain ⟨s', hs'⟩ := hdeclared x hx
  obtain ⟨t, ht⟩ := Validation.known_variableDefinition hquiet (Validation.mem_full _) hs'
  have hnodup := Validation.nodup_declared hquiet (Validation.mem_full _) henter
  have hplaced := Validation.not_misplaced hquiet (Validation.mem_full _) hleave (huses ▸ hu)
  simp only [Rule.misplaced, hname, Rule.definitionOf?_eq_some hnodup hx, htype, ht] at hplaced
  split_ifs at hplaced with hsub
  exact hsub

/-- If a run with all rules is silent, the default value of a variable is of the type expected at
each use of the variable that its operation reaches, except for `null` where the type takes none. -/
theorem default_accepted_iff (schema : Schema) (hbuilt : schema.Built) (d : Document)
    (hquiet : Validation.full.diagnostics schema d = []) (o : Operation) (ho : o ∈ d.operations)
    (x : VariableDefinition) (hx : x ∈ o.declared) (value : Literal)
    (hvalue : x.default? = some value) (u : VariableUse) (hu : u ∈ o.variableUses schema d)
    (hname : u.name = x.name) (type : TypeRef) (htype : u.expected? = some type) :
    Coercion.faults schema value type = [] ↔ ¬ (value = .atom .null ∧ type.nullable = false) := by
  by_cases hnull : value = .atom .null
  · subst hnull
    cases hnullable : type.nullable <;> simp [Coercion.faults, hnullable]
  · obtain ⟨index, s, -, -, -, hdeclared⟩ := Operation.visited schema ho
    obtain ⟨s', hs'⟩ := hdeclared x hx
    obtain ⟨hnullable, haccepted⟩ :=
      Validation.default_of_type hquiet (Validation.mem_full _) hs' hvalue
    have hsub := isSubtype_of_use hquiet ho hx hu hname htype
    rw [Rule.effectiveType_of_default hvalue hnullable] at hsub
    rw [← Coercion.faults_asNonNull hnull schema] at haccepted
    have htakes := Operation.expectsValues_variableUses hbuilt.closed hu type htype
    exact iff_of_true (Coercion.faults_of_isSubtype htakes hsub haccepted) fun h => hnull h.1

/-! ### Two default values for a required parameter -/

/-- A field with a required parameter. -/
def limitTypes : List Sdl.Definition :=
  [.type ⟨⟨1, 1⟩, "Query", .object []
      [⟨⟨1, 14⟩, "top", [⟨⟨1, 18⟩, "limit", .named "Int" false, none⟩], .named "Int" true, []⟩]⟩]

/-- The schema of these definitions. -/
def limitSchema : Schema := (Schema.ofDefinitions "limit" limitTypes).toOption.getD default

theorem built_limitSchema : limitSchema.Built := by
  have hbuild : Schema.ofDefinitions "limit" limitTypes = .ok limitSchema := rfl
  exact Schema.built_of_ofDefinitions hbuild

/-- A variable that may be `null`, with a default value. -/
def limitVariable (default : Atom) : VariableDefinition :=
  ⟨⟨1, 7⟩, "limit", .named "Int" true, some (.atom default)⟩

/-- A query that passes the variable on to the parameter. -/
def limitQuery (default : Atom) : Operation :=
  { kind := .query
    position := ⟨1, 1⟩
    name? := none
    declared := [limitVariable default]
    directives := []
    selectionSet := ⟨⟨⟨1, 27⟩, ⟨1, 48⟩⟩,
      [.field ⟨⟨1, 29⟩, none, "top", [⟨"limit", .atom (.var "limit")⟩], []⟩
        ⟨⟨1, 29⟩, ⟨1, 29⟩⟩ []]⟩ }

/-- The document of this query alone. -/
def limitDocument (default : Atom) : Document := ⟨[.operation (limitQuery default)], []⟩

/-- The variable where it is used. -/
def limitUse : VariableUse := ⟨"limit", some (.named "Int" false), ⟨1, 29⟩⟩

/-- A number as the default value of a variable that may be `null`, passed on to a parameter that
may not. -/
theorem default_accepted_ten :
    limitSchema.Built ∧ Validation.full.diagnostics limitSchema (limitDocument (.int 10)) = [] ∧
      limitUse ∈ (limitQuery (.int 10)).variableUses limitSchema (limitDocument (.int 10)) ∧
      Coercion.faults limitSchema (.atom (.int 10)) (.named "Int" false) = [] := by
  have hquiet : Validation.full.diagnostics limitSchema (limitDocument (.int 10)) = [] := by
    decide +kernel
  have huse : limitUse ∈ (limitQuery (.int 10)).variableUses limitSchema (limitDocument (.int 10)) := by
    decide +kernel
  have hten : ¬ (Literal.atom (.int 10) = .atom .null ∧ (TypeRef.named "Int" false).nullable = false) := by
    simp
  exact ⟨built_limitSchema, hquiet, huse,
    (default_accepted_iff limitSchema built_limitSchema _ hquiet (limitQuery (.int 10))
      List.mem_cons_self (limitVariable (.int 10)) List.mem_cons_self _ rfl limitUse huse rfl _
      rfl).mpr hten⟩

/-- With `null` for the default value nothing is reported either, and the parameter does not take
it. -/
theorem null_default_flows_into_required :
    limitSchema.Built ∧ Validation.full.diagnostics limitSchema (limitDocument .null) = [] ∧
      limitQuery .null ∈ (limitDocument .null).operations ∧
      limitVariable .null ∈ (limitQuery .null).declared ∧
      (limitVariable .null).default? = some (.atom .null) ∧
      limitUse ∈ (limitQuery .null).variableUses limitSchema (limitDocument .null) ∧
      limitUse.name = (limitVariable .null).name ∧
      limitUse.expected? = some (.named "Int" false) ∧
      Coercion.faults limitSchema (.atom .null) (.named "Int" false) ≠ [] := by
  have hquiet : Validation.full.diagnostics limitSchema (limitDocument .null) = [] := by
    decide +kernel
  have huse : limitUse ∈ (limitQuery .null).variableUses limitSchema (limitDocument .null) := by
    decide +kernel
  exact ⟨built_limitSchema, hquiet, List.mem_cons_self, List.mem_cons_self, rfl, huse, rfl, rfl,
    List.cons_ne_nil _ _⟩

end GraphQLCheck
