import GraphQLCheck.Rule.Report
import GraphQLCheck.Suggestion

/-!
# Names that are defined

The rules that a name used in a document is defined: types, directives, fragments and parameters in
the schema or in the document. A message about an unknown name suggests similar names.
-/

namespace GraphQLCheck.Rule

/-- The end of a message about an unknown name: similar names, if there are any. -/
def hint (name : String) (known : List String) : String :=
  Suggestion.didYouMean (Suggestion.choose name known)

/-- The finding about a type of a given name, if there is no such type. -/
def unknownType (schema : Schema) (name : String) (node : NodeRef) : List Finding :=
  match schema.type? name with
  | some _ => []
  | none => [⟨"Unknown type \"" ++ name ++ "\"." ++ hint name schema.typeNames, [node]⟩]

/-- The types named by fragments and variables are defined. -/
def knownTypeNames : Report :=
  Report.each fun setting visit =>
    match visit.hook with
    | .enter (.fragmentDefinition f) =>
      unknownType setting.schema f.condition ⟨.typeCondition, f.position⟩
    | .enter (.inline i) =>
      match i.condition? with
      | some name => unknownType setting.schema name ⟨.typeCondition, i.position⟩
      | none => []
    | .enter (.variableDefinition v) => unknownType setting.schema v.type.innermost v.ref
    | _ => []

/-- Directives are defined and stand where their definition allows it. -/
def knownDirectives : Report :=
  Report.each fun setting visit =>
    match visit.hook with
    | .enter (.directive d) =>
      match visit.scope.directive?, visit.scope.directiveLocation? with
      | none, _ =>
        [⟨"Unknown directive \"" ++ d.name ++ "\"." ++ hint d.name setting.schema.directiveNames,
          [d.ref]⟩]
      | some definition, some location =>
        if location ∈ definition.locations then []
        else
          [⟨"Directive \"" ++ d.name ++ "\" may not be used on " ++ location.render ++ ".",
            [d.ref]⟩]
      | some _, none => []
    | _ => []

/-- References to fragments name fragments of the document. -/
def knownFragmentNames : Report :=
  Report.each fun setting visit =>
    match visit.hook with
    | .enter (.spread s) =>
      match setting.document.fragment? s.name with
      | some _ => []
      | none =>
        [⟨"Unknown fragment \"" ++ s.name ++ "\"." ++
            hint s.name (setting.document.knownFragments.map (·.name)),
          [s.ref]⟩]
    | _ => []

/-- What an argument is given to. -/
inductive ArgumentOwner where
  /-- A directive. -/
  | directive (definition : DirectiveDefinition)
  /-- A field, selected from a type. -/
  | field (definition : FieldDefinition) (parent : TypeDefinition)
  deriving Repr, Inhabited

/-- What the argument at hand is given to, if that is known. -/
def argumentOwner? (scope : Scope) : Option ArgumentOwner :=
  match scope.ancestors with
  | .argument :: .field :: _ =>
    match scope.field?, scope.parent? with
    | some definition, some parent => some (.field definition parent)
    | _, _ => none
  | .argument :: .directive :: _ => scope.directive?.map .directive
  | _ => none

/-- The message about an argument without a parameter. -/
def unknownArgument (name : String) : ArgumentOwner → String
  | .directive definition =>
    "Unknown argument \"" ++ name ++ "\" on directive \"@" ++ definition.name ++ "\"." ++
      hint name (definition.parameters.map (·.name))
  | .field definition parent =>
    "Unknown argument \"" ++ name ++ "\" on field \"" ++ definition.name ++ "\" of type \"" ++
      parent.name ++ "\"." ++ hint name (definition.parameters.map (·.name))

/-- Arguments of known fields and directives name parameters. -/
def knownArgumentNames : Report :=
  Report.each fun _ visit =>
    match visit.hook with
    | .enter (.argument position a) =>
      match visit.scope.parameter?, argumentOwner? visit.scope with
      | none, some owner => [⟨unknownArgument a.name owner, [⟨.argument, position⟩]⟩]
      | _, _ => []
    | _ => []

end GraphQLCheck.Rule
