import GraphQLCheck.Rule.Report
import GraphQLCheck.Schema.Subtyping

/-!
# Variables of operations

The rules that variables are of input types, that an operation defines the variables that it reaches
and reaches those that it defines, and that a variable stands only where a value of its type may
stand.
-/

namespace GraphQLCheck.Rule

/-- Variables are of input types. Unknown types are not judged. -/
def variablesAreInputTypes : Report :=
  Report.each fun setting visit =>
    match visit.hook with
    | .enter (.variableDefinition v) =>
      if (setting.schema.type? v.type.innermost).any fun type => !type.isInput then
        [⟨"Variable \"$" ++ v.name ++ "\" cannot be non-input type \"" ++ v.type.render ++ "\".",
          [v.ref]⟩]
      else []
    | _ => []

/-- The words between a verb and the name of an operation, or nothing if it has no name. -/
def namedOperation (preposition : String) (o : Operation) : String :=
  match o.name? with
  | some name => " " ++ preposition ++ " operation \"" ++ name ++ "\"."
  | none => "."

/-- An operation defines the variables that it reaches. -/
def noUndefinedVariables : Report :=
  Report.each fun setting visit =>
    match visit.hook with
    | .enter (.operation index o) =>
      ((setting.usesOf index).filter fun u => !o.declared.any (·.name = u.name)).map fun u =>
        ⟨"Variable \"$" ++ u.name ++ "\" is not defined" ++ namedOperation "by" o, [u.ref, o.ref]⟩
    | _ => []

/-- An operation reaches the variables that it defines. -/
def noUnusedVariables : Report :=
  Report.each fun setting visit =>
    match visit.hook with
    | .leave (.operation index o) =>
      (o.declared.filter fun v => !(setting.usesOf index).any (·.name = v.name)).map fun v =>
        ⟨"Variable \"$" ++ v.name ++ "\" is never used" ++ namedOperation "in" o, [v.ref]⟩
    | _ => []

/-- The type of the values that a variable has in effect: with a default value it is never
missing. -/
def effectiveType (v : VariableDefinition) : TypeRef :=
  if v.default?.isSome && v.type.nullable then v.type.asNonNull else v.type

/-- The last definition of a variable of an operation. -/
def definitionOf? (o : Operation) (name : String) : Option VariableDefinition :=
  o.declared.reverse.find? (·.name = name)

/-- What is wrong with a use of a variable. Uses where no type is expected and variables of unknown
types are not judged. -/
def misplaced (schema : Schema) (o : Operation) (u : VariableUse) : List Finding :=
  match definitionOf? o u.name, u.expected? with
  | some v, some expected =>
    match schema.type? v.type.innermost with
    | some _ =>
      if (effectiveType v).isSubtype schema expected then []
      else
        [⟨"Variable \"$" ++ u.name ++ "\" of type \"" ++ v.type.render ++
            "\" used in position expecting type \"" ++ expected.render ++ "\".",
          [v.ref, u.ref]⟩]
    | none => []
  | _, _ => []

/-- Variables stand where values of their type may stand. -/
def variablesInAllowedPositions : Report :=
  Report.each fun setting visit =>
    match visit.hook with
    | .leave (.operation index o) =>
      (setting.usesOf index).flatMap (misplaced setting.schema o)
    | _ => []

end GraphQLCheck.Rule
