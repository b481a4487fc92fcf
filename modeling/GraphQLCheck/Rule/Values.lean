import GraphQLCheck.Coercion
import GraphQLCheck.Rule.Report

/-!
# Values that are given

The rules that literals are of the type that is expected of them, and that required arguments are
given.
-/

namespace GraphQLCheck.Rule

/-- The faults of a literal, a line each. -/
def faultLines (faults : List CoercionFault) : String :=
  "\n".intercalate (faults.map (·.message))

/-- Arguments for known parameters are of the type of the parameter. -/
def argumentsOfCorrectType : Report :=
  Report.each fun setting visit =>
    match visit.hook with
    | .enter (.argument position a) =>
      match visit.scope.parameter? with
      | some parameter =>
        match Coercion.faults setting.schema a.value parameter.type with
        | [] => []
        | faults =>
          [⟨"Argument \"" ++ a.name ++ "\" has invalid value " ++ a.value.render ++ ".\n" ++
              faultLines faults,
            [⟨.argument, position⟩]⟩]
      | none => []
    | _ => []

/-- What is wrong with the default value of a variable. -/
def defaultFault? (schema : Schema) (v : VariableDefinition) (value : Literal) : Option String :=
  let subject := "Variable \"$" ++ v.name ++ "\" of type \"" ++ v.type.render ++ "\""
  if v.type.nullable then
    match Coercion.faults schema value v.type with
    | [] => none
    | faults =>
      some (subject ++ " has invalid default value " ++ value.render ++ ".\n" ++ faultLines faults)
  else
    some (subject ++ " is required and will not use the default value. " ++
      "Perhaps you meant to use type \"" ++ v.type.asNullable.render ++ "\".")

/-- Default values are of the type of the variable, and required variables have none. -/
def defaultValuesOfCorrectType : Report :=
  Report.each fun setting visit =>
    match visit.hook with
    | .enter (.variableDefinition v) =>
      match v.default?.bind (defaultFault? setting.schema v) with
      | some message => [⟨message, [v.ref, ⟨.value, v.position⟩]⟩]
      | none => []
    | _ => []

/-- The parameters that take no `null` and are not given, defaults or not. -/
def missing (parameters : List InputValue) (arguments : List Argument) : List InputValue :=
  parameters.filter fun p => !p.type.nullable && !arguments.any (·.name = p.name)

/-- The end of a message about a parameter that is not given. -/
def requiredArgument (p : InputValue) : String :=
  " argument \"" ++ p.name ++ "\" of type \"" ++ p.type.render ++ "\" is required but not provided."

/-- Required arguments are given. -/
def providedNonNullArguments : Report :=
  Report.each fun _ visit =>
    match visit.hook with
    | .leave (.directive d) =>
      match visit.scope.directive? with
      | some definition =>
        (missing definition.parameters d.arguments).map fun p =>
          ⟨"Directive \"@" ++ d.name ++ "\"" ++ requiredArgument p, [d.ref]⟩
      | none => []
    | .leave (.field f _) =>
      match visit.scope.field? with
      | some definition =>
        (missing definition.parameters f.arguments).map fun p =>
          ⟨"Field \"" ++ f.name ++ "\"" ++ requiredArgument p, [f.ref]⟩
      | none => []
    | _ => []

end GraphQLCheck.Rule
