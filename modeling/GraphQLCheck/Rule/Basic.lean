import GraphQLCheck.Rule.Fragments
import GraphQLCheck.Rule.KnownNames
import GraphQLCheck.Rule.Operations
import GraphQLCheck.Rule.Overlap.Search
import GraphQLCheck.Rule.Selections
import GraphQLCheck.Rule.TypeConditions
import GraphQLCheck.Rule.Uniqueness
import GraphQLCheck.Rule.Values
import GraphQLCheck.Rule.Variables

/-!
# The rules

All rules by name, in the order of a full run.
-/

namespace GraphQLCheck

/-- The names of the rules. -/
inductive RuleName where
  /-- Arguments for known parameters are of the type of the parameter. -/
  | argumentsOfCorrectType
  /-- Default values are of the type of the variable, and required variables have none. -/
  | defaultValuesOfCorrectType
  /-- Fields are defined on the type that they are selected from. -/
  | fieldsOnCorrectType
  /-- Fragments apply to composite types. -/
  | fragmentsOnCompositeTypes
  /-- Arguments of known fields and directives name parameters. -/
  | knownArgumentNames
  /-- Directives are defined and stand where their definition allows it. -/
  | knownDirectives
  /-- References to fragments name fragments of the document. -/
  | knownFragmentNames
  /-- The types named by fragments and variables are defined. -/
  | knownTypeNames
  /-- An operation without a name is the only operation. -/
  | loneAnonymousOperation
  /-- No fragment contains itself. -/
  | noFragmentCycles
  /-- An operation defines the variables that it reaches. -/
  | noUndefinedVariables
  /-- Fragments are referred to somewhere. -/
  | noUnusedFragments
  /-- An operation reaches the variables that it defines. -/
  | noUnusedVariables
  /-- Fields under one response name can be merged. -/
  | overlappingFieldsCanBeMerged
  /-- Fragments stand where they can apply. -/
  | possibleFragmentSpreads
  /-- Required arguments are given. -/
  | providedNonNullArguments
  /-- Fields of leaf types have no selection set, and all other fields have one. -/
  | scalarLeafs
  /-- A subscription selects a single field. -/
  | singleFieldSubscriptions
  /-- The arguments of a field or directive have different names. -/
  | uniqueArgumentNames
  /-- A directive stands once at a node unless it is repeatable. -/
  | uniqueDirectivesPerLocation
  /-- Fragments have different names. -/
  | uniqueFragmentNames
  /-- The fields of an object literal have different names. -/
  | uniqueInputFieldNames
  /-- Operations have different names. -/
  | uniqueOperationNames
  /-- The variables of an operation have different names. -/
  | uniqueVariableNames
  /-- Variables are of input types. -/
  | variablesAreInputTypes
  /-- Variables stand where values of their type may stand. -/
  | variablesInAllowedPositions
  deriving DecidableEq, Repr, Inhabited

namespace RuleName

/-- All rules, in the order of a full run. -/
def all : List RuleName :=
  [uniqueOperationNames, loneAnonymousOperation, singleFieldSubscriptions, knownTypeNames,
    fragmentsOnCompositeTypes, variablesAreInputTypes, scalarLeafs, fieldsOnCorrectType,
    uniqueFragmentNames, knownFragmentNames, noUnusedFragments, possibleFragmentSpreads,
    noFragmentCycles, uniqueVariableNames, noUndefinedVariables, noUnusedVariables,
    knownDirectives, uniqueDirectivesPerLocation, knownArgumentNames, uniqueArgumentNames,
    argumentsOfCorrectType, providedNonNullArguments, defaultValuesOfCorrectType,
    variablesInAllowedPositions, overlappingFieldsCanBeMerged, uniqueInputFieldNames]

/-- The name as it is written. -/
def render : RuleName → String
  | argumentsOfCorrectType => "ArgumentsOfCorrectType"
  | defaultValuesOfCorrectType => "DefaultValuesOfCorrectType"
  | fieldsOnCorrectType => "FieldsOnCorrectType"
  | fragmentsOnCompositeTypes => "FragmentsOnCompositeTypes"
  | knownArgumentNames => "KnownArgumentNames"
  | knownDirectives => "KnownDirectives"
  | knownFragmentNames => "KnownFragmentNames"
  | knownTypeNames => "KnownTypeNames"
  | loneAnonymousOperation => "LoneAnonymousOperation"
  | noFragmentCycles => "NoFragmentCycles"
  | noUndefinedVariables => "NoUndefinedVariables"
  | noUnusedFragments => "NoUnusedFragments"
  | noUnusedVariables => "NoUnusedVariables"
  | overlappingFieldsCanBeMerged => "OverlappingFieldsCanBeMerged"
  | possibleFragmentSpreads => "PossibleFragmentSpreads"
  | providedNonNullArguments => "ProvidedNonNullArguments"
  | scalarLeafs => "ScalarLeafs"
  | singleFieldSubscriptions => "SingleFieldSubscriptions"
  | uniqueArgumentNames => "UniqueArgumentNames"
  | uniqueDirectivesPerLocation => "UniqueDirectivesPerLocation"
  | uniqueFragmentNames => "UniqueFragmentNames"
  | uniqueInputFieldNames => "UniqueInputFieldNames"
  | uniqueOperationNames => "UniqueOperationNames"
  | uniqueVariableNames => "UniqueVariableNames"
  | variablesAreInputTypes => "VariablesAreInputTypes"
  | variablesInAllowedPositions => "VariablesInAllowedPositions"

/-- The rule of a written name. -/
def ofName? (name : String) : Option RuleName := all.find? (·.render = name)

/-- What a rule reports. -/
def report : RuleName → Report
  | argumentsOfCorrectType => Rule.argumentsOfCorrectType
  | defaultValuesOfCorrectType => Rule.defaultValuesOfCorrectType
  | fieldsOnCorrectType => Rule.fieldsOnCorrectType
  | fragmentsOnCompositeTypes => Rule.fragmentsOnCompositeTypes
  | knownArgumentNames => Rule.knownArgumentNames
  | knownDirectives => Rule.knownDirectives
  | knownFragmentNames => Rule.knownFragmentNames
  | knownTypeNames => Rule.knownTypeNames
  | loneAnonymousOperation => Rule.loneAnonymousOperation
  | noFragmentCycles => Rule.noFragmentCycles
  | noUndefinedVariables => Rule.noUndefinedVariables
  | noUnusedFragments => Rule.noUnusedFragments
  | noUnusedVariables => Rule.noUnusedVariables
  | overlappingFieldsCanBeMerged => Rule.overlappingFieldsCanBeMerged
  | possibleFragmentSpreads => Rule.possibleFragmentSpreads
  | providedNonNullArguments => Rule.providedNonNullArguments
  | scalarLeafs => Rule.scalarLeafs
  | singleFieldSubscriptions => Rule.singleFieldSubscriptions
  | uniqueArgumentNames => Rule.uniqueArgumentNames
  | uniqueDirectivesPerLocation => Rule.uniqueDirectivesPerLocation
  | uniqueFragmentNames => Rule.uniqueFragmentNames
  | uniqueInputFieldNames => Rule.uniqueInputFieldNames
  | uniqueOperationNames => Rule.uniqueOperationNames
  | uniqueVariableNames => Rule.uniqueVariableNames
  | variablesAreInputTypes => Rule.variablesAreInputTypes
  | variablesInAllowedPositions => Rule.variablesInAllowedPositions

end RuleName

end GraphQLCheck
