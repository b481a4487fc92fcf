import GraphQLCheck.Schema.Basic

/-!
# What every schema has

The five builtin scalars, with which every registry of types starts, and the four builtin
directives, with which every registry of directives ends.
-/

namespace GraphQLCheck

namespace BuiltinScalar

/-- The builtin scalars in the order of the registry. -/
def all : List BuiltinScalar := [boolean, float, id, int, string]

/-- The name of a builtin scalar. -/
def name : BuiltinScalar → String
  | boolean => "Boolean"
  | float => "Float"
  | id => "ID"
  | int => "Int"
  | string => "String"

/-- A builtin scalar as a type of a schema. -/
def definition (s : BuiltinScalar) : TypeDefinition := ⟨s.name, .builtin, .builtin s⟩

end BuiltinScalar

namespace DirectiveDefinition

/-- A builtin directive with one parameter. -/
def builtin (name : String) (locations : List DirectiveLocation) (parameter : String)
    (type : TypeRef) (default? : Option Literal) : DirectiveDefinition :=
  { name
    parameters := [⟨parameter, type, default?, .builtin⟩]
    repeatable := false
    locations
    location := .builtin }

/-- Where a selection can be left out. -/
def selectionLocations : List DirectiveLocation := [.field, .fragmentSpread, .inlineFragment]

/-- The builtin directives. -/
def builtins : List DirectiveDefinition :=
  [builtin "skip" selectionLocations "if" (.named "Boolean" false) none,
    builtin "include" selectionLocations "if" (.named "Boolean" false) none,
    builtin "deprecated" [.argumentDefinition, .enumValue, .fieldDefinition, .inputFieldDefinition]
      "reason" (.named "String" true) (some (.atom (.string Deprecation.defaultReason))),
    builtin "specifiedBy" [.scalar] "url" (.named "String" false) none]

end DirectiveDefinition

end GraphQLCheck
