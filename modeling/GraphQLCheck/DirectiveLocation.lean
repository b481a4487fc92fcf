/-!
# Where directives may stand

The places at which a directive can be used, in executable documents and in schemas, with the names
by which a directive definition lists them.
-/

namespace GraphQLCheck

/-- A place at which a directive can be used. -/
inductive DirectiveLocation where
  /-- The definition of an argument. -/
  | argumentDefinition
  /-- An enum. -/
  | enum
  /-- A value of an enum. -/
  | enumValue
  /-- A field of a selection set. -/
  | field
  /-- The definition of a field. -/
  | fieldDefinition
  /-- The definition of a fragment. -/
  | fragmentDefinition
  /-- A reference to a fragment. -/
  | fragmentSpread
  /-- A fragment written in place. -/
  | inlineFragment
  /-- A field of an input object. -/
  | inputFieldDefinition
  /-- An input object. -/
  | inputObject
  /-- An interface. -/
  | interface
  /-- A mutation. -/
  | mutation
  /-- An object type. -/
  | object
  /-- A query. -/
  | query
  /-- A scalar. -/
  | scalar
  /-- The block that names the root types. -/
  | schema
  /-- A subscription. -/
  | subscription
  /-- A union. -/
  | union
  /-- The definition of a variable. -/
  | variableDefinition
  deriving DecidableEq, Repr, Inhabited

namespace DirectiveLocation

/-- All locations, by the order of their names. -/
def all : List DirectiveLocation :=
  [argumentDefinition, enum, enumValue, field, fieldDefinition, fragmentDefinition, fragmentSpread,
    inlineFragment, inputFieldDefinition, inputObject, interface, mutation, object, query, scalar,
    schema, subscription, union, variableDefinition]

/-- The name of a location. -/
def render : DirectiveLocation → String
  | argumentDefinition => "ARGUMENT_DEFINITION"
  | enum => "ENUM"
  | enumValue => "ENUM_VALUE"
  | field => "FIELD"
  | fieldDefinition => "FIELD_DEFINITION"
  | fragmentDefinition => "FRAGMENT_DEFINITION"
  | fragmentSpread => "FRAGMENT_SPREAD"
  | inlineFragment => "INLINE_FRAGMENT"
  | inputFieldDefinition => "INPUT_FIELD_DEFINITION"
  | inputObject => "INPUT_OBJECT"
  | interface => "INTERFACE"
  | mutation => "MUTATION"
  | object => "OBJECT"
  | query => "QUERY"
  | scalar => "SCALAR"
  | schema => "SCHEMA"
  | subscription => "SUBSCRIPTION"
  | union => "UNION"
  | variableDefinition => "VARIABLE_DEFINITION"

/-- The location of a given name. -/
def ofName? (name : String) : Option DirectiveLocation := all.find? (·.render = name)

/-- Whether the location is one of executable documents. -/
def isExecutable : DirectiveLocation → Bool
  | field | fragmentDefinition | fragmentSpread | inlineFragment | mutation | query | subscription
  | variableDefinition => true
  | _ => false

end DirectiveLocation

end GraphQLCheck
