import GraphQLCheck.DirectiveLocation
import GraphQLCheck.Document.Basic

/-!
# Schemas

The definitions of a schema and the ways to look them up. The registry of types and that of
directives are in the order of definition, each definition under its own name; the possible types of
an interface or union are kept in an index.
-/

namespace GraphQLCheck

/-! ### Kinds of types -/

/-- The kinds of types. -/
inductive TypeKind where
  /-- A scalar, builtin or defined. -/
  | scalar
  /-- An object type. -/
  | object
  /-- An interface. -/
  | interface
  /-- A union. -/
  | union
  /-- An enum. -/
  | enum
  /-- An input object. -/
  | inputObject
  deriving DecidableEq, Repr, Inhabited

namespace TypeKind

/-- The keyword of a definition of this kind. -/
def keyword : TypeKind → String
  | scalar => "scalar"
  | object => "type"
  | interface => "interface"
  | union => "union"
  | enum => "enum"
  | inputObject => "input"

/-- Kinds whose values are of one of several object types. -/
def isAbstract : TypeKind → Bool
  | interface | union => true
  | _ => false

/-- Kinds from which fields can be selected. -/
def isComposite : TypeKind → Bool
  | object | interface | union => true
  | _ => false

/-- Kinds at which a selection ends. -/
def isLeaf : TypeKind → Bool
  | scalar | enum => true
  | _ => false

/-- Kinds of values that can be given. -/
def isInput : TypeKind → Bool
  | scalar | enum | inputObject => true
  | _ => false

/-- Kinds of values that can be answered. -/
def isOutput (k : TypeKind) : Bool := k ≠ inputObject

end TypeKind

/-! ### Definitions -/

/-- Whether something is deprecated. -/
inductive Deprecation where
  /-- It is not. -/
  | current
  /-- It is, for a reason. -/
  | deprecated (reason : String)
  deriving DecidableEq, Repr, Inhabited

namespace Deprecation

/-- The reason where a directive gives none. -/
def defaultReason : String := "No longer supported"

/-- The text of an argument of a given name, if its value is a string. -/
def reasonOf? (a : Argument) : Option String :=
  match a.name, a.value with
  | "reason", .atom (.string reason) => some reason
  | _, _ => none

/-- What the directives on a definition say. The first one named `deprecated` counts, and in it the
first reason that is a string. -/
def ofDirectives (directives : List Directive) : Deprecation :=
  match directives.find? (·.name = "deprecated") with
  | none => current
  | some d => deprecated ((d.arguments.findSome? reasonOf?).getD defaultReason)

/-- The reason, of something deprecated. -/
def reason? : Deprecation → Option String
  | current => none
  | deprecated reason => some reason

end Deprecation

/-- A parameter of a field or directive, or a field of an input object. -/
structure InputValue where
  /-- The name. -/
  name : String
  /-- The type of its values. -/
  type : TypeRef
  /-- The value that stands for a missing one. -/
  default? : Option Literal
  /-- Where it is defined. -/
  location : Location
  deriving Repr, Inhabited

/-- A field of an object type or interface. -/
structure FieldDefinition where
  /-- The name. -/
  name : String
  /-- The type of its values. -/
  type : TypeRef
  /-- Its parameters, of different names. -/
  parameters : List InputValue
  /-- Whether it is deprecated. -/
  deprecation : Deprecation
  /-- Where it is defined. -/
  location : Location
  deriving Repr, Inhabited

/-- A value of an enum. -/
structure EnumValue where
  /-- The name. -/
  name : String
  /-- Whether it is deprecated. -/
  deprecation : Deprecation
  /-- Where it is defined. -/
  location : Location
  deriving Repr, Inhabited

/-- The scalars of every schema. -/
inductive BuiltinScalar where
  /-- Truth values. -/
  | boolean
  /-- Double precision numbers. -/
  | float
  /-- Identifiers. -/
  | id
  /-- Whole numbers of 32 bits. -/
  | int
  /-- Texts. -/
  | string
  deriving DecidableEq, Repr, Inhabited

/-- What makes up a type. -/
inductive TypeBody where
  /-- A scalar of every schema. -/
  | builtin (scalar : BuiltinScalar)
  /-- A defined scalar. -/
  | scalar
  /-- An object type with its fields and interfaces. -/
  | object (fields : List FieldDefinition) (interfaces : List String)
  /-- An interface with its fields and interfaces. -/
  | interface (fields : List FieldDefinition) (interfaces : List String)
  /-- A union with its members. -/
  | union (members : List String)
  /-- An enum with its values. -/
  | enum (values : List EnumValue)
  /-- An input object with its fields. -/
  | inputObject (fields : List InputValue)
  deriving Repr, Inhabited

/-- A type of a schema. -/
structure TypeDefinition where
  /-- The name. -/
  name : String
  /-- Where it is defined. -/
  location : Location
  /-- What makes it up. -/
  body : TypeBody
  deriving Repr, Inhabited

/-- A directive of a schema. -/
structure DirectiveDefinition where
  /-- The name. -/
  name : String
  /-- Its parameters, of different names. -/
  parameters : List InputValue
  /-- Whether it may stand several times at one place. -/
  repeatable : Bool
  /-- Where it may stand. -/
  locations : List DirectiveLocation
  /-- Where it is defined. -/
  location : Location
  deriving Repr, Inhabited

namespace FieldDefinition

/-- The parameter of a given name. -/
def parameter? (f : FieldDefinition) (name : String) : Option InputValue :=
  f.parameters.find? (·.name = name)

/-- The field of every composite type that names the type of an object. -/
def typename : FieldDefinition :=
  { name := "__typename"
    type := .named "String" false
    parameters := []
    deprecation := .current
    location := .builtin }

end FieldDefinition

namespace DirectiveDefinition

/-- The parameter of a given name. -/
def parameter? (d : DirectiveDefinition) (name : String) : Option InputValue :=
  d.parameters.find? (·.name = name)

end DirectiveDefinition

namespace TypeDefinition

/-- The kind of a type. -/
def kind (t : TypeDefinition) : TypeKind :=
  match t.body with
  | .builtin _ => .scalar
  | .scalar => .scalar
  | .object _ _ => .object
  | .interface _ _ => .interface
  | .union _ => .union
  | .enum _ => .enum
  | .inputObject _ => .inputObject

/-- The fields that can be selected from an object type or interface. -/
def fields? (t : TypeDefinition) : Option (List FieldDefinition) :=
  match t.body with
  | .object fields _ => some fields
  | .interface fields _ => some fields
  | _ => none

/-- The field of a given name. -/
def field? (t : TypeDefinition) (name : String) : Option FieldDefinition :=
  t.fields?.bind fun fields => fields.find? (·.name = name)

/-- The interfaces that an object type or interface declares. -/
def interfaces (t : TypeDefinition) : List String :=
  match t.body with
  | .object _ interfaces => interfaces
  | .interface _ interfaces => interfaces
  | _ => []

/-- The fields of an input object. -/
def inputFields? (t : TypeDefinition) : Option (List InputValue) :=
  match t.body with
  | .inputObject fields => some fields
  | _ => none

/-- The field of an input object of a given name. -/
def inputField? (t : TypeDefinition) (name : String) : Option InputValue :=
  t.inputFields?.bind fun fields => fields.find? (·.name = name)

/-- The value of an enum of a given name. -/
def enumValue? (t : TypeDefinition) (name : String) : Option EnumValue :=
  match t.body with
  | .enum values => values.find? (·.name = name)
  | _ => none

/-- Whether a value of the type is of one of several object types. -/
def isAbstract (t : TypeDefinition) : Bool := t.kind.isAbstract

/-- Whether fields can be selected from the type. -/
def isComposite (t : TypeDefinition) : Bool := t.kind.isComposite

/-- Whether a selection ends at the type. -/
def isLeaf (t : TypeDefinition) : Bool := t.kind.isLeaf

/-- Whether values of the type can be given. -/
def isInput (t : TypeDefinition) : Bool := t.kind.isInput

/-- Whether values of the type can be answered. -/
def isOutput (t : TypeDefinition) : Bool := t.kind.isOutput

/-- Whether the type is an object type. -/
def isObject (t : TypeDefinition) : Bool := t.kind = .object

end TypeDefinition

/-! ### Schemas -/

/-- A schema. -/
structure Schema where
  /-- The types in the order of definition, the builtin scalars first. -/
  types : List TypeDefinition
  /-- The directives in the order of definition, the builtin ones last. -/
  directives : List DirectiveDefinition
  /-- The root type of queries. -/
  query : String
  /-- The root type of mutations. -/
  mutation? : Option String
  /-- The root type of subscriptions. -/
  subscription? : Option String
  /-- For each interface and union the object types that its values can have. -/
  possible : List (String × List String)
  deriving Repr, Inhabited

namespace Schema

/-- The type of a given name. -/
def type? (s : Schema) (name : String) : Option TypeDefinition := s.types.find? (·.name = name)

/-- The directive of a given name. -/
def directive? (s : Schema) (name : String) : Option DirectiveDefinition :=
  s.directives.find? (·.name = name)

/-- The names of all types. -/
def typeNames (s : Schema) : List String := s.types.map (·.name)

/-- The names of all directives. -/
def directiveNames (s : Schema) : List String := s.directives.map (·.name)

/-- The type of a given name, if its values can be given. -/
def inputType? (s : Schema) (name : String) : Option TypeDefinition :=
  (s.type? name).filter (·.isInput)

/-- The type of a given name, if its values can be answered. -/
def outputType? (s : Schema) (name : String) : Option TypeDefinition :=
  (s.type? name).filter (·.isOutput)

/-- The name of the root type for a kind of operation. -/
def rootName? (s : Schema) : OperationKind → Option String
  | .query => some s.query
  | .mutation => s.mutation?
  | .subscription => s.subscription?

/-- The root type for a kind of operation. -/
def root? (s : Schema) (kind : OperationKind) : Option TypeDefinition :=
  (s.rootName? kind).bind s.type?

/-- The fields of an object type or interface. -/
def fieldsOf? (s : Schema) (typeName : String) : Option (List FieldDefinition) :=
  (s.type? typeName).bind (·.fields?)

/-- A field of an object type or interface. -/
def fieldOf? (s : Schema) (typeName fieldName : String) : Option FieldDefinition :=
  (s.type? typeName).bind (·.field? fieldName)

/-- The interfaces that a type declares. -/
def interfacesOf (s : Schema) (typeName : String) : List String :=
  ((s.type? typeName).map (·.interfaces)).getD []

/-- The object types that a value of an interface or union can have. -/
def possibleTypes (s : Schema) (abstractName : String) : List String :=
  (s.possible.lookup abstractName).getD []

/-- Whether a value of an interface or union can have an object type. -/
def isPossible (s : Schema) (abstractName typeName : String) : Bool :=
  (s.possibleTypes abstractName).contains typeName

/-- The field that a selection names on a type. Every composite type has the field that names the
type of an object. -/
def selectedField? (s : Schema) (parent : TypeDefinition) (name : String) :
    Option FieldDefinition :=
  if name = FieldDefinition.typename.name ∧ parent.isComposite then
    some FieldDefinition.typename
  else s.fieldOf? parent.name name

end Schema

end GraphQLCheck
