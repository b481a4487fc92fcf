import GraphQLCheck.DirectiveLocation
import GraphQLCheck.Document.Basic

/-!
# Schema texts

What a text in the schema definition language says: definitions of types, extensions of types,
directives, and blocks that name the root types. An extension has the form of a definition, so both
are a `TypeNode`.
-/

namespace GraphQLCheck.Sdl

/-- An argument of a field or directive, or a field of an input object, as written. -/
structure InputValueNode where
  /-- The position of the description, or of the name if there is none. -/
  position : Position
  /-- The name. -/
  name : String
  /-- The type of its values. -/
  type : TypeRef
  /-- The literal that stands for a missing value. -/
  written? : Option Written
  deriving Repr, Inhabited

/-- A field of an object type or interface, as written. -/
structure FieldNode where
  /-- The position of the description, or of the name if there is none. -/
  position : Position
  /-- The name. -/
  name : String
  /-- Its arguments. -/
  parameters : List InputValueNode
  /-- The type of its values. -/
  type : TypeRef
  /-- Its directives. -/
  directives : List Directive
  deriving Repr, Inhabited

/-- A value of an enum, as written. -/
structure EnumValueNode where
  /-- The position of the description, or of the name if there is none. -/
  position : Position
  /-- The name. -/
  name : String
  /-- Its directives. -/
  directives : List Directive
  deriving Repr, Inhabited

/-- What a definition or an extension gives to a type. -/
inductive TypeParts where
  /-- A scalar has no parts. -/
  | scalar
  /-- Interfaces and fields of an object type. -/
  | object (interfaces : List String) (fields : List FieldNode)
  /-- Interfaces and fields of an interface. -/
  | interface (interfaces : List String) (fields : List FieldNode)
  /-- Members of a union. -/
  | union (members : List String)
  /-- Values of an enum. -/
  | enum (values : List EnumValueNode)
  /-- Fields of an input object. -/
  | inputObject (fields : List InputValueNode)
  deriving Repr, Inhabited

/-- A definition or an extension of a type. -/
structure TypeNode where
  /-- The position of its keyword. -/
  position : Position
  /-- The name of the type. -/
  name : String
  /-- What it gives to the type. -/
  parts : TypeParts
  deriving Repr, Inhabited

/-- The definition of a directive, as written. -/
structure DirectiveNode where
  /-- The position of its keyword. -/
  position : Position
  /-- The name. -/
  name : String
  /-- Its arguments. -/
  parameters : List InputValueNode
  /-- Whether it may stand several times at one place. -/
  repeatable : Bool
  /-- Where it may stand. -/
  locations : List DirectiveLocation
  deriving Repr, Inhabited

/-- A block that names root types. -/
structure RootNode where
  /-- The position of its keyword. -/
  position : Position
  /-- The root type of queries. -/
  query? : Option String
  /-- The root type of mutations. -/
  mutation? : Option String
  /-- The root type of subscriptions. -/
  subscription? : Option String
  deriving Repr, Inhabited

/-- A definition of a schema text. -/
inductive Definition where
  /-- A block that names root types. -/
  | roots (node : RootNode)
  /-- A type. -/
  | type (node : TypeNode)
  /-- An extension of a type. -/
  | extension (node : TypeNode)
  /-- A directive. -/
  | directive (node : DirectiveNode)
  deriving Repr, Inhabited

end GraphQLCheck.Sdl
