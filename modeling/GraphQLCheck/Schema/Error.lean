import GraphQLCheck.Files.Read
import GraphQLCheck.Schema.Basic

/-!
# Why a schema is refused

Each reason for which schema texts do not make up a schema, with its message and the locations that
belong to it. The faults of references between types are found together and make up one refusal.
-/

namespace GraphQLCheck

/-- Where a block of root types names the root type of a kind of operation. -/
structure RootDefinition where
  /-- The name of the type. -/
  typeName : String
  /-- The location of the block. -/
  location : Location
  deriving DecidableEq, Repr, Inhabited

/-- A reference to a type that the schema does not bear out. -/
inductive ReferenceFault where
  /-- A type declares an interface that is not one. -/
  | notAnInterface (typeName interface : String) (location : Location)
  /-- A field has an input object as its type. -/
  | inputAsOutput (typeName field fieldType : String) (location : Location)
  /-- A parameter or input field has a type whose values cannot be given. -/
  | outputAsInput (owner parameter parameterType : String) (location : Location)
  /-- A root type is not an object type. -/
  | rootNotAnObject (operation : OperationKind) (typeName : String)
  /-- A type is not defined. -/
  | undefined (owner name : String) (location : Location)
  /-- A member of a union is not an object type. -/
  | memberNotAnObject (union member : String) (location : Location)
  deriving DecidableEq, Repr, Inhabited

namespace ReferenceFault

/-- The message of a fault. -/
def message : ReferenceFault → String
  | notAnInterface typeName interface _ =>
    "`" ++ typeName ++ "` declares that it implements `" ++ interface
      ++ "`, which is not an interface"
  | inputAsOutput typeName field fieldType _ =>
    "`" ++ typeName ++ "." ++ field ++ "` must be an output type, but `" ++ fieldType
      ++ "` is an input object"
  | outputAsInput owner parameter parameterType _ =>
    "`" ++ owner ++ "` argument `" ++ parameter ++ "` must be an input type, but `"
      ++ parameterType ++ "` is not"
  | rootNotAnObject operation typeName =>
    "The " ++ operation.render ++ " root operation type `" ++ typeName ++ "` must be an object type"
  | undefined owner name _ => "`" ++ owner ++ "` refers to `" ++ name ++ "`, which is not defined"
  | memberNotAnObject union member _ =>
    "The `" ++ union ++ "` union lists `" ++ member ++ "`, which is not an object type"

/-- Where the fault is. -/
def location? : ReferenceFault → Option Location
  | notAnInterface _ _ location => some location
  | inputAsOutput _ _ _ location => some location
  | outputAsInput _ _ _ location => some location
  | rootNotAnObject _ _ => none
  | undefined _ _ location => some location
  | memberNotAnObject _ _ location => some location

end ReferenceFault

/-- Why schema texts do not make up a schema. -/
inductive SchemaError where
  /-- A directive is defined twice. -/
  | duplicateDirective (name : String) (first second : Location)
  /-- An enum has a value twice. -/
  | duplicateEnumValue (enum value : String) (first second : Location)
  /-- A type has a field twice. -/
  | duplicateField (typeName field : String) (first second : Location)
  /-- A type declares an interface twice. -/
  | duplicateInterface (typeName interface : String) (location : Location)
  /-- The root type for a kind of operation is named twice. -/
  | duplicateRoot (operation : OperationKind) (first second : RootDefinition)
  /-- A type is defined twice. -/
  | duplicateType (name : String) (first second : Location)
  /-- A union has a member twice. -/
  | duplicateMember (union member : String) (location : Location)
  /-- An enum has no values. -/
  | emptyEnum (name : String) (location : Location)
  /-- An extension names a type that is not defined. -/
  | undefinedExtension (name : String) (location : Location)
  /-- An extension is of another kind than its type. -/
  | mismatchedExtension (name : String) (existing extending : TypeKind) (location : Location)
  /-- The name of a directive is reserved. -/
  | reservedDirectiveName (name : String) (location : Location)
  /-- The name of a field is reserved. -/
  | reservedFieldName (typeName field : String) (location : Location)
  /-- The name of a type is reserved. -/
  | reservedTypeName (name : String) (location : Location)
  /-- There is no root type for queries. -/
  | noQueryRoot
  /-- Two kinds of operation have one root type. -/
  | sharedRoot (typeName : String) (first second : OperationKind)
  /-- A text is not in the schema definition language. -/
  | illFormed (file : String)
  /-- A block string in a text has no value. -/
  | uncut (place : Text.InnerPlace)
  /-- A builtin directive is defined again. -/
  | builtinDirective (name : String) (location : Location)
  /-- A file cannot be read. -/
  | unreadable (cause : ReadError)
  /-- References between types do not hold. -/
  | references (faults : List ReferenceFault)
  deriving DecidableEq, Repr, Inhabited

namespace SchemaError

/-- The message of an error. -/
def message : SchemaError → String
  | duplicateDirective name _ _ =>
    "Multiple directives were defined with the name `@" ++ name ++ "`"
  | duplicateEnumValue enum value _ _ =>
    "The `" ++ enum ++ "` enum defines the `" ++ value ++ "` value more than once"
  | duplicateField typeName field _ _ =>
    "The `" ++ typeName ++ "` type defines the `" ++ field ++ "` field more than once"
  | duplicateInterface typeName interface _ =>
    "The `" ++ typeName ++ "` type declares that it implements the `" ++ interface
      ++ "` interface more than once"
  | duplicateRoot operation _ _ =>
    "Multiple " ++ operation.render ++ " root operation types were defined"
  | duplicateType name _ _ => "Multiple GraphQL types with the name `" ++ name ++ "` were defined"
  | duplicateMember union member _ =>
    "The `" ++ union ++ "` union lists `" ++ member ++ "` as a member more than once"
  | emptyEnum name _ => "The `" ++ name ++ "` enum must define one or more values"
  | undefinedExtension name _ =>
    "Attempted to extend `" ++ name ++ "`, which is not defined elsewhere"
  | mismatchedExtension name existing extending _ =>
    "`" ++ name ++ "` is defined as `" ++ existing.keyword ++ "` but is extended with `extend "
      ++ extending.keyword ++ "`"
  | reservedDirectiveName name _ =>
    "Custom directive names must not start with `__`: `@" ++ name ++ "`"
  | reservedFieldName typeName field _ =>
    "Field names must not start with `__`: `" ++ typeName ++ "." ++ field ++ "`"
  | reservedTypeName name _ => "Type names must not start with `__`: `" ++ name ++ "`"
  | noQueryRoot => "Attempted to build a schema that has no Query operation type defined"
  | sharedRoot typeName first second =>
    "The " ++ first.render ++ " and " ++ second.render ++ " root operations are both defined with "
      ++ "the `" ++ typeName ++ "` type. All root operations must be defined with different types."
  | illFormed file => "Error parsing schema file `" ++ file ++ "`: <syntax error>"
  | uncut place => place.message
  | builtinDirective name _ => "Attempted to redefine the builtin `@" ++ name ++ "` directive"
  | unreadable cause =>
    "Failure while trying to read a schema file from disk: " ++ cause.message
  | references faults =>
    "Encountered the following type-validation errors while building the schema:\n\n"
      ++ "\n".intercalate (faults.map fun f => "  * " ++ f.message)

end SchemaError

end GraphQLCheck
