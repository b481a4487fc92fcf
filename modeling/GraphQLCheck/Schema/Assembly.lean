import GraphQLCheck.Schema.Builtin
import GraphQLCheck.Schema.References
import GraphQLCheck.Sdl.Basic

/-!
# Assembling a schema

An assembly takes up the definitions of schema texts one by one. Types, directives and root types
are registered at once; extensions wait, so that a type may be extended before it is defined, and
are applied in the order of loading when the schema is built. Building fills in the root types by
their default names, checks all references, and makes the index of possible types.
-/

namespace GraphQLCheck

/-- The root types that blocks of root types have named. -/
structure Roots where
  /-- The root type of queries. -/
  query? : Option RootDefinition
  /-- The root type of mutations. -/
  mutation? : Option RootDefinition
  /-- The root type of subscriptions. -/
  subscription? : Option RootDefinition
  deriving Repr, Inhabited

/-- What has been loaded so far. -/
structure Assembly where
  /-- The registry of types. -/
  types : List TypeDefinition
  /-- The registry of directives. -/
  directives : List DirectiveDefinition
  /-- The named root types. -/
  roots : Roots
  /-- The extensions that wait, each with the file that it stands in. -/
  extensions : List (String × Sdl.TypeNode)
  deriving Repr, Inhabited

namespace Assembly

/-- The assembly before anything is loaded. -/
def empty : Assembly := ⟨BuiltinScalar.all.map (·.definition), [], ⟨none, none, none⟩, []⟩

/-! ### Taking up definitions -/

/-- Whether a name is reserved. -/
def isReserved (name : String) : Bool := ['_', '_'].isPrefixOf name.toList

/-- A parameter or input field of a file. -/
def inputValueOf (file : String) (node : Sdl.InputValueNode) : InputValue :=
  ⟨node.name, node.type, node.written?.map Written.toLiteral, .source file node.position⟩

/-- Add a parameter to others; one of the same name is replaced where it stands. -/
def putParameter (parameters : List InputValue) (p : InputValue) : List InputValue :=
  if parameters.any (·.name = p.name) then
    parameters.map fun q => if q.name = p.name then p else q
  else parameters ++ [p]

/-- The parameters of a field or directive, by name. -/
def parametersOf (file : String) (nodes : List Sdl.InputValueNode) : List InputValue :=
  (nodes.map (inputValueOf file)).foldl putParameter []

/-- A field of a file. -/
def fieldOf (file : String) (node : Sdl.FieldNode) : FieldDefinition :=
  { name := node.name
    type := node.type
    parameters := parametersOf file node.parameters
    deprecation := .ofDirectives node.directives
    location := .source file node.position }

/-- A value of an enum of a file. -/
def enumValueOf (file : String) (node : Sdl.EnumValueNode) : EnumValue :=
  ⟨node.name, .ofDirectives node.directives, .source file node.position⟩

/-- Add a field to those of a type. -/
def addField (typeName : String) (fields : List FieldDefinition) (field : FieldDefinition) :
    Except SchemaError (List FieldDefinition) :=
  if isReserved field.name then .error (.reservedFieldName typeName field.name field.location)
  else
    match fields.find? (·.name = field.name) with
    | some existing =>
      .error (.duplicateField typeName field.name existing.location field.location)
    | none => .ok (fields ++ [field])

/-- Add a field to those of an input object. -/
def addInputField (typeName : String) (fields : List InputValue) (field : InputValue) :
    Except SchemaError (List InputValue) :=
  match fields.find? (·.name = field.name) with
  | some existing => .error (.duplicateField typeName field.name existing.location field.location)
  | none => .ok (fields ++ [field])

/-- Add a value to those of an enum. -/
def addEnumValue (enum : String) (values : List EnumValue) (value : EnumValue) :
    Except SchemaError (List EnumValue) :=
  match values.find? (·.name = value.name) with
  | some existing => .error (.duplicateEnumValue enum value.name existing.location value.location)
  | none => .ok (values ++ [value])

/-- Add an interface to those that a type declares. -/
def addInterface (typeName : String) (location : Location) (interfaces : List String)
    (interface : String) : Except SchemaError (List String) :=
  if interface ∈ interfaces then .error (.duplicateInterface typeName interface location)
  else .ok (interfaces ++ [interface])

/-- Add a member to those of a union. -/
def addMember (union : String) (location : Location) (members : List String) (member : String) :
    Except SchemaError (List String) :=
  if member ∈ members then .error (.duplicateMember union member location)
  else .ok (members ++ [member])

/-- The kind of type that a definition or extension is for. -/
def kindOf : Sdl.TypeParts → TypeKind
  | .scalar => .scalar
  | .object _ _ => .object
  | .interface _ _ => .interface
  | .union _ => .union
  | .enum _ => .enum
  | .inputObject _ => .inputObject

/-- A type without parts, of the kind of a definition. -/
def bareBody : Sdl.TypeParts → TypeBody
  | .scalar => .scalar
  | .object _ _ => .object [] []
  | .interface _ _ => .interface [] []
  | .union _ => .union []
  | .enum _ => .enum []
  | .inputObject _ => .inputObject []

/-- Add the parts that a definition or extension in `file` gives to a type. There is no result when
the type is of another kind. -/
def addParts? (file : String) (node : Sdl.TypeNode) (body : TypeBody) :
    Option (Except SchemaError TypeBody) :=
  let location := Location.source file node.position
  match body, node.parts with
  | .scalar, .scalar => some (.ok .scalar)
  | .object fields interfaces, .object newInterfaces newFields => some do
    let fields ← (newFields.map (fieldOf file)).foldlM (addField node.name) fields
    let interfaces ← newInterfaces.foldlM (addInterface node.name location) interfaces
    return .object fields interfaces
  | .interface fields interfaces, .interface newInterfaces newFields => some do
    let fields ← (newFields.map (fieldOf file)).foldlM (addField node.name) fields
    let interfaces ← newInterfaces.foldlM (addInterface node.name location) interfaces
    return .interface fields interfaces
  | .union members, .union newMembers => some do
    return .union (← newMembers.foldlM (addMember node.name location) members)
  | .enum values, .enum newValues => some do
    return .enum (← (newValues.map (enumValueOf file)).foldlM (addEnumValue node.name) values)
  | .inputObject fields, .inputObject newFields => some do
    let fields ← (newFields.map (inputValueOf file)).foldlM (addInputField node.name) fields
    return .inputObject fields
  | _, _ => none

/-- The body of a new type. An enum must have a value. -/
def bodyOf (file : String) (node : Sdl.TypeNode) : Except SchemaError TypeBody :=
  match node.parts with
  | .enum [] => .error (.emptyEnum node.name (.source file node.position))
  | parts => (addParts? file node (bareBody parts)).getD (.ok (bareBody parts))

/-- Register a type. -/
def addType (a : Assembly) (file : String) (node : Sdl.TypeNode) :
    Except SchemaError Assembly := do
  let location := Location.source file node.position
  if isReserved node.name then throw (.reservedTypeName node.name location)
  let body ← bodyOf file node
  match References.find? a.types node.name with
  | some existing => throw (.duplicateType node.name existing.location location)
  | none => return { a with types := a.types ++ [⟨node.name, location, body⟩] }

/-- Register a directive. -/
def addDirective (a : Assembly) (file : String) (node : Sdl.DirectiveNode) :
    Except SchemaError Assembly :=
  let location := Location.source file node.position
  if DirectiveDefinition.builtins.any (·.name = node.name) then
    .error (.builtinDirective node.name location)
  else if isReserved node.name then .error (.reservedDirectiveName node.name location)
  else
    match a.directives.find? (·.name = node.name) with
    | some existing => .error (.duplicateDirective node.name existing.location location)
    | none =>
      .ok { a with
        directives := a.directives ++
          [⟨node.name, parametersOf file node.parameters, node.repeatable, node.locations,
            location⟩] }

/-- Name the root type of a kind of operation, which must not have one. -/
def nameRoot (operation : OperationKind) (location : Location) (existing? : Option RootDefinition)
    (name? : Option String) : Except SchemaError (Option RootDefinition) :=
  match name? with
  | none => .ok existing?
  | some name =>
    match existing? with
    | some existing => .error (.duplicateRoot operation existing ⟨name, location⟩)
    | none => .ok (some ⟨name, location⟩)

/-- Refuse two kinds of operation with one root type. -/
def checkDistinct (first second : OperationKind) (root₁? root₂? : Option RootDefinition) :
    Except SchemaError Unit :=
  match root₁?, root₂? with
  | some root₁, some root₂ =>
    if root₁.typeName = root₂.typeName then .error (.sharedRoot root₁.typeName first second)
    else .ok ()
  | _, _ => .ok ()

/-- Take up a block of root types. -/
def addRoots (a : Assembly) (file : String) (node : Sdl.RootNode) :
    Except SchemaError Assembly := do
  let location := Location.source file node.position
  let query? ← nameRoot .query location a.roots.query? node.query?
  let mutation? ← nameRoot .mutation location a.roots.mutation? node.mutation?
  let subscription? ← nameRoot .subscription location a.roots.subscription? node.subscription?
  checkDistinct .query .mutation query? mutation?
  checkDistinct .query .subscription query? subscription?
  checkDistinct .mutation .subscription mutation? subscription?
  return { a with roots := ⟨query?, mutation?, subscription?⟩ }

/-- Take up a definition of a file. -/
def addDefinition (a : Assembly) (file : String) : Sdl.Definition → Except SchemaError Assembly
  | .roots node => a.addRoots file node
  | .type node => a.addType file node
  | .extension node => .ok { a with extensions := a.extensions ++ [(file, node)] }
  | .directive node => a.addDirective file node

/-- Take up the definitions of a file in order. -/
def addDefinitions (a : Assembly) (file : String) (definitions : List Sdl.Definition) :
    Except SchemaError Assembly :=
  definitions.foldlM (fun a d => a.addDefinition file d) a

/-! ### Building -/

/-- Give to a registered type what an extension has for it. -/
def extend (types : List TypeDefinition) (extension : String × Sdl.TypeNode) :
    Except SchemaError (List TypeDefinition) := do
  let (file, node) := extension
  let location := Location.source file node.position
  match References.find? types node.name with
  | none => throw (.undefinedExtension node.name location)
  | some existing =>
    match addParts? file node existing.body with
    | none => throw (.mismatchedExtension node.name existing.kind (kindOf node.parts) location)
    | some result =>
      let body ← result
      return types.map fun t => if t.name = node.name then { t with body } else t

/-- The name of a root type that no block names: an object type of the default name. -/
def defaultRoot? (types : List TypeDefinition) (name : String) : Option String :=
  match References.find? types name with
  | some t => if t.isObject then some name else none
  | none => none

/-- An index from the names of abstract types to those of object types. -/
abbrev PossibleIndex := List (String × List String)

namespace PossibleIndex

/-- Add an object type under the name of an interface. -/
def push (index : PossibleIndex) (interface object : String) : PossibleIndex :=
  match index with
  | [] => [(interface, [object])]
  | (name, objects) :: rest =>
    if name = interface then (name, objects ++ [object]) :: rest
    else (name, objects) :: push rest interface object

/-- Have an entry under the name of an interface. -/
def ensure (index : PossibleIndex) (interface : String) : PossibleIndex :=
  if (index.lookup interface).isSome then index else index ++ [(interface, [])]

/-- Put the members of a union under its name. -/
def put (index : PossibleIndex) (union : String) (members : List String) : PossibleIndex :=
  match index with
  | [] => [(union, members)]
  | (name, objects) :: rest =>
    if name = union then (name, members) :: rest else (name, objects) :: put rest union members

/-- Take up a type of the registry. -/
def add (index : PossibleIndex) (t : TypeDefinition) : PossibleIndex :=
  match t.body with
  | .interface _ _ => ensure index t.name
  | .object _ interfaces => interfaces.foldl (fun index i => push index i t.name) index
  | .union members => put index t.name members
  | _ => index

/-- The index of a registry. -/
def ofTypes (types : List TypeDefinition) : PossibleIndex := types.foldl add []

end PossibleIndex

/-- The builtin directives that are not in a registry. -/
def missingBuiltins (directives : List DirectiveDefinition) : List DirectiveDefinition :=
  DirectiveDefinition.builtins.filter fun b => !directives.any (·.name = b.name)

/-- The faults of the root types of a schema. -/
def rootFaults (types : List TypeDefinition) (query : String)
    (mutation? subscription? : Option String) :
    List ReferenceFault :=
  References.rootFault types .query query
    ++ mutation?.toList.flatMap (References.rootFault types .mutation)
    ++ subscription?.toList.flatMap (References.rootFault types .subscription)

/-- Make a schema of what has been loaded. -/
def build (a : Assembly) : Except SchemaError Schema := do
  let directives := a.directives ++ missingBuiltins a.directives
  let types ← a.extensions.foldlM extend a.types
  let query ←
    match (a.roots.query?.map (·.typeName)).or (defaultRoot? types "Query") with
    | some name => pure name
    | none => throw .noQueryRoot
  let mutation? := (a.roots.mutation?.map (·.typeName)).or (defaultRoot? types "Mutation")
  let subscription? :=
    (a.roots.subscription?.map (·.typeName)).or (defaultRoot? types "Subscription")
  let faults :=
    References.faults types directives ++ rootFaults types query mutation? subscription?
  if faults.isEmpty then
    return {
      types, directives, query, mutation?, subscription?
      possible := PossibleIndex.ofTypes types }
  else throw (.references faults)

end Assembly

end GraphQLCheck
