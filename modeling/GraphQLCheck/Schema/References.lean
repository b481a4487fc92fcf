import GraphQLCheck.Schema.Error

/-!
# References between types

The faults in how the types and directives of a registry refer to types: declared interfaces must be
interfaces, the types of fields must not be input objects, the types of parameters and input fields
must be ones whose values can be given, and the members of unions must be object types.
-/

namespace GraphQLCheck.References

/-- The type of a given name in a registry. -/
def find? (types : List TypeDefinition) (name : String) : Option TypeDefinition :=
  types.find? (·.name = name)

/-- The fault of a parameter or input field. -/
def inputFault (types : List TypeDefinition) (owner : String) (value : InputValue) :
    List ReferenceFault :=
  let name := value.type.innermost
  match find? types name with
  | none => [.undefined owner name value.location]
  | some t => if t.isInput then [] else [.outputAsInput owner value.name name value.location]

/-- The fault of an interface that a type declares. -/
def interfaceFault (types : List TypeDefinition) (t : TypeDefinition) (interface : String) :
    List ReferenceFault :=
  match find? types interface with
  | none => [.undefined t.name interface t.location]
  | some i => if i.kind = .interface then [] else [.notAnInterface t.name interface t.location]

/-- The faults of a field and its parameters. -/
def fieldFaults (types : List TypeDefinition) (t : TypeDefinition) (field : FieldDefinition) :
    List ReferenceFault :=
  let owner := t.name ++ "." ++ field.name
  let name := field.type.innermost
  let own : List ReferenceFault :=
    match find? types name with
    | none => [.undefined owner name field.location]
    | some u => if u.isOutput then [] else [.inputAsOutput t.name field.name name field.location]
  own ++ field.parameters.flatMap (inputFault types owner)

/-- The fault of a member of a union. -/
def memberFault (types : List TypeDefinition) (t : TypeDefinition) (member : String) :
    List ReferenceFault :=
  match find? types member with
  | none => [.undefined t.name member t.location]
  | some m => if m.isObject then [] else [.memberNotAnObject t.name member t.location]

/-- The faults of a type. -/
def typeFaults (types : List TypeDefinition) (t : TypeDefinition) : List ReferenceFault :=
  match t.body with
  | .object fields interfaces | .interface fields interfaces =>
    interfaces.flatMap (interfaceFault types t) ++ fields.flatMap (fieldFaults types t)
  | .inputObject fields => fields.flatMap (inputFault types t.name)
  | .union members => members.flatMap (memberFault types t)
  | _ => []

/-- The faults of a directive. -/
def directiveFaults (types : List TypeDefinition) (d : DirectiveDefinition) :
    List ReferenceFault :=
  d.parameters.flatMap (inputFault types ("@" ++ d.name))

/-- The fault of a root type. -/
def rootFault (types : List TypeDefinition) (operation : OperationKind) (name : String) :
    List ReferenceFault :=
  match find? types name with
  | some t => if t.isObject then [] else [.rootNotAnObject operation name]
  | none => [.rootNotAnObject operation name]

/-- All faults of a registry. -/
def faults (types : List TypeDefinition) (directives : List DirectiveDefinition) :
    List ReferenceFault :=
  types.flatMap (typeFaults types) ++ directives.flatMap (directiveFaults types)

end GraphQLCheck.References
