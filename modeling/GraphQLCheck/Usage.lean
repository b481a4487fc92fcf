import GraphQLCheck.Node
import GraphQLCheck.Schema.Basic

/-!
# Uses of variables

The uses of variables that an operation reaches: those in its directives and selections, and those
in the fragments that it refers to, directly or through other fragments. Each fragment counts once,
where it is first referred to. A use carries the type that its place expects, if that is known.
-/

namespace GraphQLCheck

/-- A variable where it is used. -/
structure VariableUse where
  /-- The name, without the dollar sign. -/
  name : String
  /-- The type that the place expects. -/
  expected? : Option TypeRef
  /-- The position of the field or directive whose argument holds it. -/
  position : Position
  deriving DecidableEq, Repr, Inhabited

namespace VariableUse

/-- The use as a node. -/
def ref (u : VariableUse) : NodeRef := ⟨.variableUse, u.position⟩

/-- The type expected of the items of a list literal: that of the items, or the same type if no list
is expected. -/
def itemType (expected : TypeRef) : TypeRef := expected.item?.getD expected

/-- The type expected of a field of an object literal. -/
def fieldType? (schema : Schema) (expected? : Option TypeRef) (name : String) : Option TypeRef :=
  (expected?.bind (schema.type? ·.innermost)).bind fun type =>
    (type.inputField? name).map (·.type)

mutual

/-- The uses in a literal. -/
def inLiteral (schema : Schema) (position : Position) (expected? : Option TypeRef) :
    Literal → List VariableUse
  | .atom (.var name) => [⟨name, expected?, position⟩]
  | .atom _ => []
  | .list items => inItems schema position (expected?.map itemType) items
  | .object fields => inFields schema position expected? fields

/-- The uses in the items of a list, of each of which the type is expected. -/
def inItems (schema : Schema) (position : Position) (expected? : Option TypeRef) :
    List Literal → List VariableUse
  | [] => []
  | item :: rest =>
    inLiteral schema position expected? item ++ inItems schema position expected? rest

/-- The uses in the fields of an object, of which the type is expected. -/
def inFields (schema : Schema) (position : Position) (expected? : Option TypeRef) :
    List (String × Literal) → List VariableUse
  | [] => []
  | (name, value) :: rest =>
    inLiteral schema position (fieldType? schema expected? name) value ++
      inFields schema position expected? rest

end

/-- The uses in arguments for given parameters. -/
def inArguments (schema : Schema) (position : Position) (parameter? : String → Option InputValue)
    (list : List Argument) : List VariableUse :=
  list.flatMap fun a => inLiteral schema position ((parameter? a.name).map (·.type)) a.value

/-- The uses in a directive. -/
def inDirective (schema : Schema) (d : Directive) : List VariableUse :=
  inArguments schema d.position (fun name => (schema.directive? d.name).bind (·.parameter? name))
    d.arguments

/-- The uses in directives. -/
def inDirectives (schema : Schema) (list : List Directive) : List VariableUse :=
  list.flatMap (inDirective schema)

/-- The uses in the arguments of a field with a given definition. -/
def inField (schema : Schema) (definition? : Option FieldDefinition) (f : Field) :
    List VariableUse :=
  inArguments schema f.position (fun name => definition?.bind (·.parameter? name)) f.arguments

/-! ### Following fragments -/

/-- The uses found so far and the fragments followed so far. -/
structure Found where
  /-- The names of the fragments referred to. -/
  followed : List String
  /-- The uses in the order in which they were found. -/
  uses : List VariableUse
  deriving Repr, Inhabited

namespace Found

/-- Add uses. -/
def add (found : Found) (uses : List VariableUse) : Found :=
  { found with uses := found.uses ++ uses }

/-- Follow a reference to a fragment, unless one of its name was followed before. -/
def follow (document : Document) (enter : FragmentDefinition → Found → Found) (name : String)
    (found : Found) : Found :=
  if name ∈ found.followed then found
  else
    let found := { found with followed := name :: found.followed }
    match document.fragment? name with
    | some f => enter f found
    | none => found

mutual

/-- Add the uses in a selection from a type, given what to do with a fragment. -/
def selection (schema : Schema) (document : Document) (enter : FragmentDefinition → Found → Found)
    (parent? : Option TypeDefinition) : Selection → Found → Found
  | .field node _ items, found =>
    let definition? := parent?.bind (schema.selectedField? · node.name)
    selections schema document enter (definition?.bind (schema.type? ·.type.innermost)) items
      ((found.add (inField schema definition? node)).add (inDirectives schema node.directives))
  | .spread node, found =>
    (found.add (inDirectives schema node.directives)).follow document enter node.name
  | .inline node _ items, found =>
    let type? := match node.condition? with
      | some name => schema.type? name
      | none => parent?
    selections schema document enter type? items
      (found.add (inDirectives schema node.directives))

/-- Add the uses in selections from a type. -/
def selections (schema : Schema) (document : Document)
    (enter : FragmentDefinition → Found → Found) (parent? : Option TypeDefinition) :
    List Selection → Found → Found
  | [], found => found
  | item :: rest, found =>
    selections schema document enter parent? rest
      (selection schema document enter parent? item found)

end

/-- Add the uses in a fragment, following at most so many fragments one inside another. -/
def fragment (schema : Schema) (document : Document) :
    (depth : Nat) → FragmentDefinition → Found → Found
  | 0, _, found => found
  | depth + 1, f, found =>
    selections schema document (fragment schema document depth) (schema.type? f.condition)
      f.selectionSet.items (found.add (inDirectives schema f.directives))

end Found

end VariableUse

namespace Operation

/-- The uses of variables that an operation reaches. A chain of fragments, each followed inside the
one before, has no name twice, so it is no longer than the list of fragments. -/
def variableUses (schema : Schema) (document : Document) (o : Operation) : List VariableUse :=
  (VariableUse.Found.selections schema document
    (VariableUse.Found.fragment schema document document.fragments.length)
    (schema.root? o.kind) o.selectionSet.items
    ⟨[], VariableUse.inDirectives schema o.directives⟩).uses

end Operation

end GraphQLCheck
