import GraphQLCheck.Schema.Basic
import GraphQLCheck.Traversal.Hook

/-!
# What is known at a step of a walk

A `Scope` holds the nodes that a walk is inside of and what the schema says about them: the type of
the innermost field, fragment or operation, the type that fields are selected from, and the
definitions of the innermost field and of the current argument and directive. Entering a node
extends the scope before the node is looked at; leaving it restores the scope afterwards. A `Visit`
is a step of the walk with the scope in which it is looked at.
-/

namespace GraphQLCheck

/-- What is known at a step of a walk. All stacks have the innermost entry first. -/
structure Scope where
  /-- The kinds of the nodes that the walk is inside of. -/
  ancestors : List NodeKind
  /-- The types of the fields, fragments and operations that the walk is inside of. -/
  types : List (Option TypeDefinition)
  /-- The types that the selection sets around select from. -/
  parents : List (Option TypeDefinition)
  /-- The definitions of the fields that the walk is inside of. -/
  fields : List (Option FieldDefinition)
  /-- The parameter of the argument that the walk is inside of. -/
  parameter? : Option InputValue
  /-- The definition of the directive that the walk is inside of. -/
  directive? : Option DirectiveDefinition
  deriving Repr, Inhabited

namespace Scope

/-- The scope outside a document. -/
def empty : Scope := ⟨[], [], [], [], none, none⟩

/-- The type of the innermost field, fragment or operation. -/
def type? (s : Scope) : Option TypeDefinition := s.types.head?.join

/-- The composite type that fields are selected from. -/
def parent? (s : Scope) : Option TypeDefinition := s.parents.head?.join

/-- The definition of the innermost field. -/
def field? (s : Scope) : Option FieldDefinition := s.fields.head?.join

/-- The innermost node that is not a directive. -/
def owner? (s : Scope) : Option NodeKind := s.ancestors.find? (· ≠ .directive)

/-- The location of the directives at hand. -/
def directiveLocation? (s : Scope) : Option DirectiveLocation :=
  s.owner?.bind NodeKind.directiveLocation?

/-- The complaint about directives of a node that can have none. -/
def unplacedMessage (s : Scope) : String :=
  let owner := match s.owner? with
    | some kind => "Some(" ++ kind.render ++ ")"
    | none => "None"
  "No directive location is defined for directives on " ++ owner ++ " nodes"

/-- The parameter of a given name of the innermost field or directive. -/
def parameterNamed? (s : Scope) (name : String) : Option InputValue :=
  match s.ancestors with
  | .directive :: _ => s.directive?.bind (·.parameter? name)
  | _ => s.field?.bind (·.parameter? name)

/-- The scope inside a node. -/
def enter (schema : Schema) (s : Scope) (node : Node) : Scope :=
  let inside := { s with ancestors := node.kind :: s.ancestors }
  match node with
  | .operation _ o => { inside with types := schema.root? o.kind :: s.types }
  | .fragmentDefinition f => { inside with types := schema.type? f.condition :: s.types }
  | .selectionSet _ _ => { inside with parents := s.type?.filter (·.isComposite) :: s.parents }
  | .field f _ =>
    let definition? := s.parent?.bind (schema.selectedField? · f.name)
    { inside with
      fields := definition? :: s.fields
      types := definition?.bind (schema.type? ·.type.innermost) :: s.types }
  | .inline i =>
    let type? := match i.condition? with
      | some name => schema.type? name
      | none => s.type?
    { inside with types := type? :: s.types }
  | .directive d => { inside with directive? := schema.directive? d.name }
  | .argument _ a => { inside with parameter? := s.parameterNamed? a.name }
  | _ => inside

/-- The scope after a node, given the scope inside it. -/
def leave (s : Scope) (node : Node) : Scope :=
  let outside := { s with ancestors := s.ancestors.tail }
  match node with
  | .operation _ _ | .fragmentDefinition _ | .inline _ => { outside with types := s.types.tail }
  | .selectionSet _ _ => { outside with parents := s.parents.tail }
  | .field _ _ => { outside with fields := s.fields.tail, types := s.types.tail }
  | .directive _ => { outside with directive? := none }
  | .argument _ _ => { outside with parameter? := none }
  | _ => outside

end Scope

/-- A step of a walk and what is known there. -/
structure Visit where
  /-- The step. -/
  hook : Hook
  /-- What is known at it. -/
  scope : Scope
  deriving Repr, Inhabited

namespace Visit

/-- The visits of a walk that starts in a scope. -/
def along (schema : Schema) (s : Scope) : List Hook → List Visit
  | [] => []
  | .enter node :: rest =>
    let inside := s.enter schema node
    ⟨.enter node, inside⟩ :: along schema inside rest
  | .leave node :: rest => ⟨.leave node, s⟩ :: along schema (s.leave node) rest
  | hook :: rest => ⟨hook, s⟩ :: along schema s rest

end Visit

namespace Scope

/-- The scope at the end of a walk that starts in a scope. -/
def after (schema : Schema) (s : Scope) : List Hook → Scope
  | [] => s
  | .enter node :: rest => after schema (s.enter schema node) rest
  | .leave node :: rest => after schema (s.leave node) rest
  | _ :: rest => after schema s rest

end Scope

namespace Document

/-- The visits of the walk of a document. -/
def visits (schema : Schema) (d : Document) : List Visit := Visit.along schema .empty d.hooks

/-- The scope in which the walk of a document ends. -/
def finalScope (schema : Schema) (d : Document) : Scope := Scope.after schema .empty d.hooks

end Document

end GraphQLCheck
