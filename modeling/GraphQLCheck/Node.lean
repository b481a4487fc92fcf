import GraphQLCheck.DirectiveLocation
import GraphQLCheck.Document.Basic

/-!
# Kinds of nodes

The kinds of nodes of an executable document. A diagnostic points at nodes by kind and position, and
the nodes that can carry directives have a directive location.
-/

namespace GraphQLCheck

/-- The kinds of nodes of a document. -/
inductive NodeKind where
  /-- An argument of a field or directive. -/
  | argument
  /-- A directive where it is used. -/
  | directive
  /-- The document itself. -/
  | document
  /-- A field of a selection set. -/
  | field
  /-- The definition of a fragment. -/
  | fragmentDefinition
  /-- A reference to a fragment. -/
  | fragmentSpread
  /-- A fragment written in place. -/
  | inlineFragment
  /-- An operation of some kind. -/
  | operation (kind : OperationKind)
  /-- A selection set. -/
  | selectionSet
  /-- The type that a fragment applies to. -/
  | typeCondition
  /-- A literal. -/
  | value
  /-- A variable where it is used. -/
  | variableUse
  /-- The definition of a variable. -/
  | variableDefinition
  deriving DecidableEq, Repr, Inhabited

namespace NodeKind

/-- All kinds of nodes, by the order of their names. -/
def all : List NodeKind :=
  [argument, directive, document, field, fragmentDefinition, fragmentSpread, inlineFragment,
    operation .mutation, operation .query, operation .subscription, selectionSet, typeCondition,
    value, variableUse, variableDefinition]

/-- The name of a kind, without the kind of an operation. -/
def name : NodeKind → String
  | argument => "Argument"
  | directive => "Directive"
  | document => "Document"
  | field => "Field"
  | fragmentDefinition => "FragmentDefinition"
  | fragmentSpread => "FragmentSpread"
  | inlineFragment => "InlineFragment"
  | operation _ => "Operation"
  | selectionSet => "SelectionSet"
  | typeCondition => "TypeCondition"
  | value => "Value"
  | variableUse => "Variable"
  | variableDefinition => "VariableDefinition"

/-- The name of a kind; the kind of an operation follows in parentheses. -/
def render : NodeKind → String
  | operation kind => "Operation(" ++ kind.render ++ ")"
  | kind => kind.name

/-- Where the directives of a node stand, if nodes of its kind can carry directives. -/
def directiveLocation? : NodeKind → Option DirectiveLocation
  | field => some .field
  | fragmentDefinition => some .fragmentDefinition
  | fragmentSpread => some .fragmentSpread
  | inlineFragment => some .inlineFragment
  | operation .mutation => some .mutation
  | operation .query => some .query
  | operation .subscription => some .subscription
  | variableDefinition => some .variableDefinition
  | _ => none

end NodeKind

/-- A node that a diagnostic points at. -/
structure NodeRef where
  /-- The kind of the node. -/
  kind : NodeKind
  /-- The position of the node. -/
  position : Position
  deriving DecidableEq, Repr, Inhabited

namespace Field

/-- The field as a node. -/
def ref (f : Field) : NodeRef := ⟨.field, f.position⟩

end Field

namespace Directive

/-- The directive as a node. -/
def ref (d : Directive) : NodeRef := ⟨.directive, d.position⟩

end Directive

namespace FragmentSpread

/-- The reference to a fragment as a node. -/
def ref (s : FragmentSpread) : NodeRef := ⟨.fragmentSpread, s.position⟩

end FragmentSpread

namespace InlineFragment

/-- The inline fragment as a node. -/
def ref (i : InlineFragment) : NodeRef := ⟨.inlineFragment, i.position⟩

end InlineFragment

namespace FragmentDefinition

/-- The definition as a node. -/
def ref (f : FragmentDefinition) : NodeRef := ⟨.fragmentDefinition, f.position⟩

end FragmentDefinition

namespace VariableDefinition

/-- The definition as a node. -/
def ref (v : VariableDefinition) : NodeRef := ⟨.variableDefinition, v.position⟩

end VariableDefinition

namespace Operation

/-- The operation as a node. -/
def ref (o : Operation) : NodeRef := ⟨.operation o.kind, o.position⟩

end Operation

namespace Selection

/-- A selection as a node. -/
def ref : Selection → NodeRef
  | field node _ _ => node.ref
  | spread node => node.ref
  | inline node _ _ => node.ref

end Selection

end GraphQLCheck
