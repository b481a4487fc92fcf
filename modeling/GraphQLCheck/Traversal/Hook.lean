import GraphQLCheck.Node

/-!
# The order of a walk

A walk through a document enters and leaves every node once, in the order of the text. References to
fragments are not followed: each fragment is walked where it is defined. The list of arguments and
the list of directives of a node are announced as a whole before their members, also when they are
empty.

A selection set is told apart from all others of the document by its address: the number of its
definition and the numbers of the selections on the way to it.
-/

namespace GraphQLCheck

/-- Which selection set of a document: the number of the selection that holds it among the items of
the set around it, then the address of that set. The number of the definition comes last. -/
abbrev Address := List Nat

/-- A node of a document, with what the walk knows of it. -/
inductive Node where
  /-- The document. -/
  | document (node : Document)
  /-- An operation, with its number among the operations. -/
  | operation (index : Nat) (node : Operation)
  /-- The definition of a variable. -/
  | variableDefinition (node : VariableDefinition)
  /-- The definition of a fragment. -/
  | fragmentDefinition (node : FragmentDefinition)
  /-- A selection set. -/
  | selectionSet (address : Address) (set : SelectionSet)
  /-- A field, with its own selection set. -/
  | field (node : Field) (set : SelectionSet)
  /-- A reference to a fragment. -/
  | spread (node : FragmentSpread)
  /-- An inline fragment. -/
  | inline (node : InlineFragment)
  /-- A directive. -/
  | directive (node : Directive)
  /-- An argument, at the position of the field or directive that has it. -/
  | argument (position : Position) (node : Argument)
  /-- A literal, at the position of what it belongs to. -/
  | value (position : Position) (literal : Literal)
  deriving Repr, Inhabited

namespace Node

/-- The kind of a node. -/
def kind : Node → NodeKind
  | document _ => .document
  | operation _ node => .operation node.kind
  | variableDefinition _ => .variableDefinition
  | fragmentDefinition _ => .fragmentDefinition
  | selectionSet _ _ => .selectionSet
  | field _ _ => .field
  | spread _ => .fragmentSpread
  | inline _ => .inlineFragment
  | directive _ => .directive
  | argument _ _ => .argument
  | value _ (.atom (.var _)) => .variableUse
  | value _ _ => .value

end Node

/-- A step of a walk. -/
inductive Hook where
  /-- A node is entered. -/
  | enter (node : Node)
  /-- A node is left. -/
  | leave (node : Node)
  /-- The arguments of the node last entered follow. -/
  | arguments (position : Position) (list : List Argument)
  /-- The directives of the node last entered follow. -/
  | directives (list : List Directive)
  deriving Repr, Inhabited

namespace Hook

/-- The walk of a node, given the walk of what it contains. -/
def around (node : Node) (inside : List Hook) : List Hook :=
  .enter node :: (inside ++ [.leave node])

mutual

/-- The walk of a literal. Its parts stand at the position of the whole. -/
def ofLiteral (position : Position) : Literal → List Hook
  | .atom value => around (.value position (.atom value)) []
  | .list items => around (.value position (.list items)) (ofItems position items)
  | .object fields => around (.value position (.object fields)) (ofFields position fields)

/-- The walk of the items of a list. -/
def ofItems (position : Position) : List Literal → List Hook
  | [] => []
  | item :: rest => ofLiteral position item ++ ofItems position rest

/-- The walk of the values of an object, in the order of the names of its fields. -/
def ofFields (position : Position) : List (String × Literal) → List Hook
  | [] => []
  | (_, value) :: rest => ofLiteral position value ++ ofFields position rest

end

/-- The walk of an argument. -/
def ofArgument (position : Position) (a : Argument) : List Hook :=
  around (.argument position a) (ofLiteral position a.value)

/-- The walk of the arguments of a field or directive. -/
def ofArguments (position : Position) (list : List Argument) : List Hook :=
  .arguments position list :: list.flatMap (ofArgument position)

/-- The walk of a directive. -/
def ofDirective (d : Directive) : List Hook :=
  around (.directive d) (ofArguments d.position d.arguments)

/-- The walk of the directives of a node. -/
def ofDirectives (list : List Directive) : List Hook :=
  .directives list :: list.flatMap ofDirective

/-- The walk of the definition of a variable. -/
def ofVariableDefinition (v : VariableDefinition) : List Hook :=
  around (.variableDefinition v) ((v.default?.map (ofLiteral v.position)).getD [])

mutual

/-- The walk of a selection whose own set has the given address. The set of a field is walked only
if it selects something. -/
def ofSelection (address : Address) : Selection → List Hook
  | .field node span items =>
    around (.field node ⟨span, items⟩)
      (ofArguments node.position node.arguments ++ ofDirectives node.directives ++
        match items with
        | [] => []
        | _ :: _ => around (.selectionSet address ⟨span, items⟩) (ofSelections address 0 items))
  | .spread node => around (.spread node) (ofDirectives node.directives)
  | .inline node span items =>
    around (.inline node)
      (ofDirectives node.directives ++
        around (.selectionSet address ⟨span, items⟩) (ofSelections address 0 items))

/-- The walk of the selections of a set at an address, from the given number on. -/
def ofSelections (address : Address) (index : Nat) : List Selection → List Hook
  | [] => []
  | item :: rest => ofSelection (index :: address) item ++ ofSelections address (index + 1) rest

end

/-- The walk of a selection set. -/
def ofSelectionSet (address : Address) (set : SelectionSet) : List Hook :=
  around (.selectionSet address set) (ofSelections address 0 set.items)

/-- The walk of an operation. -/
def ofOperation (address : Address) (index : Nat) (o : Operation) : List Hook :=
  around (.operation index o)
    (o.declared.flatMap ofVariableDefinition ++ ofDirectives o.directives ++
      ofSelectionSet address o.selectionSet)

/-- The walk of the definition of a fragment. -/
def ofFragmentDefinition (address : Address) (f : FragmentDefinition) : List Hook :=
  around (.fragmentDefinition f)
    (ofDirectives f.directives ++ ofSelectionSet address f.selectionSet)

/-- The walk of definitions, the first of which has the given number and follows so many
operations. -/
def ofDefinitions (number operations : Nat) : List Definition → List Hook
  | [] => []
  | d :: rest =>
    match d.operation?, d.fragment? with
    | some o, _ =>
      ofOperation [number] operations o ++ ofDefinitions (number + 1) (operations + 1) rest
    | none, some f =>
      ofFragmentDefinition [number] f ++ ofDefinitions (number + 1) operations rest
    | none, none => ofDefinitions (number + 1) operations rest

end Hook

namespace Document

/-- The walk of a document. -/
def hooks (d : Document) : List Hook :=
  Hook.around (.document d) (Hook.ofDefinitions 0 0 d.definitions)

end Document

end GraphQLCheck
