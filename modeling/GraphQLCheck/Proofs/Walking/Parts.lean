import GraphQLCheck.Proofs.Walk

/-!
# The parts of a document

The syntax of a document one level at a time: `Part.items` says what stands in a part, in the order
of the text, and not what stands in that. A place of a document is given by the numbers of the items
on the way to it, and `Document.at?` finds what is there together with the parts around it.

What is known at a place is then a function of these parts and the schema alone: the kinds of the
parts (`Part.node`), the type, the parent type, the field, the parameter and the directive at hand
(`Schema.typeAt` and so on). None of them is told what stands beside the parts on the way.
`Scope.shows_inside` says that entering the parts from the outside inwards, and nothing else, gives
a scope that shows these values.
-/

namespace GraphQLCheck

/-! ### Parts and what stands in them -/

/-- A part of a document, with all that stands in it. -/
inductive Part where
  /-- The document. -/
  | document (node : Document)
  /-- An operation, with its numbers among the definitions and among the operations. -/
  | operation (number index : ℕ) (node : Operation)
  /-- The definition of a fragment, with its number among the definitions. -/
  | fragmentDefinition (number : ℕ) (node : FragmentDefinition)
  /-- The definition of a variable. -/
  | variableDefinition (node : VariableDefinition)
  /-- A selection set. -/
  | selectionSet (address : Address) (set : SelectionSet)
  /-- A selection, with the address of its own set. -/
  | selection (address : Address) (item : Selection)
  /-- A directive. -/
  | directive (node : Directive)
  /-- An argument, at the position of the field or directive that has it. -/
  | argument (position : Position) (node : Argument)
  /-- A literal, at the position of what it belongs to. -/
  | value (position : Position) (literal : Literal)

/-- What stands in a part. The lists of its arguments and of its directives are items too. -/
inductive Item where
  /-- A list of arguments begins. -/
  | arguments (position : Position) (list : List Argument)
  /-- A list of directives begins. -/
  | directives (list : List Directive)
  /-- A part. -/
  | part (p : Part)

namespace Item

/-- A list of arguments and its members. -/
def ofArguments (position : Position) (list : List Argument) : List Item :=
  arguments position list :: list.map fun a => part (.argument position a)

/-- A list of directives and its members. -/
def ofDirectives (list : List Directive) : List Item :=
  directives list :: list.map fun d => part (.directive d)

/-- A definition with its number, after so many operations. -/
def ofDefinition (number operations : ℕ) : Definition → Item
  | .operation o => part (.operation number operations o)
  | .bare set => part (.operation number operations ⟨.query, set.span.first, none, [], [], set⟩)
  | .fragment f => part (.fragmentDefinition number f)

end Item

namespace Part

/-- A part as a node of the walk. -/
def node : Part → Node
  | document d => .document d
  | operation _ index o => .operation index o
  | fragmentDefinition _ f => .fragmentDefinition f
  | variableDefinition v => .variableDefinition v
  | selectionSet address set => .selectionSet address set
  | selection _ item => item.node
  | directive d => .directive d
  | argument position a => .argument position a
  | value position v => .value position v

/-- What stands in a part, in the order of the text. The set of a field is there only if it selects
something, and nothing stands in a reference to a fragment but its directives. -/
def items : Part → List Item
  | document d => d.definitions.mapIdx fun number definition =>
      .ofDefinition number (Definition.operationsBefore d.definitions number) definition
  | operation number _ o =>
      o.declared.map (fun v => .part (.variableDefinition v)) ++ Item.ofDirectives o.directives ++
        [.part (.selectionSet [number] o.selectionSet)]
  | fragmentDefinition number f =>
      Item.ofDirectives f.directives ++ [.part (.selectionSet [number] f.selectionSet)]
  | variableDefinition v => v.default?.toList.map fun value => .part (.value v.position value)
  | selectionSet address set =>
      set.items.mapIdx fun index item => .part (.selection (index :: address) item)
  | selection _ (.field f _ []) =>
      Item.ofArguments f.position f.arguments ++ Item.ofDirectives f.directives
  | selection address (.field f span (item :: rest)) =>
      Item.ofArguments f.position f.arguments ++ Item.ofDirectives f.directives ++
        [.part (.selectionSet address ⟨span, item :: rest⟩)]
  | selection _ (.spread node) => Item.ofDirectives node.directives
  | selection address (.inline node span items) =>
      Item.ofDirectives node.directives ++ [.part (.selectionSet address ⟨span, items⟩)]
  | directive d => Item.ofArguments d.position d.arguments
  | argument position a => [.part (.value position a.value)]
  | value _ (.atom _) => []
  | value position (.list items) => items.map fun v => .part (.value position v)
  | value position (.object fields) => fields.map fun field => .part (.value position field.2)

end Part

/-! ### Places -/

namespace Item

/-- What is found on a way inwards from an item, with the parts around it, the innermost one
first. -/
def at? (above : List Part) : Item → List ℕ → Option (List Part × Item)
  | item, [] => some (above, item)
  | part p, k :: place => p.items[k]?.bind fun item => item.at? (p :: above) place
  | arguments _ _, _ :: _ | directives _, _ :: _ => none

/-- The path to an item: the parts around it, and itself if it is a part. A list belongs to the part
that has it. -/
def path (above : List Part) : Item → List Part
  | part p => p :: above
  | arguments _ _ | directives _ => above

end Item

/-- What is found at a place of a document, with the parts around it. The document is item 0. -/
def Document.at? (d : Document) : List ℕ → Option (List Part × Item)
  | 0 :: place => Item.at? [] (.part (.document d)) place
  | _ => none

-- The argument of the field of a query: its list is item 0 of the field, and it is item 1.
example : (Document.at? ⟨[.bare ⟨⟨⟨1, 1⟩, ⟨1, 11⟩⟩,
      [.field ⟨⟨1, 3⟩, none, "f", [⟨"a", .atom .null⟩], []⟩ ⟨⟨1, 3⟩, ⟨1, 3⟩⟩ []]⟩], []⟩
    [0, 0, 1, 0, 1]).map (fun found => found.1.map (·.node.kind)) =
      some [.field, .selectionSet, .operation .query, .document] := by decide

/-! ### What is known on a path -/

namespace Schema

variable (schema : Schema)

mutual

/-- The type of the innermost field, fragment or operation of a path. An inline fragment without a
condition has the type of what is around it. -/
def typeAt : List Part → Option TypeDefinition
  | [] => none
  | .operation _ _ o :: _ => schema.root? o.kind
  | .fragmentDefinition _ f :: _ => schema.type? f.condition
  | .selection _ (.field f _ _) :: above =>
    ((parentAt above).bind (schema.selectedField? · f.name)).bind (schema.type? ·.type.innermost)
  | .selection _ (.inline i _ _) :: above =>
    match i.condition? with
    | some name => schema.type? name
    | none => typeAt above
  | _ :: above => typeAt above

/-- The type that the innermost selection set of a path selects from, if it is composite. -/
def parentAt : List Part → Option TypeDefinition
  | [] => none
  | .selectionSet _ _ :: above => (typeAt above).filter (·.isComposite)
  | _ :: above => parentAt above

end

/-- The definition of the innermost field of a path. -/
def fieldAt : List Part → Option FieldDefinition
  | [] => none
  | .selection _ (.field f _ _) :: above =>
    (schema.parentAt above).bind (schema.selectedField? · f.name)
  | _ :: above => fieldAt above

/-- The definition of the innermost directive of a path. -/
def directiveAt : List Part → Option DirectiveDefinition
  | [] => none
  | .directive d :: _ => schema.directive? d.name
  | _ :: above => directiveAt above

/-- The parameter of the innermost argument of a path: of the directive that has the argument, or
else of the innermost field. -/
def parameterAt : List Part → Option InputValue
  | [] => none
  | .argument _ a :: .directive d :: _ => (schema.directive? d.name).bind (·.parameter? a.name)
  | .argument _ a :: above => (schema.fieldAt above).bind (·.parameter? a.name)
  | _ :: above => parameterAt above

end Schema

/-- A scope shows what is known on a path. -/
structure Scope.Shows (schema : Schema) (path : List Part) (s : Scope) : Prop where
  /-- The kinds of the parts. -/
  ancestors : s.ancestors = path.map (·.node.kind)
  /-- The type. -/
  type : s.type? = schema.typeAt path
  /-- The parent type. -/
  parent : s.parent? = schema.parentAt path
  /-- The field. -/
  field : s.field? = schema.fieldAt path
  /-- The parameter. -/
  parameter : s.parameter? = schema.parameterAt path
  /-- The directive. -/
  directive : s.directive? = schema.directiveAt path

namespace Scope

/-- The scope inside the parts of a path if nothing but these is ever entered. -/
def inside (schema : Schema) : List Part → Scope
  | [] => .empty
  | p :: above => (inside schema above).enter schema p.node

variable {schema : Schema} {above : List Part} {s : Scope}

/-- The parameter that an argument enters is the one of its owner on the path. -/
theorem Shows.parameterNamed? (h : s.Shows schema above) (position : Position) (a : Argument) :
    s.parameterNamed? a.name = schema.parameterAt (.argument position a :: above) := by
  rw [Scope.parameterNamed?, h.ancestors, h.field, h.directive]
  cases above with
  | nil => rfl
  | cons p above =>
    cases p with
    | selection address item => cases item <;> rfl
    | value position v =>
      cases v with
      | atom v => cases v <;> rfl
      | _ => rfl
    | _ => rfl

/-- Entering a part extends the path by it. -/
theorem Shows.enter (h : s.Shows schema above) (p : Part) :
    (s.enter schema p.node).Shows schema (p :: above) := by
  have hnamed := h.parameterNamed?
  obtain ⟨hancestors, htype, hparent, hfield, hparameter, hdirective⟩ := h
  have hkinds : p.node.kind :: s.ancestors = (p :: above).map (·.node.kind) :=
    congrArg _ hancestors
  cases p with
  | operation number index o => exact ⟨hkinds, rfl, hparent, hfield, hparameter, hdirective⟩
  | fragmentDefinition number f => exact ⟨hkinds, rfl, hparent, hfield, hparameter, hdirective⟩
  | selectionSet address set =>
    exact ⟨hkinds, htype, congrArg (Option.filter _) htype, hfield, hparameter, hdirective⟩
  | selection address item =>
    cases item with
    | field f span items =>
      have hdefinition : s.parent?.bind (schema.selectedField? · f.name) =
          (schema.parentAt above).bind (schema.selectedField? · f.name) := by rw [hparent]
      exact ⟨hkinds, congrArg (Option.bind · _) hdefinition, hparent, hdefinition, hparameter,
        hdirective⟩
    | spread node => exact ⟨hkinds, htype, hparent, hfield, hparameter, hdirective⟩
    | inline node span items =>
      refine ⟨hkinds, ?_, hparent, hfield, hparameter, hdirective⟩
      change (match node.condition? with
        | some name => schema.type? name
        | none => s.type?) = _
      rw [htype]
      rfl
  | directive d => exact ⟨hkinds, htype, hparent, hfield, hparameter, rfl⟩
  | argument position a =>
    exact ⟨hkinds, htype, hparent, hfield, hnamed position a, hdirective⟩
  | document d | variableDefinition v | value position v =>
    exact ⟨hkinds, htype, hparent, hfield, hparameter, hdirective⟩

theorem shows_inside (schema : Schema) (path : List Part) :
    (inside schema path).Shows schema path := by
  induction path with
  | nil => exact ⟨rfl, rfl, rfl, rfl, rfl, rfl⟩
  | cons p above ih => exact ih.enter p

end Scope

end GraphQLCheck
