import GraphQLCheck.Document.RepeatedFields
import GraphQLCheck.TypeRef

/-!
# Executable documents

A document is a list of definitions: operations, which may be written as a bare selection set, and
fragments. A fragment is known by its first definition; operations are numbered in the order of the
text.
-/

namespace GraphQLCheck

/-- An argument of a field or of a directive. -/
structure Argument where
  /-- The name of the parameter. -/
  name : String
  /-- The literal given for it. -/
  written : Written
  deriving DecidableEq, Repr, Inhabited

/-- The value of an argument. -/
def Argument.value (a : Argument) : Literal := a.written.toLiteral

/-- A directive where it is used. -/
structure Directive where
  /-- The position of its mark. -/
  position : Position
  /-- The name after the mark. -/
  name : String
  /-- Its arguments. -/
  arguments : List Argument
  deriving DecidableEq, Repr, Inhabited

/-- What a field selection says, apart from its own selections. -/
structure Field where
  /-- The position of the alias, or of the name if there is none. -/
  position : Position
  /-- Another name for the answer. -/
  alias? : Option String
  /-- The name of the field. -/
  name : String
  /-- Its arguments. -/
  arguments : List Argument
  /-- Its directives. -/
  directives : List Directive
  deriving DecidableEq, Repr, Inhabited

/-- The name of a field in the answer. -/
def Field.responseName (f : Field) : String := f.alias?.getD f.name

/-- A reference to a fragment. -/
structure FragmentSpread where
  /-- The position of the fragment's name. -/
  position : Position
  /-- The name of the fragment. -/
  name : String
  /-- Its directives. -/
  directives : List Directive
  deriving DecidableEq, Repr, Inhabited

/-- What an inline fragment says, apart from its selections. -/
structure InlineFragment where
  /-- The position of what follows the three dots. -/
  position : Position
  /-- The type that it applies to, if it names one. -/
  condition? : Option String
  /-- Its directives. -/
  directives : List Directive
  deriving DecidableEq, Repr, Inhabited

/-- An item of a selection set. -/
inductive Selection where
  /-- A field. Without a selection set of its own the span is the field's position twice. -/
  | field (node : Field) (span : Span) (selections : List Selection)
  /-- A reference to a fragment. -/
  | spread (node : FragmentSpread)
  /-- A fragment written in place. -/
  | inline (node : InlineFragment) (span : Span) (selections : List Selection)
  deriving Repr, Inhabited

namespace Selection

mutual

/-- Decide whether two selections are the same. -/
def decEq : (a b : Selection) → Decidable (a = b)
  | field n s as, field m t bs =>
    match itemsDecEq as bs with
    | isTrue h => decidable_of_decidable_of_iff (p := n = m ∧ s = t) (by simp [h])
    | isFalse h => isFalse fun heq => h (field.inj heq).2.2
  | spread n, spread m => decidable_of_decidable_of_iff (p := n = m) (by simp)
  | inline n s as, inline m t bs =>
    match itemsDecEq as bs with
    | isTrue h => decidable_of_decidable_of_iff (p := n = m ∧ s = t) (by simp [h])
    | isFalse h => isFalse fun heq => h (inline.inj heq).2.2
  | field _ _ _, spread _ | field _ _ _, inline _ _ _ | spread _, field _ _ _
  | spread _, inline _ _ _ | inline _ _ _, field _ _ _ | inline _ _ _, spread _ => isFalse nofun

/-- Decide whether two lists of selections are the same. -/
def itemsDecEq : (a b : List Selection) → Decidable (a = b)
  | [], [] => isTrue rfl
  | [], _ :: _ | _ :: _, [] => isFalse nofun
  | a :: as, b :: bs =>
    match decEq a b, itemsDecEq as bs with
    | isTrue h, isTrue h' => isTrue (h ▸ h' ▸ rfl)
    | isFalse h, _ => isFalse fun heq => h (List.cons.inj heq).1
    | _, isFalse h => isFalse fun heq => h (List.cons.inj heq).2

end

instance : DecidableEq Selection := decEq

end Selection

/-- What stands between two braces. -/
structure SelectionSet where
  /-- The positions of the braces. -/
  span : Span
  /-- The selections between them. -/
  items : List Selection
  deriving DecidableEq, Repr, Inhabited

/-- The three kinds of operation. -/
inductive OperationKind where
  /-- A query. -/
  | query
  /-- A mutation. -/
  | mutation
  /-- A subscription. -/
  | subscription
  deriving DecidableEq, Repr, Inhabited

namespace OperationKind

/-- The kind as a word in messages. -/
def render : OperationKind → String
  | query => "Query"
  | mutation => "Mutation"
  | subscription => "Subscription"

end OperationKind

/-- The definition of a variable of an operation. -/
structure VariableDefinition where
  /-- The position of the dollar sign. -/
  position : Position
  /-- The name, without the dollar sign. -/
  name : String
  /-- The type of its values. -/
  type : TypeRef
  /-- The literal that stands for a missing value. -/
  written? : Option Written
  deriving DecidableEq, Repr, Inhabited

/-- The value that stands for a missing one. -/
def VariableDefinition.default? (v : VariableDefinition) : Option Literal :=
  v.written?.map Written.toLiteral

/-- An operation. -/
structure Operation where
  /-- Its kind. -/
  kind : OperationKind
  /-- The position of its keyword, or of the brace of a bare selection set. -/
  position : Position
  /-- Its name, if it has one. -/
  name? : Option String
  /-- The variables that it declares. -/
  declared : List VariableDefinition
  /-- Its directives. -/
  directives : List Directive
  /-- What it selects. -/
  selectionSet : SelectionSet
  deriving DecidableEq, Repr, Inhabited

/-- The definition of a fragment. -/
structure FragmentDefinition where
  /-- The position of its keyword. -/
  position : Position
  /-- Its name. -/
  name : String
  /-- The type that it applies to. -/
  condition : String
  /-- Its directives. -/
  directives : List Directive
  /-- What it selects. -/
  selectionSet : SelectionSet
  deriving DecidableEq, Repr, Inhabited

/-- A definition of a document. -/
inductive Definition where
  /-- An operation with its keyword. -/
  | operation (node : Operation)
  /-- A query without a keyword. -/
  | bare (set : SelectionSet)
  /-- A fragment. -/
  | fragment (node : FragmentDefinition)
  deriving DecidableEq, Repr, Inhabited

namespace Definition

/-- The operation that a definition defines. A bare selection set is a query without a name. -/
def operation? : Definition → Option Operation
  | operation node => some node
  | bare set => some ⟨.query, set.span.first, none, [], [], set⟩
  | fragment _ => none

/-- The fragment that a definition defines. -/
def fragment? : Definition → Option FragmentDefinition
  | fragment node => some node
  | _ => none

end Definition

/-- An executable document. -/
structure Document where
  /-- Its definitions in the order of the text. -/
  definitions : List Definition
  /-- The repeated fields of its object literals, in the order of the text. -/
  repeatedFields : List RepeatedField
  deriving DecidableEq, Repr, Inhabited

namespace Document

/-- The operations in order. -/
def operations (d : Document) : List Operation := d.definitions.filterMap Definition.operation?

/-- All fragment definitions in order. -/
def fragments (d : Document) : List FragmentDefinition :=
  d.definitions.filterMap Definition.fragment?

/-- The fragments in order, of each name the first definition. -/
def knownFragments (d : Document) : List FragmentDefinition :=
  d.fragments.eraseDupsBy (·.name == ·.name)

/-- The first definition of a fragment. -/
def fragment? (d : Document) (name : String) : Option FragmentDefinition :=
  d.fragments.find? (·.name = name)

end Document

end GraphQLCheck
