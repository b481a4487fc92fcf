import GraphQLCheck.Literal.Printer
import GraphQLCheck.Rule.Overlap.Entry
import GraphQLCheck.Rule.Report

/-!
# Conflicts between fields

Two fields under one response name conflict if they are different fields, have different arguments,
return types whose values cannot be merged, or if fields inside them conflict. The first two do not
matter for fields that exclude one another, because they are selected from different object types.
-/

namespace GraphQLCheck.Overlap

/-- Why two fields conflict. -/
inductive Reason where
  /-- They are fields of different names. -/
  | differentFields (first second : String)
  /-- Their arguments differ. -/
  | differentArguments
  /-- The types of their values cannot be merged. -/
  | differentTypes (first second : TypeRef)
  /-- Fields inside them conflict, under these response names and for these reasons. -/
  | subfields (parts : List (String × Reason))
  deriving Repr, Inhabited

namespace Reason

mutual

/-- The reason in words. -/
def message : Reason → String
  | differentFields first second =>
    "\"" ++ first ++ "\" and \"" ++ second ++ "\" are different fields"
  | differentArguments => "they have differing arguments"
  | differentTypes first second =>
    "they return conflicting types " ++ first.render ++ " and " ++ second.render
  | subfields parts => " and ".intercalate (partMessages parts)

/-- The reasons of conflicts inside, in words. -/
def partMessages : List (String × Reason) → List String
  | [] => []
  | (name, reason) :: rest =>
    ("subfields \"" ++ name ++ "\" conflict because " ++ reason.message) :: partMessages rest

end

end Reason

/-- A conflict between two fields. -/
structure Conflict where
  /-- The response name. -/
  name : String
  /-- Why they conflict. -/
  reason : Reason
  /-- The first field and the fields inside it that take part. -/
  first : List Field
  /-- The second field and the fields inside it that take part. -/
  second : List Field
  deriving Repr, Inhabited

namespace Conflict

/-- The conflict of two fields over conflicts of fields inside them. -/
def ofParts (c : Candidate) (parts : List Conflict) : Conflict where
  name := c.name
  reason := .subfields (parts.map fun part => (part.name, part.reason))
  first := c.first.node :: parts.flatMap (·.first)
  second := c.second.node :: parts.flatMap (·.second)

/-- The finding about a conflict. -/
def finding (c : Conflict) : Finding :=
  ⟨"Fields \"" ++ c.name ++ "\" conflict because " ++ c.reason.message ++
      ". Use different aliases on the fields to fetch both if this was intentional.",
    (c.first ++ c.second).map Field.ref⟩

end Conflict

/-! ### Two fields for themselves -/

/-- Whether two lists of arguments have the same length and give the same values, as printed, to the
same names. -/
def sameArguments (first second : List Argument) : Bool :=
  first.length = second.length &&
    first.all fun a =>
      (second.find? (·.name = a.name)).any fun b => a.value.render = b.value.render

/-- Whether a name is that of a leaf type. -/
def isLeafName (schema : Schema) (name : String) : Bool := (schema.type? name).any (·.isLeaf)

/-- Whether values of two types cannot be merged: one may be missing and the other not, one is a
list and the other not, or they end in different types of which one is a leaf. -/
def typesConflict (schema : Schema) : TypeRef → TypeRef → Bool
  | .list item n, .list other m => n != m || typesConflict schema item other
  | .named name n, .named other m =>
    n != m || ((isLeafName schema name || isLeafName schema other) && name != other)
  | _, _ => true

/-- Whether two fields are selected from different object types. -/
def fromDifferentObjects (a b : Occurrence) : Bool :=
  match a.parent?, b.parent? with
  | some p, some q => p.name ≠ q.name && p.isObject && q.isObject
  | _, _ => false

/-- The reason for which two fields conflict apart from their own selections; `exclusive` says that
they exclude one another. -/
def ownReason? (schema : Schema) (exclusive : Bool) (a b : Occurrence) : Option Reason :=
  if !exclusive && a.node.name ≠ b.node.name then
    some (.differentFields a.node.name b.node.name)
  else if !exclusive && !sameArguments a.node.arguments b.node.arguments then
    some .differentArguments
  else
    match a.definition?, b.definition? with
    | some f, some g =>
      if typesConflict schema f.type g.type then some (.differentTypes f.type g.type) else none
    | _, _ => none

end GraphQLCheck.Overlap
