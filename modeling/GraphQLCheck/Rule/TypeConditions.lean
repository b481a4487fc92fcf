import GraphQLCheck.Rule.Report
import GraphQLCheck.Schema.Overlap

/-!
# Types that fragments apply to

The rules that a fragment applies to a composite type, and that it stands where objects of that type
can occur.
-/

namespace GraphQLCheck.Rule

/-- Whether a name is that of a type from which no fields can be selected. -/
def isNotComposite (schema : Schema) (name : String) : Bool :=
  (schema.type? name).any fun type => !type.isComposite

/-- Fragments apply to composite types. -/
def fragmentsOnCompositeTypes : Report :=
  Report.each fun setting visit =>
    match visit.hook with
    | .enter (.fragmentDefinition f) =>
      if isNotComposite setting.schema f.condition then
        [⟨"Fragment \"" ++ f.name ++ "\" cannot condition on non composite type \"" ++
            f.condition ++ "\".",
          [⟨.typeCondition, f.position⟩]⟩]
      else []
    | .enter (.inline i) =>
      match i.condition? with
      | some name =>
        if isNotComposite setting.schema name then
          [⟨"Fragment cannot condition on non composite type \"" ++ name ++ "\".",
            [⟨.typeCondition, i.position⟩]⟩]
        else []
      | none => []
    | _ => []

/-- Whether a fragment for a type never applies where fields are selected from another. Only
composite types are judged. -/
def neverApplies (schema : Schema) (type parent : TypeDefinition) : Bool :=
  type.isComposite && !schema.overlap type parent

/-- The end of a message about a fragment that never applies. -/
def neverOfType (type parent : TypeDefinition) : String :=
  " cannot be spread here as objects of type \"" ++ parent.name ++ "\" can never be of type \"" ++
    type.name ++ "\"."

/-- Fragments stand where they can apply. -/
def possibleFragmentSpreads : Report :=
  Report.each fun setting visit =>
    match visit.hook with
    | .enter (.spread s) =>
      let type? := (setting.document.fragment? s.name).bind (setting.schema.type? ·.condition)
      match type?, visit.scope.parent? with
      | some type, some parent =>
        if neverApplies setting.schema type parent then
          [⟨"Fragment \"" ++ s.name ++ "\"" ++ neverOfType type parent, [s.ref]⟩]
        else []
      | _, _ => []
    | .enter (.inline i) =>
      match i.condition?, visit.scope.type?, visit.scope.parent? with
      | some _, some type, some parent =>
        if neverApplies setting.schema type parent then
          [⟨"Fragment" ++ neverOfType type parent, [i.ref]⟩]
        else []
      | _, _, _ => []
    | _ => []

end GraphQLCheck.Rule
