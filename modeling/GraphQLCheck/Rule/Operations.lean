import GraphQLCheck.Rule.Report

/-!
# Operations of a document

The rules that an operation without a name is the only one, and that a subscription selects a single
field. Fields of a subscription are counted by response name, through inline fragments and through
the fragments that are referred to, each fragment once.
-/

namespace GraphQLCheck

/-- The fields at the top of an operation. -/
structure TopFields where
  /-- The names of the fragments referred to. -/
  followed : List String
  /-- For each response name the first field met. -/
  fields : List Field
  deriving Repr, Inhabited

namespace TopFields

/-- Add a field, unless one of its response name was met before. -/
def add (top : TopFields) (f : Field) : TopFields :=
  if top.fields.any (·.responseName = f.responseName) then top
  else { top with fields := top.fields ++ [f] }

/-- Follow a reference to a fragment, unless one of its name was followed before. -/
def follow (document : Document) (enter : FragmentDefinition → TopFields → TopFields)
    (name : String) (top : TopFields) : TopFields :=
  if name ∈ top.followed then top
  else
    let top := { top with followed := name :: top.followed }
    match document.fragment? name with
    | some f => enter f top
    | none => top

mutual

/-- Add the fields of a selection, given what to do with a fragment. -/
def selection (document : Document) (enter : FragmentDefinition → TopFields → TopFields) :
    Selection → TopFields → TopFields
  | .field node _ _, top => top.add node
  | .spread node, top => top.follow document enter node.name
  | .inline _ _ items, top => selections document enter items top

/-- Add the fields of selections. -/
def selections (document : Document) (enter : FragmentDefinition → TopFields → TopFields) :
    List Selection → TopFields → TopFields
  | [], top => top
  | item :: rest, top => selections document enter rest (selection document enter item top)

end

/-- Add the fields of a fragment, following at most so many fragments one inside another. -/
def fragment (document : Document) : (depth : Nat) → FragmentDefinition → TopFields → TopFields
  | 0, _, top => top
  | depth + 1, f, top => selections document (fragment document depth) f.selectionSet.items top

end TopFields

namespace Operation

/-- For each response name at the top of an operation the first field met. A chain of fragments,
each followed inside the one before, has no name twice, so it is no longer than the list of
fragments. -/
def topFields (document : Document) (o : Operation) : List Field :=
  (TopFields.selections document (TopFields.fragment document document.fragments.length)
    o.selectionSet.items ⟨[], []⟩).fields

end Operation

namespace Rule

/-- An operation without a name is the only operation. -/
def loneAnonymousOperation : Report :=
  Report.each fun setting visit =>
    match visit.hook with
    | .enter (.operation _ o) =>
      if o.name?.isNone ∧ 1 < setting.document.operations.length then
        [⟨"This anonymous operation must be the only defined operation.", [o.ref]⟩]
      else []
    | _ => []

/-- The message about a subscription with several fields. -/
def severalFields (o : Operation) : String :=
  let subject := match o.name? with
    | some name => "Subscription \"" ++ name ++ "\""
    | none => "Anonymous Subscription"
  subject ++ " must select only one top level field."

/-- A subscription selects a single field. -/
def singleFieldSubscriptions : Report :=
  Report.each fun setting visit =>
    match visit.hook with
    | .enter (.operation _ o) =>
      match o.kind, o.topFields setting.document with
      | .subscription, _ :: extra :: more =>
        [⟨severalFields o, (extra :: more).map Field.ref⟩]
      | _, _ => []
    | _ => []

end Rule

end GraphQLCheck
