import GraphQLCheck.Rule.KnownNames

/-!
# Fields that can be selected

The rules that a field is defined on the type it is selected from, and that it has a selection set
of its own exactly if its type has fields. For a field that an abstract type lacks, the message
suggests types that have it: the interfaces of the possible types, those that most of them implement
first, and then the possible types themselves.
-/

namespace GraphQLCheck.Rule

/-- Count one more of a name; names are in the order in which they were first counted. -/
def countName (name : String) : List (String × Nat) → List (String × Nat)
  | [] => [(name, 1)]
  | (other, count) :: rest =>
    if other = name then (other, count + 1) :: rest else (other, count) :: countName name rest

/-- How often each name occurs, in the order of the first occurrences. -/
def countNames (names : List String) : List (String × Nat) :=
  names.foldl (fun counts name => countName name counts) []

/-- Whether a type has a field. -/
def hasField (schema : Schema) (field typeName : String) : Bool :=
  (schema.fieldOf? typeName field).isSome

/-- The possible types of a type that have a field. -/
def objectsWith (schema : Schema) (parent : TypeDefinition) (field : String) : List String :=
  (schema.possibleTypes parent.name).filter (hasField schema field)

/-- The interfaces of object types that have a field too, once for each object type. -/
def interfacesWith (schema : Schema) (objects : List String) (field : String) : List String :=
  objects.flatMap fun object => (schema.interfacesOf object).filter (hasField schema field)

/-- The types to suggest for a field that an abstract type lacks. -/
def suggestedTypes (schema : Schema) (parent : TypeDefinition) (field : String) : List String :=
  if parent.isAbstract then
    let objects := objectsWith schema parent field
    let counts := countNames (interfacesWith schema objects field)
    (counts.mergeSort fun a b => b.2 ≤ a.2).map (·.1) ++ objects
  else []

/-- The end of a message about a field that a type lacks. -/
def fieldHint (schema : Schema) (parent : TypeDefinition) (field : String) : String :=
  match suggestedTypes schema parent field with
  | [] => hint field ((parent.fields?.getD []).map (·.name))
  | types => " Did you mean to use an inline fragment on " ++ Suggestion.orList types ++ "?"

/-- Fields are defined on the type that they are selected from. -/
def fieldsOnCorrectType : Report :=
  Report.each fun setting visit =>
    match visit.hook with
    | .enter (.field f _) =>
      match visit.scope.parent?, visit.scope.field? with
      | some parent, none =>
        [⟨"Cannot query field \"" ++ f.name ++ "\" on type \"" ++ parent.name ++ "\"." ++
            fieldHint setting.schema parent f.name,
          [f.ref]⟩]
      | _, _ => []
    | _ => []

/-- Fields of leaf types have no selection set, and all other fields have one. -/
def scalarLeafs : Report :=
  Report.each fun _ visit =>
    match visit.hook with
    | .enter (.field f set) =>
      match visit.scope.type?, visit.scope.field? with
      | some type, some definition =>
        match type.isLeaf, set.items.isEmpty with
        | true, false =>
          [⟨"Field \"" ++ f.name ++ "\" must not have a selection since type \"" ++
              definition.type.render ++ "\" has no subfields.",
            [⟨.selectionSet, set.span.first⟩]⟩]
        | false, true =>
          [⟨"Field \"" ++ f.name ++ "\" of type \"" ++ definition.type.render ++
              "\" must have a selection of subfields. Did you mean \"" ++ f.name ++
              " \x7b ... \x7d\"?",
            [f.ref]⟩]
        | _, _ => []
      | _, _ => []
    | _ => []

end GraphQLCheck.Rule
