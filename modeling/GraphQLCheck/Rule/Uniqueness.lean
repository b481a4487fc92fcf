import GraphQLCheck.Rule.Report

/-!
# Names given once

The rules that a name is given only once: to an operation or a fragment of a document, to a variable
of an operation, to an argument of a field or directive, to a directive of a node, to a field of an
object literal. Every occurrence after the first is reported together with the first.
-/

namespace GraphQLCheck

/-- A name where it is given. -/
structure Mention where
  /-- The name. -/
  name : String
  /-- The node that has it. -/
  node : NodeRef
  deriving DecidableEq, Repr, Inhabited

namespace Mention

/-- The first mention of a name. -/
def first? (seen : List Mention) (name : String) : Option Mention := seen.find? (·.name = name)

/-- The mentions of names already seen, each after the first mention of its name. -/
def repeatsAfter (seen : List Mention) : List Mention → List (Mention × Mention)
  | [] => []
  | mention :: rest =>
    match first? seen mention.name with
    | some first => (first, mention) :: repeatsAfter seen rest
    | none => repeatsAfter (mention :: seen) rest

/-- The mentions of names given before, each after the first mention of its name. -/
def repeats (mentions : List Mention) : List (Mention × Mention) := repeatsAfter [] mentions

/-- Take note of a mention; one of a name already seen is a finding. -/
def note (message : String → String) (seen : List Mention) (mention : Mention) :
    List Mention × List Finding :=
  match first? seen mention.name with
  | some first => (seen, [⟨message mention.name, [first.node, mention.node]⟩])
  | none => (mention :: seen, [])

end Mention

namespace Rule

/-- The message about a name given twice. -/
def onlyOne (what name : String) : String :=
  "There can be only one " ++ what ++ " named \"" ++ name ++ "\"."

/-- Operations have different names. -/
def uniqueOperationNames : Report :=
  Report.scan ([] : List Mention) fun _ seen visit =>
    match visit.hook with
    | .enter (.operation _ o) =>
      match o.name? with
      | some name => Mention.note (onlyOne "operation") seen ⟨name, o.ref⟩
      | none => (seen, [])
    | _ => (seen, [])

/-- Fragments have different names. -/
def uniqueFragmentNames : Report :=
  Report.scan ([] : List Mention) fun _ seen visit =>
    match visit.hook with
    | .enter (.fragmentDefinition f) => Mention.note (onlyOne "fragment") seen ⟨f.name, f.ref⟩
    | _ => (seen, [])

/-- The variables of an operation have different names. -/
def uniqueVariableNames : Report :=
  Report.each fun _ visit =>
    match visit.hook with
    | .enter (.operation _ o) =>
      (Mention.repeats (o.declared.map fun v => ⟨v.name, v.ref⟩)).map fun (first, again) =>
        ⟨onlyOne "variable" again.name, [first.node, again.node]⟩
    | _ => []

/-- The arguments of a field or directive have different names. Arguments have no position of their
own, so that of the field or directive stands for them. -/
def uniqueArgumentNames : Report :=
  Report.each fun _ visit =>
    match visit.hook with
    | .arguments position list =>
      (Mention.repeats (list.map fun a => ⟨a.name, ⟨.argument, position⟩⟩)).map fun (_, again) =>
        ⟨onlyOne "argument" again.name, [again.node]⟩
    | _ => []

/-- Whether a directive may stand several times at one place. -/
def isRepeatable (schema : Schema) (name : String) : Bool :=
  (schema.directive? name).any (·.repeatable)

/-- A directive stands once at a node unless it is repeatable. -/
def uniqueDirectivesPerLocation : Report :=
  Report.each fun setting visit =>
    match visit.hook with
    | .directives list =>
      let single := list.filter fun d => !isRepeatable setting.schema d.name
      (Mention.repeats (single.map fun d => ⟨d.name, d.ref⟩)).map fun (first, again) =>
        ⟨"The directive \"" ++ again.name ++ "\" can only be used once at this location.",
          [first.node, again.node]⟩
    | _ => []

/-- The fields of an object literal have different names. -/
def uniqueInputFieldNames : Report :=
  Report.each fun _ visit =>
    match visit.hook with
    | .enter (.document d) =>
      d.repeatedFields.map fun r =>
        ⟨onlyOne "input field" r.name, [⟨.value, r.first⟩, ⟨.value, r.again⟩]⟩
    | _ => []

end Rule

end GraphQLCheck
