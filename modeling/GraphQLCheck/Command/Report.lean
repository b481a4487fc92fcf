import GraphQLCheck.Command.Json
import GraphQLCheck.Files.Read
import GraphQLCheck.Validation

/-!
# Reports on files

What came of validating each file, written for people or as JSON.
-/

namespace GraphQLCheck.Command

/-- What came of validating a file. -/
inductive Outcome where
  /-- It is a document, with these diagnostics. -/
  | checked (diagnostics : List Diagnostic)
  /-- It is not a document. -/
  | illFormed
  /-- It could not be read. -/
  | unreadable (cause : ReadError)
  deriving DecidableEq, Repr, Inhabited

/-- What came of validating the file at a path. -/
structure FileReport where
  /-- The path of the file. -/
  path : String
  /-- What came of it. -/
  outcome : Outcome
  deriving DecidableEq, Repr, Inhabited

namespace FileReport

/-- What stands for the message about a text that is not a document. -/
def syntaxMessage : String := "<syntax error>"

/-- The diagnostics of a file. -/
def diagnostics (r : FileReport) : List Diagnostic :=
  match r.outcome with
  | .checked diagnostics => diagnostics
  | _ => []

/-- Why a file could not be validated. -/
def failure? (r : FileReport) : Option String :=
  match r.outcome with
  | .checked _ => none
  | .illFormed => some syntaxMessage
  | .unreadable cause => some cause.message

/-- Whether a file is a valid document. -/
def isValid (r : FileReport) : Bool :=
  match r.outcome with
  | .checked diagnostics => diagnostics.isEmpty
  | _ => false

end FileReport

/-! ### For people -/

/-- The mark of success. -/
def check : String := "✅"

/-- The mark of failure. -/
def cross : String := "❌"

/-- A number with the word for what is counted. -/
def countOf (count : Nat) (singular plural : String) : String :=
  toString count ++ " " ++ if count = 1 then singular else plural

/-- The lines about a diagnostic. -/
def diagnosticLines (path : String) (d : Diagnostic) : List String :=
  let said := " [" ++ d.rule.render ++ "] " ++ d.message
  match d.nodes with
  | [] => ["  " ++ path ++ said]
  | first :: others =>
    ("  " ++ path ++ ":" ++ first.position.render ++ said) ::
      others.map fun node => "      (also at " ++ node.position.render ++ ")"

/-- The lines about a file. There are none about a valid document. -/
def fileLines (r : FileReport) : List String :=
  match r.outcome with
  | .checked [] => []
  | .checked diagnostics => (cross ++ " " ++ r.path) :: diagnostics.flatMap (diagnosticLines r.path)
  | .illFormed => [cross ++ " " ++ r.path, "  Failed to parse: " ++ FileReport.syntaxMessage]
  | .unreadable cause => [cross ++ " " ++ r.path, "  Failed to read: " ++ cause.message]

/-- The lines at the end of a report. -/
def summaryLines (reports : List FileReport) (skipped : Nat) : List String :=
  let documents := countOf reports.length "document" "documents"
  match reports.countP fun r => !r.isValid with
  | 0 =>
    [check ++ " All GraphQL validated successfully:",
      "  * Validated " ++ documents ++ ".",
      "  * Skipped " ++ countOf skipped "non-graphql file" "non-graphql files" ++ "."]
  | failed =>
    let errors := (reports.flatMap (·.diagnostics)).length
    ["", cross ++ " Found " ++ countOf errors "validation error" "validation errors" ++ " in " ++
      toString failed ++ " of " ++ documents ++ "."]

/-- A report for people, without the last line feed. -/
def humanReport (reports : List FileReport) (skipped : Nat) : String :=
  "\n".intercalate (reports.flatMap fileLines ++ summaryLines reports skipped)

/-! ### As JSON -/

/-- A node that a diagnostic points at. -/
def nodeJson (node : NodeRef) : Json :=
  let kind := match node.kind with
    | .operation kind => .object [("Operation", .string kind.render)]
    | kind => .string kind.name
  .object
    [("kind", kind),
      ("position", .object
        [("col", .number node.position.column), ("file", .null),
          ("line", .number node.position.line)])]

/-- A diagnostic. -/
def diagnosticJson (d : Diagnostic) : Json :=
  .object
    [("rule", .string d.rule.render), ("message", .string d.message),
      ("nodes", .array (d.nodes.map nodeJson))]

/-- A file. -/
def fileJson (r : FileReport) : Json :=
  let error := match r.failure? with
    | some message => [("error", Json.string message)]
    | none => []
  .object <|
    [("diagnostics", .array (r.diagnostics.map diagnosticJson))] ++ error ++
    [("path", .string r.path), ("valid", .bool r.isValid)]

/-- A report as JSON. -/
def jsonReport (reports : List FileReport) : String := (Json.array (reports.map fileJson)).render

end GraphQLCheck.Command
