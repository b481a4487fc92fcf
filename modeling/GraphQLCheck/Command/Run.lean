import GraphQLCheck.Command.Arguments
import GraphQLCheck.Command.Discovery
import GraphQLCheck.Command.Report
import GraphQLCheck.Document.Reader
import GraphQLCheck.Schema.Loading

/-!
# Running the command line

What the program answers to its arguments, given the files that it can reach. Documents are
validated only if all paths lead somewhere and the schema can be built; the program fails if a
document is not valid. A block string without a value ends the program in the middle of its work: in
a schema at once, in a document with the task that validates it.
-/

namespace GraphQLCheck.Command

/-- How the program ends. -/
inductive Status where
  /-- All is well. -/
  | success
  /-- Something was found to be wrong. -/
  | failure
  /-- The program could not go on. -/
  | aborted
  deriving DecidableEq, Repr, Inhabited

/-- The exit code of the program. -/
def Status.code : Status → UInt32
  | success => 0
  | failure => 1
  | aborted => 101

/-- What the program writes and how it ends. -/
structure Answer where
  /-- How it ends. -/
  status : Status
  /-- What it writes to its output. -/
  output : String
  /-- What it writes about errors. -/
  errors : String
  deriving DecidableEq, Repr, Inhabited

namespace Answer

/-- Success with a text. -/
def success (text : String) : Answer := ⟨.success, text ++ "\n", ""⟩

/-- Failure before anything was validated. -/
def failure (text : String) : Answer := ⟨.failure, "", cross ++ " " ++ text ++ "\n"⟩

/-- The end in the middle of the work. -/
def aborted (text : String) : Answer := ⟨.aborted, "", text ++ "\n"⟩

end Answer

/-- The version of the program. -/
def version : String := "graphql 0.2.0"

/-- The help about a topic. -/
def helpText : Topic → List String
  | .program =>
    ["Usage: graphql [OPTIONS] [COMMAND]",
      "",
      "Commands:",
      "  validate  ",
      "  help      Print this message or the help of the given subcommand(s)",
      "",
      "Options:",
      "  -v, --verbose  Enable verbose output.",
      "  -h, --help     Print help",
      "  -V, --version  Print version"]
  | .validate =>
    ["Usage: graphql validate [OPTIONS] --schema <SCHEMA> <FILE_OR_DIR_PATHS>...",
      "",
      "Arguments:",
      "  <FILE_OR_DIR_PATHS>...  Paths to one or more executable GraphQL documents or " ++
        "directories containing them which need to be validated.",
      "",
      "Options:",
      "      --format <FORMAT>",
      "          How to print the validation report. [default: human] " ++
        "[possible values: human, json]",
      "      --graphql-file-exts <GRAPHQL_FILE_EXTS>",
      "          Set of file extensions to filter to when searching for executable documents " ++
        "within a directory. [default: graphql gql]",
      "  -v, --verbose",
      "          Enable verbose output.",
      "      --rule <RULE_NAME>",
      "          Only run the named validation rule. May be repeated. " ++
        "Every rule runs when omitted.",
      "  -s, --schema <SCHEMA>",
      "          Schema (SDL) files, or directories containing them, " ++
        "that documents are validated against. May be repeated.",
      "  -h, --help",
      "          Print help"]
  | .help =>
    ["Print this message or the help of the given subcommand(s)",
      "",
      "Usage: graphql help [COMMAND]...",
      "",
      "Arguments:",
      "  [COMMAND]...  Print help for the subcommand(s)"]

/-- The extensions of schemas in a directory. -/
def schemaExtensions : List String := ["graphql", "graphqls"]

/-- Validate the file at a path. -/
def validateFile (w : Workspace) (schema : Schema) (run : Validation) (path : String) :
    Except Text.InnerPlace FileReport :=
  match w.readText path with
  | .error cause => .ok ⟨path, .unreadable cause⟩
  | .ok content =>
    match Document.ofText content with
    | .error .illFormed => .ok ⟨path, .illFormed⟩
    | .error (.uncut place) => .error place
    | .ok document => .ok ⟨path, .checked (run.diagnostics schema document)⟩

/-- The number of the task that validates the first document; ten workers have numbers before. -/
def firstTask : Nat := 11

/-- Validate files by tasks with numbers from `task` on, or tell which task could not go on. -/
def validateFiles (w : Workspace) (schema : Schema) (run : Validation) (task : Nat) :
    List String → Except String (List FileReport)
  | [] => .ok []
  | path :: rest =>
    match validateFile w schema run path with
    | .error place =>
      .error ("task " ++ toString task ++ " panicked with message " ++ Json.quote place.message)
    | .ok report => (validateFiles w schema run (task + 1) rest).map (report :: ·)

/-- Validate documents. -/
def validate (w : Workspace) (o : Options) : Answer :=
  let schemas := discover w o.schemas schemaExtensions
  let documents := discover w o.paths o.extensions
  match schemas.errors ++ documents.errors with
  | [] =>
    match (Schema.ofSources w [.files schemas.paths]).1 with
    | .error (.uncut place) => .aborted place.message
    | .error e => .failure ("Errors building schema: " ++ e.message)
    | .ok schema =>
      let run := if o.rules.isEmpty then .full else Validation.ofRules o.rules
      match validateFiles w schema run firstTask documents.paths with
      | .error cause => .failure ("Validation task failed: " ++ cause)
      | .ok reports =>
        let text := match o.format with
          | .human => humanReport reports documents.skipped
          | .json => jsonReport reports
        let status : Status := if reports.all (·.isValid) then .success else .failure
        { Answer.success text with status }
  | errors =>
    .failure ("\n".intercalate
      ("Errors while searching for GraphQL files:" :: errors.map ("  * " ++ ·)))

/-- What the program answers to a request. -/
def answer (w : Workspace) : Request → Answer
  | .help topic => .success ("\n".intercalate (helpText topic))
  | .version => .success version
  | .validate options => validate w options

end GraphQLCheck.Command
