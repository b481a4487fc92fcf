import GraphQLCheck.Log
import GraphQLCheck.Schema.Assembly
import GraphQLCheck.Sdl.Reader

/-!
# Loading a schema from sources

A loading run takes up sources step by step: a text with or without a name, or files. A text without
a name is known by its number among such texts, which has 16 bits: after 65536 of them the numbers
start again. The log has a line for each text that is read, before it is read, and one for the schema
that is built.
-/

namespace GraphQLCheck

/-- A source of definitions. -/
inductive Source where
  /-- A text, perhaps with a name. -/
  | text (name? : Option String) (content : String)
  /-- Files, by their paths. -/
  | files (paths : List String)
  deriving Repr, Inhabited

/-- What loading has come to: the assembly, the number of the next text without a name, and the log. -/
structure Loading where
  /-- What has been loaded. -/
  assembly : Assembly
  /-- The number of the next text without a name. -/
  unnamed : UInt16
  /-- The log so far. -/
  log : List LogLine
  deriving Repr, Inhabited

namespace Loading

/-- Loading before the first source. -/
def start : Loading := ⟨Assembly.empty, 0, []⟩

/-- The name of the text without a name that has a given number. -/
def unnamedFile (number : UInt16) : String := "str://" ++ toString number

/-- The log line for a text. -/
def loadLine (file : String) : LogLine :=
  ⟨.trace, "Loading schema definitions from `" ++ file ++ "`"⟩

/-- A step of loading: what it has come to, and an error if it failed. -/
abbrev Step := Loading × Option SchemaError

/-- Take up a text that is known by a name. -/
def loadText (l : Loading) (file content : String) : Step :=
  let logged := { l with log := l.log ++ [loadLine file] }
  match Sdl.ofText content with
  | .error .illFormed => (logged, some (.illFormed file))
  | .error (.uncut place) => (logged, some (.uncut place))
  | .ok definitions =>
    match l.assembly.addDefinitions file definitions with
    | .ok assembly => ({ logged with assembly }, none)
    | .error e => (logged, some e)

/-- Take up files in order, up to the first that fails. -/
def loadFiles (w : Workspace) (l : Loading) : List String → Step
  | [] => (l, none)
  | path :: rest =>
    match w.readText path with
    | .error cause => (l, some (.unreadable cause))
    | .ok content =>
      match l.loadText path content with
      | (l, none) => l.loadFiles w rest
      | failed => failed

/-- Take up a source. -/
def load (w : Workspace) (l : Loading) : Source → Step
  | .text (some file) content => l.loadText file content
  | .text none content =>
    { l with unnamed := l.unnamed + 1 }.loadText (unnamedFile l.unnamed) content
  | .files paths => l.loadFiles w paths

/-- The log line for a schema. -/
def buildLine (s : Schema) : LogLine :=
  ⟨.trace, "Built schema with " ++ toString s.types.length ++ " types and "
    ++ toString s.directives.length ++ " directives"⟩

/-- Build the schema of what was loaded, with the whole log. -/
def build (l : Loading) : Except SchemaError Schema × List LogLine :=
  match l.assembly.build with
  | .ok schema => (.ok schema, l.log ++ [buildLine schema])
  | .error e => (.error e, l.log)

/-- Take up sources up to the first that fails: what loading has come to, how many sources
succeeded, and the error. -/
def loadAll (w : Workspace) (l : Loading) : List Source → Loading × Nat × Option SchemaError
  | [] => (l, 0, none)
  | source :: rest =>
    match l.load w source with
    | (l, none) =>
      let (l, count, error?) := l.loadAll w rest
      (l, count + 1, error?)
    | (l, some e) => (l, 0, some e)

end Loading

namespace Schema

/-- The schema that sources make up, with the log. -/
def ofSources (w : Workspace) (sources : List Source) :
    Except SchemaError Schema × List LogLine :=
  match Loading.start.loadAll w sources with
  | (l, _, some e) => (.error e, l.log)
  | (l, _, none) => l.build

/-- The schema that texts without names make up, with the log. -/
def ofTexts (texts : List String) : Except SchemaError Schema × List LogLine :=
  ofSources .empty (texts.map (.text none))

end Schema

end GraphQLCheck
