import GraphQLCheck.Rule.Basic

/-!
# Arguments of the command line

The arguments are read from left to right, and the first of them that is wrong or asks for help or
the version decides. An option takes its value from the same argument or from the next one, which
must not look like an option. After two dashes every argument is a path.
-/

namespace GraphQLCheck.Command

/-- How a report is written. -/
inductive Format where
  /-- For people. -/
  | human
  /-- As JSON. -/
  | json
  deriving DecidableEq, Repr, Inhabited

/-- What documents are validated, and how. -/
structure Options where
  /-- How the report is written. -/
  format : Format
  /-- The extensions of documents in a directory. -/
  extensions : List String
  /-- The rules to run, or all if there are none. -/
  rules : List RuleName
  /-- The paths of schemas. -/
  schemas : List String
  /-- The paths of documents. -/
  paths : List String
  deriving DecidableEq, Repr, Inhabited

/-- What there is help about. -/
inductive Topic where
  /-- The program. -/
  | program
  /-- The command that validates documents. -/
  | validate
  /-- The command that gives help. -/
  | help
  deriving DecidableEq, Repr, Inhabited

/-- What the command line asks for. -/
inductive Request where
  /-- Help. -/
  | help (topic : Topic)
  /-- The version of the program. -/
  | version
  /-- To validate documents. -/
  | validate (options : Options)
  deriving DecidableEq, Repr, Inhabited

namespace Request

/-- The paths at which files are looked for. -/
def paths : Request → List String
  | validate options => options.schemas ++ options.paths
  | _ => []

/-- The request with other paths. -/
def mapPaths (f : String → String) : Request → Request
  | validate options =>
    validate { options with schemas := options.schemas.map f, paths := options.paths.map f }
  | request => request

end Request

/-- Why the command line cannot be understood. -/
inductive UsageError where
  /-- There is no such command. -/
  | unknownCommand (name : String)
  /-- There is no such option, or no place for such an argument. -/
  | unexpected (argument : String)
  /-- An option lacks its value. -/
  | missingValue (option : String)
  /-- An option does not take such a value. -/
  | invalidValue (option value : String)
  /-- An option was given before. -/
  | repeated (option : String)
  /-- Something required was not given. -/
  | missing (what : String)
  deriving DecidableEq, Repr, Inhabited

namespace UsageError

/-- The message of a usage error. -/
def message : UsageError → String
  | unknownCommand name => "unrecognized subcommand '" ++ name ++ "'"
  | unexpected argument => "unexpected argument '" ++ argument ++ "' found"
  | missingValue option => "a value is required for '" ++ option ++ "' but none was supplied"
  | invalidValue option value => "invalid value '" ++ value ++ "' for '" ++ option ++ "'"
  | repeated option => "the argument '" ++ option ++ "' cannot be used multiple times"
  | missing what => "the following required arguments were not provided: " ++ what

end UsageError

/-! ### Options of the command that validates -/

/-- What has been given so far. -/
structure Given where
  /-- Whether more output was asked for. -/
  verbose : Bool
  /-- How the report is written. -/
  format? : Option Format
  /-- The extensions of documents. -/
  extensions? : Option (List String)
  /-- The rules to run. -/
  rules : List RuleName
  /-- The paths of schemas. -/
  schemas : List String
  /-- The paths of documents. -/
  paths : List String
  deriving Repr, Inhabited

namespace Given

/-- Nothing is given. -/
def nothing : Given := ⟨false, none, none, [], [], []⟩

/-- Ask for more output. -/
def setVerbose (g : Given) : Except UsageError Given :=
  if g.verbose then .error (.repeated "--verbose") else .ok { g with verbose := true }

/-- Give a path of a document. -/
def addPath (g : Given) (path : String) : Except UsageError Given :=
  if path = "" then .error (.missingValue "<FILE_OR_DIR_PATHS>...")
  else .ok { g with paths := g.paths ++ [path] }

/-- What was given, if nothing required is missing. -/
def finish (g : Given) : Except UsageError Request :=
  if g.schemas.isEmpty then .error (.missing "--schema <SCHEMA>")
  else if g.paths.isEmpty then .error (.missing "<FILE_OR_DIR_PATHS>...")
  else .ok <| .validate
    { format := g.format?.getD .human
      extensions := g.extensions?.getD ["graphql", "gql"]
      rules := g.rules
      schemas := g.schemas
      paths := g.paths }

end Given

/-- The options that take a value. -/
inductive ValueOption where
  /-- How the report is written. -/
  | format
  /-- The extensions of documents, separated by commas. -/
  | extensions
  /-- A rule to run. -/
  | rule
  /-- Paths of schemas, separated by commas. -/
  | schema
  deriving DecidableEq, Repr, Inhabited

namespace ValueOption

/-- The options that take a value. -/
def all : List ValueOption := [format, extensions, rule, schema]

/-- The long name of an option. -/
def name : ValueOption → String
  | format => "format"
  | extensions => "graphql-file-exts"
  | rule => "rule"
  | schema => "schema"

/-- The option of a long name. -/
def ofName? (name : String) : Option ValueOption := all.find? (·.name = name)

/-- Give a value to an option. -/
def give (o : ValueOption) (value : String) (g : Given) : Except UsageError Given :=
  match o with
  | format =>
    if g.format?.isSome then .error (.repeated "--format")
    else
      match value with
      | "human" => .ok { g with format? := some .human }
      | "json" => .ok { g with format? := some .json }
      | _ => .error (.invalidValue "--format" value)
  | extensions =>
    .ok { g with extensions? := some (g.extensions?.getD [] ++ value.splitOn ",") }
  | rule =>
    match RuleName.ofName? value with
    | some r => .ok { g with rules := g.rules ++ [r] }
    | none => .error (.invalidValue "--rule" value)
  | schema =>
    let paths := value.splitOn ","
    if "" ∈ paths then .error (.missingValue "--schema")
    else .ok { g with schemas := g.schemas ++ paths }

end ValueOption

/-! ### Reading arguments -/

/-- What an argument does to what has been given. -/
inductive Reading where
  /-- It gives something. -/
  | given (g : Given)
  /-- It gives something, and the value of an option is to follow. -/
  | awaiting (g : Given) (option : ValueOption)
  /-- It asks for something else. -/
  | request (r : Request)
  deriving Repr, Inhabited

/-- Whether an argument looks like an option. A single dash does not. -/
def isOption (argument : String) : Bool :=
  match argument.toList with
  | '-' :: _ :: _ => true
  | _ => false

/-- The part before the first equals sign, and the part after it. -/
def splitValue (text : List Char) : String × Option String :=
  let name := String.ofList (text.takeWhile (· ≠ '='))
  match text.dropWhile (· ≠ '=') with
  | [] => (name, none)
  | _ :: value => (name, some (String.ofList value))

/-- Read a long option, without its dashes. -/
def readLong (text : List Char) (g : Given) : Except UsageError Reading := do
  match splitValue text with
  | ("help", none) => return .request (.help .validate)
  | ("verbose", none) => return .given (← g.setVerbose)
  | (name, value?) =>
    match ValueOption.ofName? name, value? with
    | some o, some value => return .given (← o.give value g)
    | some o, none => return .awaiting g o
    | none, _ => .error (.unexpected ("--" ++ name))

/-- Read short options, without their dash. -/
def readShort : List Char → Given → Except UsageError Reading
  | [], g => .ok (.given g)
  | 'h' :: _, _ => .ok (.request (.help .validate))
  | 'v' :: rest, g => do readShort rest (← g.setVerbose)
  | ['s'], g => .ok (.awaiting g .schema)
  | 's' :: '=' :: value, g => do return .given (← ValueOption.schema.give (String.ofList value) g)
  | 's' :: value, g => do return .given (← ValueOption.schema.give (String.ofList value) g)
  | c :: _, _ => .error (.unexpected ("-" ++ c.toString))

/-- Read an argument that is not the value of an option before it. -/
def readArgument (argument : String) (g : Given) : Except UsageError Reading :=
  match argument.toList with
  | '-' :: '-' :: text => readLong text g
  | '-' :: c :: text => readShort (c :: text) g
  | _ => do return .given (← g.addPath argument)

/-- Read paths. -/
def readPaths : List String → Given → Except UsageError Request
  | [], g => g.finish
  | path :: rest, g => do readPaths rest (← g.addPath path)

/-- Read the arguments of the command that validates; an option may wait for its value. -/
def readValidate : List String → Option ValueOption → Given → Except UsageError Request
  | [], none, g => g.finish
  | [], some o, _ => .error (.missingValue ("--" ++ o.name))
  | argument :: rest, some o, g => do
    if isOption argument then .error (.missingValue ("--" ++ o.name))
    else readValidate rest none (← o.give argument g)
  | argument :: rest, none, g => do
    if argument = "--" then readPaths rest g
    else
      match ← readArgument argument g with
      | .given g => readValidate rest none g
      | .awaiting g o => readValidate rest (some o) g
      | .request r => return r

/-- Read what help is asked about. -/
def readTopic : List String → Except UsageError Request
  | [] => .ok (.help .program)
  | ["validate"] => .ok (.help .validate)
  | ["help"] => .ok (.help .help)
  | "validate" :: name :: _ => .error (.unknownCommand name)
  | "help" :: name :: _ => .error (.unknownCommand name)
  | name :: _ => .error (.unknownCommand name)

/-- Read short options before a command: whether more output is asked for, or what else. -/
def readShortFlags : List Char → Bool → Except UsageError (Bool ⊕ Request)
  | [], verbose => .ok (.inl verbose)
  | 'h' :: _, _ => .ok (.inr (.help .program))
  | 'V' :: _, _ => .ok (.inr .version)
  | 'v' :: rest, verbose =>
    if verbose then .error (.repeated "--verbose") else readShortFlags rest true
  | c :: _, _ => .error (.unexpected ("-" ++ c.toString))

/-- Read all arguments. Without a command there is help. -/
def readAll : List String → Bool → Except UsageError Request
  | [], _ => .ok (.help .program)
  | argument :: rest, verbose => do
    match argument with
    | "--" =>
      match rest with
      | [] => .ok (.help .program)
      | next :: _ => .error (.unexpected next)
    | "--help" => .ok (.help .program)
    | "--version" => .ok .version
    | "validate" => readValidate rest none .nothing
    | "help" => readTopic rest
    | _ =>
      let flags := if argument = "--verbose" then ['v'] else argument.toList.tail
      if argument = "--verbose" ∨ (isOption argument ∧ flags.head? ≠ some '-') then
        match ← readShortFlags flags verbose with
        | .inl verbose => readAll rest verbose
        | .inr request => return request
      else if isOption argument then .error (.unexpected argument)
      else .error (.unknownCommand argument)

/-- What the arguments of the command line ask for. -/
def Request.ofArguments (arguments : List String) : Except UsageError Request :=
  readAll arguments false

end GraphQLCheck.Command
