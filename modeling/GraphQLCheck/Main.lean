import GraphQLCheck.Command.Run

/-!
# The program

Reads the files at the paths of the command line and prints the answer. Existing paths are made
canonical first. Of the files in a directory only those that look like schemas or documents are
read.
-/

namespace GraphQLCheck.Main

/-- The canonical form of a path, or the path as it is if it leads nowhere. -/
def canonical (path : String) : IO String := do
  if FileTree.pathLimit < path.utf8ByteSize then return path
  try
    return (← IO.FS.realPath path).toString
  catch _ => return path

/-- Whether the bytes of a file matter: it was named or has one of the extensions looked for. -/
def isWanted (request : Command.Request) (named : List String) (path : String) : Bool :=
  let extensions := match request with
    | .validate options => options.extensions ++ Command.schemaExtensions
    | _ => []
  named.contains path || Command.hasExtension (extensions.map Command.dotted) path

/-- The files at and below a path, or nothing if it leads nowhere. A directory inside itself is
empty. -/
partial def readTree? (isWanted : String → Bool) (around : List String) (path : String) :
    IO (Option FileTree) :=
  try
    let real ← IO.FS.realPath path
    if ← real.isDir then
      if real.toString ∈ around then return some (.directory [])
      let mut entries := []
      for entry in ← real.readDir do
        let inside := Command.entryPath path entry.fileName
        if let some tree ← readTree? isWanted (real.toString :: around) inside then
          entries := (entry.fileName, tree) :: entries
      return some (.directory entries)
    else if isWanted path then return some (.file (← IO.FS.readBinFile path).toList)
    else return some (.file [])
  catch _ => return none

/-- The names of a path, without empty ones. -/
def names (path : String) : List String := (FileTree.pathNames path).filter (· ≠ "")

/-- The files that a request is about. -/
def readWorkspace (request : Command.Request) (paths : List String) : IO Workspace := do
  let mut root := FileTree.directory []
  for path in paths do
    if let some tree ← readTree? (isWanted request paths) [] path then
      root := FileTree.insert tree (names path) root
  return ⟨root, names (← IO.currentDir).toString⟩

/-- Answer the arguments of the command line. -/
def run (arguments : List String) : IO UInt32 := do
  match Command.Request.ofArguments arguments with
  | .error e =>
    IO.eprintln ("error: " ++ e.message)
    return 2
  | .ok request =>
    let known ← request.paths.mapM fun path => return (path, ← canonical path)
    let request := request.mapPaths fun path => (known.lookup path).getD path
    let answer := Command.answer (← readWorkspace request (known.map (·.2))) request
    IO.print answer.output
    IO.eprint answer.errors
    return answer.status.code

end GraphQLCheck.Main

/-- The program. -/
def main (arguments : List String) : IO UInt32 := GraphQLCheck.Main.run arguments
