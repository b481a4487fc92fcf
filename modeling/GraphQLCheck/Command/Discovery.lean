import GraphQLCheck.Files.Tree

/-!
# Finding files

The files at or below given paths whose extension is one of those looked for. A path of a file
stands for that file whatever its extension. Directories are searched in the order of the names of
their entries; one whose path from the given one is too long is not. A file found twice counts once.
-/

namespace GraphQLCheck.Command

/-- The extension of a file name with its dot: what follows the last dot, if the name does not start
with that dot. -/
def extension? (name : String) : Option String :=
  let reversed := name.toList.reverse
  let ending := reversed.takeWhile (· ≠ '.')
  match reversed.dropWhile (· ≠ '.') with
  | _ :: _ :: _ => some (String.ofList ('.' :: ending.reverse))
  | _ => none

/-- An extension with a dot before it. -/
def dotted (extension : String) : String :=
  match extension.toList with
  | '.' :: _ => extension
  | _ => "." ++ extension

/-- Whether a file name has one of the given extensions, which have their dots. -/
def hasExtension (extensions : List String) (name : String) : Bool :=
  (extension? name).any extensions.contains

/-- What has been found. -/
structure Found where
  /-- Paths that lead nowhere, with the reasons. -/
  errors : List String
  /-- How many files in directories had other extensions. -/
  skipped : Nat
  /-- The canonical paths of the files. -/
  paths : List String
  deriving DecidableEq, Repr, Inhabited

namespace Found

/-- Nothing is found. -/
def nothing : Found := ⟨[], 0, []⟩

/-- Add a file, unless it was found before. -/
def add (found : Found) (path : String) : Found :=
  if path ∈ found.paths then found else { found with paths := found.paths ++ [path] }

/-- Pass over a file. -/
def skip (found : Found) : Found := { found with skipped := found.skipped + 1 }

/-- Add a path that leads nowhere. -/
def fail (found : Found) (path : String) (fault : FileTree.PathFault) : Found :=
  { found with
    errors := found.errors ++ ["IO error for operation on " ++ path ++ ": " ++ fault.message] }

end Found

/-- The path of an entry of a directory. -/
def entryPath (directory name : String) : String :=
  if directory.toList.getLast? = some '/' then directory ++ name else directory ++ "/" ++ name

/-- Put an entry in its place among entries sorted by name. -/
def insertEntry {α : Type} (entry : String × α) : List (String × α) → List (String × α)
  | [] => [entry]
  | other :: rest =>
    if entry.1 < other.1 then entry :: other :: rest else other :: insertEntry entry rest

/-- Entries sorted by name. -/
def sortEntries {α : Type} (entries : List (String × α)) : List (String × α) :=
  entries.foldr insertEntry []

mutual

/-- The search in an entry of a directory, given the name of the entry, its canonical path and the
path on which it was reached. -/
def searchEntry (extensions : List String) (name path reached : String) :
    FileTree → Found → Found
  | .file _ => fun found =>
    if hasExtension extensions name then found.add path else found.skip
  | .directory entries => fun found =>
    if FileTree.pathLimit < reached.utf8ByteSize then found.fail reached .tooLong
    else
      (sortEntries (searches extensions path reached entries)).foldl
        (fun found search => search.2 found) found

/-- The searches in the entries of a directory, by name. -/
def searches (extensions : List String) (path reached : String) :
    List (String × FileTree) → List (String × (Found → Found))
  | [] => []
  | (name, entry) :: rest =>
    (name, searchEntry extensions name (entryPath path name) (entryPath reached name) entry) ::
      searches extensions path reached rest

end

/-- The search at a path. -/
def searchPath (extensions : List String) (w : Workspace) (found : Found) (path : String) : Found :=
  match w.resolve path with
  | .error fault => found.fail path fault
  | .ok place =>
    match place.entry with
    | .file _ => found.add place.path
    | .directory _ => searchEntry extensions "" place.path path place.entry found

/-- The files at or below paths with one of the given extensions. -/
def discover (w : Workspace) (paths extensions : List String) : Found :=
  paths.foldl (searchPath (extensions.map dotted) w) .nothing

end GraphQLCheck.Command
