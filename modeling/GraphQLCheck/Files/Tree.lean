/-!
# File trees

The files of a directory and of the directories in it, and paths into them. A path is followed name
by name: `.` stays in a directory and `..` leaves it. The names that lead to an entry from the root
without any of these are its canonical path. Names and paths have a greatest length, counted in
bytes.
-/

namespace GraphQLCheck

/-- A file or a directory. -/
inductive FileTree where
  /-- A file with its bytes. -/
  | file (bytes : List UInt8)
  /-- A directory with its entries, of different names. -/
  | directory (entries : List (String × FileTree))
  deriving Inhabited

namespace FileTree

/-- Why a path leads nowhere. -/
inductive PathFault where
  /-- There is no entry of some name on the way. -/
  | notFound
  /-- Something on the way is not a directory. -/
  | notADirectory
  /-- The path, or a name on the way, is longer than it may be. -/
  | tooLong
  deriving DecidableEq, Repr, Inhabited

namespace PathFault

/-- The message of a fault. -/
def message : PathFault → String
  | notFound => "No such file or directory (os error 2)"
  | notADirectory => "Not a directory (os error 20)"
  | tooLong => "File name too long (os error 36)"

end PathFault

/-- The greatest length of a name, in bytes. -/
def nameLimit : Nat := 255

/-- The greatest length of a path, in bytes. -/
def pathLimit : Nat := 4095

/-- The names of a path. -/
def pathNames (path : String) : List String := path.splitOn "/"

/-- Put an entry at the end of a way of names, with directories on the way. A file on the way stays
as it is. -/
def insert (entry : FileTree) : List String → FileTree → FileTree
  | [], _ => entry
  | _ :: _, file bytes => file bytes
  | name :: names, directory entries =>
    let inside := insert entry names ((entries.lookup name).getD (directory []))
    directory ((name, inside) :: entries.filter (·.1 ≠ name))

/-- An entry with the names that lead to it from the root. -/
structure Place where
  /-- The entry. -/
  entry : FileTree
  /-- The names that lead to it, the innermost first. -/
  names : List String
  /-- The directories around it, the innermost first. -/
  around : List FileTree

/-- The canonical path of a place. -/
def Place.path (p : Place) : String := "/" ++ "/".intercalate p.names.reverse

/-- Follow a name from a place. The root is its own parent. -/
def step (p : Place) (name : String) : Except PathFault Place :=
  match p.entry with
  | file _ => .error .notADirectory
  | directory entries =>
    if name = "" ∨ name = "." then .ok p
    else if name = ".." then
      match p.around, p.names with
      | parent :: around, _ :: names => .ok ⟨parent, names, around⟩
      | _, _ => .ok p
    else if nameLimit < name.utf8ByteSize then .error .tooLong
    else
      match entries.lookup name with
      | some entry => .ok ⟨entry, name :: p.names, p.entry :: p.around⟩
      | none => .error .notFound

end FileTree

/-- The files that can be reached, and the directory from which paths lead to them. -/
structure Workspace where
  /-- The directory at the root. -/
  root : FileTree
  /-- The names that lead from the root to the current directory. -/
  directory : List String
  deriving Inhabited

namespace Workspace

open FileTree

/-- A workspace without files. -/
def empty : Workspace := ⟨.directory [], []⟩

/-- Follow a path: from the root if it starts with a slash, else from the current directory. An
empty path leads nowhere, and neither does one that is too long. -/
def resolve (w : Workspace) (path : String) : Except PathFault Place :=
  if pathLimit < path.utf8ByteSize then .error .tooLong
  else
    match pathNames path with
    | [""] => .error .notFound
    | "" :: names => names.foldlM step ⟨w.root, [], []⟩
    | names => (w.directory ++ names).foldlM step ⟨w.root, [], []⟩

/-- The bytes of the file at a path, if there is one. -/
def bytes? (w : Workspace) (path : String) : Option (List UInt8) :=
  match w.resolve path with
  | .ok ⟨file bytes, _, _⟩ => some bytes
  | _ => none

end Workspace

end GraphQLCheck
