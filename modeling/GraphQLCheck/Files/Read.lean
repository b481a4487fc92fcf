import GraphQLCheck.Files.Tree
import GraphQLCheck.Text.Utf8

/-!
# Reading files as texts
-/

namespace GraphQLCheck

/-- Why a file cannot be read as a text. -/
inductive ReadError where
  /-- There is no file at the path. -/
  | notAFile (path : String)
  /-- The bytes of the file are not UTF-8. -/
  | notUtf8 (path : String) (bytes : List UInt8) (fault : Utf8.Fault)
  deriving DecidableEq, Repr, Inhabited

namespace ReadError

/-- The message of a read error. -/
def message : ReadError → String
  | notAFile path => "`" ++ path ++ "` is not a file"
  | notUtf8 path _ fault => "`" ++ path ++ "` is not valid UTF-8: " ++ fault.message

/-- The names of a path that tell it from others: empty names and `.` inside it do not. -/
def significantNames (path : String) : List String :=
  match FileTree.pathNames path with
  | [] | [""] => []
  | first :: rest => first :: rest.filter fun name => name ≠ "" ∧ name ≠ "."

/-- Whether two read errors are the same: of the same kind, at the same path, with the same
bytes. -/
def same : ReadError → ReadError → Bool
  | notAFile path₁, notAFile path₂ => significantNames path₁ = significantNames path₂
  | notUtf8 path₁ bytes₁ _, notUtf8 path₂ bytes₂ _ =>
    significantNames path₁ = significantNames path₂ ∧ bytes₁ = bytes₂
  | _, _ => false

end ReadError

namespace Workspace

/-- The text of the file at a path. -/
def readText (w : Workspace) (path : String) : Except ReadError String :=
  match w.bytes? path with
  | none => .error (.notAFile path)
  | some bytes =>
    match Utf8.decode bytes with
    | .ok text => .ok text
    | .error fault => .error (.notUtf8 path bytes fault)

/-- Whether reading two files had the same result. -/
def sameResult : Except ReadError String → Except ReadError String → Bool
  | .ok text₁, .ok text₂ => text₁ = text₂
  | .error e₁, .error e₂ => e₁.same e₂
  | _, _ => false

end Workspace

end GraphQLCheck
