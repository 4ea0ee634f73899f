import RowConfig.Chars.Line
import RowConfig.Entries
import RowConfig.Fault
import RowConfig.Path

/-!
# Source files

Where included files come from: finitely many named files, and a function that takes a path to the
name of the file it leads to. A file that several paths lead to has one name.
-/

namespace RowConfig

/-- What a file holds, as far as it is text. -/
inductive Content where
  | text (s : String)
  | notText
deriving DecidableEq, Repr

/-- Named files, and the names that paths stand for. -/
structure Sources where
  files : Entries Content
  canonical : String → Option String

namespace Sources

/-- The name of the file that a path leads to. -/
def locate? (s : Sources) (path : String) : Option String :=
  (s.canonical path).filter fun name => (Entries.get? s.files name).isSome

/-- The text of the file with a name. -/
def read (s : Sources) (name : String) : Except Fault String :=
  match Entries.get? s.files name with
  | some (.text content) => .ok content
  | some .notText => .error (.io (.notText name))
  | none => .error (.io (.notFound name))

def empty : Sources := ⟨[], fun _ => none⟩

/-- Files kept in memory under normalized paths. A later file replaces an earlier one of its
path. -/
def inMemory (files : List (String × String)) : Sources :=
  { files := Entries.ofList (files.map fun (path, content) => (Path.normalize path, .text content))
    canonical := fun path => some (Path.normalize path) }

/-- The text of the file kept in memory to which a path leads. -/
def readPath (s : Sources) (path : String) : Except Fault String :=
  match s.locate? path with
  | some name => s.read name
  | none => .error (.io (.notFound path))

end Sources

/-- The physical lines of a text from a file, or from no file. -/
def SourceLine.ofText (file : Option String) (text : String) : List SourceLine :=
  (Chars.lines text.toList).zipIdx.map fun (line, i) => ⟨String.ofList line, file, i + 1⟩

end RowConfig
