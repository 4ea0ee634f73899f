import RowConfig.Chars.Affix

/-!
# Paths

Paths are texts whose names are separated by slashes. This module reads them as lists of steps,
joins them, and follows `.` and `..` without looking at any file.
-/

namespace RowConfig.Path

/-- The text begins with a slash. -/
def isAbsolute (path : String) : Bool := path.toList.head? == some '/'

/-- The character that ends texts for the operating system stands in the text, so it is no path. -/
def hasNul (path : String) : Bool := path.toList.contains '\x00'

/-- The names between slashes; repeated slashes and single dots name nothing. -/
def names (path : String) : List String :=
  ((Chars.splitAll '/' path.toList).filter fun cs => !cs.isEmpty && cs != ['.']).map String.ofList

/-- A step along a path. -/
inductive Step where
  | root
  | up
  | into (name : String)
deriving DecidableEq, Repr

/-- The steps of a path. -/
def steps (path : String) : List Step :=
  (if isAbsolute path then [.root] else []) ++
    (names path).map fun name => if name = ".." then .up else .into name

/-- Goes one step further, the steps so far being given last first. Going up drops the last step,
which may be the root, and drops nothing where there is no step. -/
def follow : List Step → Step → List Step
  | taken, .up => taken.tail
  | taken, step => step :: taken

/-- The steps of a path after each `..` has dropped the step before it. -/
def normalSteps (path : String) : List Step := ((steps path).foldl follow []).reverse

/-- A directory with a further path: the path alone if it is absolute. -/
def join (dir path : String) : String :=
  if isAbsolute path then path
  else if dir.isEmpty || dir.toList.getLast? == some '/' then dir ++ path
  else dir ++ "/" ++ path

def Step.text : Step → String
  | .root => "/"
  | .up => ".."
  | .into name => name

/-- The path that takes the given steps. -/
def ofSteps (steps : List Step) : String := steps.foldl (fun path step => join path step.text) ""

/-- A path without `.` and `..`. -/
def normalize (path : String) : String := ofSteps (normalSteps path)

/-- The directory that a path lies in: the path without its last step, and nothing for the root. -/
def parent (path : String) : String :=
  match (steps path).getLast? with
  | none | some .root => ""
  | some _ => ofSteps (steps path).dropLast

/-- The last name of a path, unless it ends by going up. -/
def fileName? (path : String) : Option String :=
  match (steps path).getLast? with
  | some (.into name) => some name
  | _ => none

/-- The text after the last dot of a path's last name. A dot at its start begins no extension. -/
def extension? (path : String) : Option String :=
  (fileName? path).bind fun name =>
    match Chars.splitOnce? '.' name.toList.reverse with
    | some (ending, _ :: _) => some (String.ofList ending.reverse)
    | _ => none

end RowConfig.Path
