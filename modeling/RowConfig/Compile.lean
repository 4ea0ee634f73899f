import RowConfig.Builder
import RowConfig.Include
import RowConfig.OutputFormat
import RowConfig.Resolution

/-!
# Compiling

From source text to a resolved document: includes are expanded, physical lines are joined to logical
ones, the document is read from them and resolved.
-/

namespace RowConfig

/-- What is compiled: a text whose includes are relative to a directory, or the file with a path. -/
inductive Input where
  | text (dir content : String)
  | file (path : String)
deriving DecidableEq, Repr

def Input.lines (s : Sources) : Input → Except Fault (List SourceLine)
  | .text dir content => expandText s dir content
  | .file path => expandFile s path

/-- The document that physical lines declare, as it is written. -/
def Document.ofSource (lines : List SourceLine) : Except Fault Document :=
  match assemble lines with
  | .error e => .error e
  | .ok logical => Document.ofLines logical

/-- The document of an input, as it is written. -/
def readDocument (s : Sources) (input : Input) : Except Fault Document :=
  match input.lines s with
  | .error e => .error e
  | .ok lines => Document.ofSource lines

/-- The resolved document of an input. -/
def compile (s : Sources) (input : Input) : Except Fault Document :=
  match readDocument s input with
  | .error e => .error e
  | .ok d => d.resolve

/-- The output of an input in a format. -/
def compileTo (s : Sources) (input : Input) (format : OutputFormat) : Except Fault String :=
  (compile s input).map fun d => format.render d.toNode

end RowConfig
