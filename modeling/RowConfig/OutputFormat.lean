import RowConfig.Chars.Lowercase
import RowConfig.Fault
import RowConfig.Json
import RowConfig.Path
import RowConfig.Yaml

/-!
# Output formats

The formats in which a tree can be written, and how they are chosen: by name in any letter case, or
by the extension of the output file.
-/

namespace RowConfig

/-- A format of output. -/
inductive OutputFormat where
  | json
  | indentedJson
  | yaml
deriving DecidableEq, Repr

namespace OutputFormat

def ofName? (name : String) : Option OutputFormat :=
  match String.ofList (Chars.lowercase name.toList) with
  | "json" => some json
  | "json-pretty" | "jsonpretty" => some indentedJson
  | "yaml" | "yml" => some yaml
  | _ => none

/-- The format for an output file: YAML by its extension in any letter case, else indented JSON. -/
def ofPath (path : String) : OutputFormat :=
  match (Path.extension? path).map fun e => String.ofList (e.toList.map Char.toLower) with
  | some "yaml" | some "yml" => yaml
  | _ => indentedJson

def render : OutputFormat → Node → String
  | json, n => Json.render n
  | indentedJson, n => Json.renderIndented 0 n
  | yaml, n => Yaml.render n

/-- Hands the text of a tree to a receiver, which may refuse it with a reason. -/
def send {α : Type} (f : OutputFormat) (n : Node) (receive : String → Except String α) :
    Except Fault α :=
  match receive (f.render n) with
  | .ok a => .ok a
  | .error reason => .error (.io (.refused reason))

end OutputFormat

end RowConfig
