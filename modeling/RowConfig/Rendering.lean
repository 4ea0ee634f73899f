import RowConfig.Document
import RowConfig.Placeholder

/-!
# Rendering templates

A template shows, for each placeholder, the text of the value that its path leads to. Paths are
looked up in the row that holds the template, then among the globals; a path that leads nowhere
stays as it is written. The fields of a row are rendered in order, so a field sees those before it
rendered and those after it as they were.
-/

namespace RowConfig

open Chars

/-- Where a path is looked up. -/
structure Scope where
  /-- The fields of the row that is being rendered. -/
  row : Option (Entries Value)
  globals : Entries Value

namespace Scope

/-- Follows field names into instances and referenced rows. -/
def descend (v : Value) : List String → Option Value
  | [] => some v
  | name :: path => (v.field? name).bind (descend · path)

/-- The value that a path leads to from named values. -/
def walk (fields : Entries Value) (path : List Char) : Option Value :=
  match (splitAll '.' path).map String.ofList with
  | [] => none
  | first :: more => (Entries.get? fields first).bind (descend · more)

/-- The beginning of a path that is looked up among globals only. -/
def globalMark : List Char := "global.".toList

/-- The value that a path leads to. -/
def lookup (s : Scope) (path : List Char) : Option Value :=
  match stripStart? globalMark path with
  | some rest => walk s.globals rest
  | none => (s.row.bind (walk · path)).or (walk s.globals path)

end Scope

namespace Segment

/-- What a segment shows in a scope. -/
def shown (s : Scope) : Segment → List Char
  | literal text => text
  | placeholder path =>
    match s.lookup (trim path) with
    | some v => v.render.toList
    | none => source (placeholder path)

end Segment

/-- Renders the source of a template. Escapes are decoded after all placeholders have been
replaced. -/
def renderSource (s : Scope) (source : List Char) (escapes : Bool) : List Char :=
  let shown := (Segment.ofTemplate escapes source).flatMap (Segment.shown s)
  if escapes then Escape.decodeLenient shown else shown

/-- A text once its placeholders are replaced. -/
def Text.rendered (s : Scope) : Text → Text
  | plain text => .plain text
  | template source escapes => .plain (String.ofList (renderSource s source.toList escapes))

namespace Value

mutual

/-- Renders the templates of a value. Instances and referenced rows render in a scope of their
own. -/
def rendered (s : Scope) : Value → Value
  | .text t => .text (t.rendered s)
  | .array items => .array (renderedItems s items)
  | .instance row => .instance (renderedRow s.globals row)
  | .reference struct key target => .reference struct key (renderedTarget s.globals target)
  | .null => .null
  | .bool b => .bool b
  | .int n => .int n
  | .float x => .float x
  | .date d => .date d
  | .time t => .time t
  | .dateTime t => .dateTime t
termination_by structural v => v

def renderedItems (s : Scope) : List Value → List Value
  | [] => []
  | v :: vs => rendered s v :: renderedItems s vs
termination_by structural vs => vs

def renderedRow (globals : Entries Value) : Record Value → Record Value
  | ⟨struct, fields, call⟩ => ⟨struct, renderedFields globals [] fields, call⟩
termination_by structural row => row

/-- Renders the fields that follow the rendered fields `done`. -/
def renderedFields (globals : Entries Value) (done : List (String × Value)) :
    List (String × Value) → List (String × Value)
  | [] => done
  | (name, v) :: more =>
    let scope : Scope := ⟨some (done ++ (name, v) :: more), globals⟩
    renderedFields globals (done ++ [(name, rendered scope v)]) more
termination_by structural fields => fields

def renderedTarget (globals : Entries Value) : Option (Record Value) → Option (Record Value)
  | none => none
  | some row => some (renderedRow globals row)
termination_by structural target => target

end

end Value

def Table.rendered (globals : Entries Value) (t : Table) : Table :=
  { t with rows := t.rows.map (Value.renderedRow globals) }

/-- Renders every template of a document. All of them see the globals as they were. -/
def Document.render (d : Document) : Document :=
  { globals := Entries.mapValues (Value.rendered ⟨none, d.globals⟩) d.globals
    tables := Entries.mapValues (Table.rendered d.globals) d.tables }

end RowConfig
