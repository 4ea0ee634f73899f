import RowConfig.Document
import RowConfig.LineKind
import RowConfig.LogicalLine
import RowConfig.Reader

/-!
# Building a document

Logical lines are read from first to last, each against the structs declared so far. A row waits for
continuation lines and is read when a line of another shape, or the end, shows that it is complete.
-/

namespace RowConfig

open Chars

/-- A piece of a row: the end of a logical line from byte `offset`. -/
structure RowPart where
  text : List Char
  line : LogicalLine
  offset : Nat
deriving DecidableEq, Repr

/-- A row of a struct as it is written, on one line or several. -/
structure RowText where
  struct : String
  head : RowPart
  tail : List RowPart
deriving DecidableEq, Repr

namespace RowText

/-- Pieces joined by single blanks. -/
def join (head : RowPart) : List RowPart → List Char
  | [] => head.text
  | part :: more => head.text ++ ' ' :: join part more

def text (r : RowText) : List Char := join r.head r.tail

/-- The piece of joined pieces that holds the byte at `offset`, and the offset in that piece. The
blank before a piece counts to the piece before it. -/
def partAt (head : RowPart) (offset : Nat) : List RowPart → RowPart × Nat
  | [] => (head, offset)
  | part :: more =>
    let start := byteSize head.text + 1
    if offset < start then (head, offset) else partAt part (offset - start) more

/-- The location of `length` bytes at byte `offset` of a row's text. -/
def location (r : RowText) (offset length : Nat) : Location :=
  let (part, inside) := partAt r.head offset r.tail
  part.line.location (part.offset + inside) length

def extend (r : RowText) (part : RowPart) : RowText := { r with tail := r.tail ++ [part] }

end RowText

/-- An argument of a row: the field that it is for, its token and the token's byte offset, and
whether it names its field. -/
structure RowArgument where
  field : Field
  token : List Char
  offset : Nat
  named : Bool

/-- Finds the field of an argument that is not blank, `position` being its place among `count`
pieces and `start` its byte offset, after named arguments if `named`. -/
def assignArgument (t : Table) (count position start : Nat) (named : Bool) (argument : List Char) :
    Except Fault RowArgument :=
  match splitNamed? argument with
  | some n =>
    let name := String.ofList n.name
    match t.field? name with
    | some field => .ok ⟨field, trim n.value, start + n.offset + byteSize (indent n.value), true⟩
    | none => .error (t.unknownField name)
  | none =>
    if named then .error (.positionalAfterNamed t.name)
    else
      match t.fields[position]? with
      | some field => .ok ⟨field, argument, start, false⟩
      | none => .error (.tooManyArguments t.name count t.fields.length)

/-- Reads the pieces of a row from `position` on into named values. Blank pieces count as positions
only. -/
def readRow (tables : Entries Table) (t : Table) (r : RowText) (count position : Nat) (named : Bool)
    (fields : Entries Value) : List (Nat × List Char) → Except Fault (Entries Value)
  | [] => .ok fields
  | (offset, piece) :: more =>
    let argument := trim piece
    if argument.isEmpty then readRow tables t r count (position + 1) named fields more
    else
      let start := offset + byteSize (indent piece)
      match assignArgument t count position start named argument with
      | .error e => .error e
      | .ok a =>
        let reader : Reader := ⟨tables, r.location a.offset (byteSize a.token)⟩
        match reader.readFor a.token a.field with
        | .error e => .error e
        | .ok v =>
          readRow tables t r count (position + 1) a.named
            (Entries.insert a.field.name v fields) more

/-- The state between two lines. -/
structure Builder where
  document : Document
  /-- The struct whose header came last. -/
  current : Option String
  /-- The row that may go on. -/
  row : Option RowText

namespace Builder

def start : Builder := ⟨.empty, none, none⟩

/-- What a token of a line is read against. -/
def reader (b : Builder) (l : LogicalLine) (token : Part) : Reader :=
  ⟨b.document.tables, l.location token.offset token.size⟩

def modifyTable (b : Builder) (name : String) (change : Table → Table) : Builder :=
  { b with document := b.document.modifyTable name change }

/-- Reads a complete row and appends it to its struct. -/
def addRow (b : Builder) (r : RowText) : Except Fault Builder :=
  match b.document.table? r.struct with
  | none => .error (.unknownStruct r.struct "" b.document.structNames)
  | some t =>
    let pieces := splitTop ',' r.text
    (readRow b.document.tables t r pieces.length 0 false [] pieces).map fun fields =>
      { b.modifyTable r.struct (·.addRow (.ofFields t.name fields)) with row := none }

/-- Completes the row that may go on, if there is one. -/
def flush (b : Builder) : Except Fault Builder :=
  match b.row with
  | none => .ok b
  | some r => b.addRow r

/-- The struct that a line belongs to. -/
def currentStruct (b : Builder) (l : LogicalLine) (offset : Nat) (line : StructLine) :
    Except Fault String :=
  match b.current with
  | some name => .ok name
  | none =>
    .error (.outsideStruct (l.location offset (byteSize l.text.toList - offset)) line)

/-- Opens a struct, declaring it if it is new. -/
def header (b : Builder) (name : String) : Builder :=
  let document :=
    match b.document.table? name with
    | some _ => b.document
    | none => { b.document with tables := Entries.insert name (.empty name) b.document.tables }
  { b with document := document, current := some name }

def typeOf (f : FieldLine) : FieldType := ⟨.ofName (String.ofList f.typeName), f.array⟩

/-- The value of a part begins a list of choices. -/
def isChoiceList (value : Part) : Bool := value.text.head? == some '('

def global (b : Builder) (l : LogicalLine) (f : FieldLine) : Except Fault Builder :=
  let name := String.ofList f.name.text
  if f.isKey then .error (.unexpectedLine (l.location 0 1) (.keyGlobal name))
  else if isChoiceList f.value then
    .error (.unexpectedLine (l.location f.value.offset f.value.size) (.choiceGlobal name))
  else
    let value :=
      if f.value.text.isEmpty then .ok .null
      else (b.reader l f.value).read f.value.text (typeOf f)
    value.map fun v => { b with document := b.document.setGlobal name v }

/-- A field with the default or the choices that its line gives. -/
def fieldOf (b : Builder) (l : LogicalLine) (f : FieldLine) : Except Fault Field :=
  let field : Field :=
    { Field.ofType (String.ofList f.name.text) (typeOf f) with
      isKey := f.isKey
      nullable := f.nullable }
  if f.value.text.isEmpty then .ok field
  else if isChoiceList f.value then
    ((b.reader l f.value).readChoices f.value.text field).map fun choices =>
      { field with choices := some choices }
  else
    ((b.reader l f.value).read f.value.text field.type).map fun v =>
      { field with default := some v }

def field (b : Builder) (l : LogicalLine) (f : FieldLine) : Except Fault Builder :=
  match b.currentStruct l 0 .field with
  | .error e => .error e
  | .ok struct => (b.fieldOf l f).map fun field => b.modifyTable struct (·.addField field)

/-- The change that an override makes to its struct: an empty value takes away default and
choices. -/
def overridden (b : Builder) (l : LogicalLine) (t : Table) (field : Field) (value : Part) :
    Except Fault Table :=
  if value.text.isEmpty then
    match t.setDefault field.name none with
    | .error e => .error e
    | .ok t => t.setChoices field.name none
  else if isChoiceList value then
    match (b.reader l value).readChoices value.text field with
    | .error e => .error e
    | .ok choices => t.setChoices field.name (some choices)
  else
    match (b.reader l value).readFor value.text field with
    | .error e => .error e
    | .ok v => t.setDefault field.name (some v)

/-- Overrides the default or the choices of a field of the current struct. -/
def override (b : Builder) (l : LogicalLine) (name value : Part) : Except Fault Builder :=
  match b.currentStruct l name.offset .override with
  | .error e => .error e
  | .ok struct =>
    match b.document.table? struct with
    | none => .ok b
    | some t =>
      let fieldName := String.ofList name.text
      match t.field? fieldName with
      | none => .error (.unknownField struct fieldName t.fieldNames)
      | some field =>
        (b.overridden l t field value).map fun changed => b.modifyTable struct fun _ => changed

def beginRow (b : Builder) (l : LogicalLine) (arguments : Part) : Except Fault Builder :=
  (b.currentStruct l (arguments.offset - 1) .row).map fun struct =>
    { b with row := some ⟨struct, ⟨arguments.text, l, arguments.offset⟩, []⟩ }

def continueRow (b : Builder) (l : LogicalLine) (text : Part) : Except Fault Builder :=
  match b.row with
  | none => .error (.unexpectedLine (l.location text.offset text.size) .strayContinuation)
  | some r => .ok { b with row := some (r.extend ⟨text.text, l, text.offset⟩) }

/-- Reads a line that continues no row, once the row before it is complete. -/
def declare (b : Builder) (l : LogicalLine) : LineKind → Except Fault Builder
  | .header name => .ok (b.header (String.ofList name))
  | .field f => if f.isGlobal then b.global l f else b.field l f
  | .override name value => b.override l name value
  | .row arguments => b.beginRow l arguments
  | .continuation text => b.continueRow l text

def feed (b : Builder) (l : LogicalLine) : Except Fault Builder :=
  match LineKind.ofLine? l.text.toList with
  | none => .error (.unexpectedLine (l.location 0 (byteSize l.text.toList)) .unrecognized)
  | some (.continuation text) => b.continueRow l text
  | some kind => b.flush.bind fun b => b.declare l kind

/-- Reads lines and completes the last row. -/
def feedAll (b : Builder) : List LogicalLine → Except Fault Document
  | [] => b.flush.map Builder.document
  | l :: ls =>
    match b.feed l with
    | .error e => .error e
    | .ok b => b.feedAll ls

end Builder

/-- The document that logical lines declare, its values as they are written. -/
def Document.ofLines (lines : List LogicalLine) : Except Fault Document :=
  Builder.start.feedAll lines

end RowConfig
