import RowConfig.Clock
import RowConfig.Number.FloatLiteral
import RowConfig.Placeholder
import RowConfig.Split
import RowConfig.Table

/-!
# Reading values

A token and a declared type make a value. The parts of a token are spans, which know the column at
which they begin, so that a fault can point at the part that is wrong. A call `Name(…)` is read as a
reference or as an inline row, depending on the structs that are declared when it is read; the
arguments of an inline row stay text until the row is bound.
-/

namespace RowConfig

open Chars Number

/-- A part of a token: its text and the number of characters before it. -/
structure Span where
  text : List Char
  column : Nat
deriving DecidableEq, Repr

namespace Span

/-- The span without the blanks at its ends. -/
def trimmed (s : Span) : Span := ⟨trim s.text, s.column + (indent s.text).length⟩

/-- Texts that stand one separator apart, the first of them at `column`. -/
def place (column : Nat) : List (List Char) → List Span
  | [] => []
  | piece :: more => ⟨piece, column⟩ :: place (column + piece.length + 1) more

/-- The pieces of a span between top-level commas. -/
def arguments (s : Span) : List Span := place s.column (Scan.start.pieces ',' s.text)

/-- The text between two brackets that begin and end a span, if every bracket in it is matched. -/
def inside? (opening closing : Char) (s : Span) : Option Span :=
  match s.text with
  | [] => none
  | c :: cs =>
    if c = opening then
      match stripEnd? [closing] cs with
      | some inner => if isBalanced inner then some ⟨inner, s.column + 1⟩ else none
      | none => none
    else none

end Span

/-- What a token is read against. -/
structure Reader where
  /-- The structs that are declared where the token stands. -/
  tables : Entries Table
  /-- The location of the first character of the token. -/
  location : Location

namespace Reader

/-- The location of a part of the token. -/
def place (r : Reader) (s : Span) : Location := r.location.shifted s.column (max s.text.length 1)

/-- The text without one line break at its start, and the number of characters left out. -/
def dropLineBreak : List Char → List Char × Nat
  | '\r' :: '\n' :: cs => (cs, 2)
  | '\n' :: cs => (cs, 1)
  | cs => (cs, 0)

/-- The text of a literal with escapes. Where it has placeholders it stays encoded. -/
def escapedText (r : Reader) (body : Span) : Except Fault Text :=
  match Escape.decode body.text with
  | .error m =>
    .error (.invalidEscape
      (r.location.shifted (body.column + m.before.length) m.sequence.length)
      (String.ofList m.sequence) m.problem)
  | .ok decoded =>
    if hasPlaceholder true body.text then .ok (.template (String.ofList body.text) true)
    else .ok (.plain (String.ofList decoded))

/-- The body of a literal between delimiters. In tripled quotes, one line break may follow the
opening delimiter and is no part of the text. -/
def literalBody? (q : Quote) (s : Span) : Option Span :=
  let inner := (stripStart? q.delimiter s.text).bind (stripEnd? q.delimiter)
  inner.map fun body =>
    let (body, skipped) := if q.isTriple then dropLineBreak body else (body, 0)
    ⟨body, s.column + q.delimiter.length + skipped⟩

/-- Reads a text: a literal in one of the four quotes, or a bare token. -/
def readText (r : Reader) (s : Span) : Except Fault Text :=
  match Quote.opening? s.text with
  | some q =>
    match literalBody? q s with
    | none => .error (.unclosedString (r.place s) false q)
    | some body =>
      if q.hasEscapes then r.escapedText body else .ok (.plain (String.ofList body.text))
  | none =>
    let text := String.ofList s.text
    .ok (if hasPlaceholder false s.text then .template text false else .plain text)

/-- Adds an argument of an inline call to those read before it, under its own name or under one made
from its position. -/
def addArgument (struct : String) (position : Nat) (argument : Span)
    (fields : Entries Value) (named : Bool) : Except Fault (Entries Value × Bool) :=
  match splitNamed? argument.text with
  | some n =>
    let value := Value.text (.plain (String.ofList (trim n.value)))
    .ok (Entries.insert (String.ofList n.name) value fields, true)
  | none =>
    if named then .error (.positionalAfterNamed struct)
    else
      .ok (Entries.insert ("_arg" ++ toString position)
        (.text (.plain (String.ofList argument.text))) fields, false)

/-- The arguments of an inline call as named texts. Blank arguments count as positions only. -/
def collectArguments (struct : String) (position : Nat) (fields : Entries Value) (named : Bool) :
    List Span → Except Fault (Entries Value)
  | [] => .ok fields
  | s :: more =>
    let argument := s.trimmed
    if argument.text.isEmpty then collectArguments struct (position + 1) fields named more
    else
      match addArgument struct position argument fields named with
      | .error e => .error e
      | .ok (fields, named) => collectArguments struct (position + 1) fields named more

/-- The name before the first round bracket of a call and the arguments in the brackets. -/
def splitCall? (s : Span) : Option (List Char × Span) :=
  match splitOnce? '(' s.text with
  | none => none
  | some (before, after) =>
    match stripEnd? [')'] after with
    | none => none
    | some arguments =>
      let name := trimEnd before
      if isIdentifier name && isBalanced arguments then
        some (name, ⟨arguments, s.column + before.length + 1⟩)
      else none

/-- Reads a call `Name(…)` of the expected struct: an inline row if the struct is declared and has
no primary key, else a reference. -/
def readCall (r : Reader) (s : Span) (expected : String) : Except Fault Value :=
  match splitCall? s with
  | none => .error (.malformedCall (r.place s) (String.ofList s.text) expected)
  | some (name, arguments) =>
    if String.ofList name ≠ expected then
      .error (.typeMismatch (r.place s) (.struct expected) (String.ofList s.text))
    else if (Entries.get? r.tables expected).any fun t => t.key.isNone then
      (collectArguments expected 0 [] false arguments.arguments).map fun fields =>
        .instance ⟨expected, fields, some (r.place s)⟩
    else
      (r.readText arguments.trimmed).map fun key => .reference expected key.content none

/-- The letters of null, in either case. -/
def isNullWord (cs : List Char) : Bool := String.ofList (cs.map Char.toLower) == "null"

/-- Reads a span that is not null at a scalar type. -/
def readScalar (r : Reader) (s : Span) (type : ScalarType) : Except Fault Value :=
  let mismatch := .error (.typeMismatch (r.place s) type (String.ofList s.text))
  match type with
  | .bool =>
    match String.ofList s.text with
    | "true" => .ok (.bool true)
    | "false" => .ok (.bool false)
    | _ => mismatch
  | .int =>
    match integer? s.text with
    | some n => .ok (.int n)
    | none => mismatch
  | .float =>
    match float? s.text with
    | some x => .ok (.float x)
    | none => mismatch
  | .str => (r.readText s).map .text
  | .date => (r.readText s).map fun t => .date t.content
  | .time =>
    (r.readText s).map fun t => .time (String.ofList (Clock.normalizeTime t.content.toList))
  | .dateTime =>
    (r.readText s).map fun t => .dateTime (String.ofList (Clock.normalizeDateTime t.content.toList))
  | .struct name => r.readCall s name

/-- Reads a span at a scalar type. -/
def readElement (r : Reader) (s : Span) (type : ScalarType) : Except Fault Value :=
  if isNullWord s.text then .ok .null else r.readScalar s type

/-- Reads spans at a scalar type, leaving out blank ones. -/
def readElements (r : Reader) (type : ScalarType) : List Span → Except Fault (List Value)
  | [] => .ok []
  | s :: more =>
    if s.trimmed.text.isEmpty then r.readElements type more
    else
      match r.readElement s.trimmed type with
      | .error e => .error e
      | .ok v => (r.readElements type more).map (v :: ·)

/-- Reads an array `[a, b, …]`. -/
def readArray (r : Reader) (s : Span) (type : ScalarType) : Except Fault Value :=
  match s.inside? '[' ']' with
  | none => .error (.malformedArray (r.place s) (String.ofList s.text))
  | some inner => (r.readElements type inner.arguments).map .array

/-- Reads a token at a declared type. -/
def read (r : Reader) (token : List Char) (type : FieldType) : Except Fault Value :=
  let s := (Span.mk token 0).trimmed
  if isNullWord s.text then .ok .null
  else if type.array then r.readArray s type.scalar
  else r.readScalar s type.scalar

/-- Reads a token for a field and checks it against the field's choices. -/
def readFor (r : Reader) (token : List Char) (field : Field) : Except Fault Value :=
  match r.read token field.type with
  | .error e => .error e
  | .ok v => (field.checkChoice v).map fun _ => v

/-- Reads a list of choices `(a, b, …)` for a field. -/
def readChoices (r : Reader) (token : List Char) (field : Field) : Except Fault (List Value) :=
  let s := (Span.mk token 0).trimmed
  let refuse (problem : ChoiceProblem) := .error (.invalidChoices (r.place s) field.name problem)
  if field.type.array then refuse .arrayField
  else if field.type.scalar.isStruct then refuse .structField
  else
    match s.inside? '(' ')' with
    | none => refuse .notAList
    | some inner =>
      match r.readElements field.type.scalar inner.arguments with
      | .error e => .error e
      | .ok [] => refuse .emptyList
      | .ok choices => .ok choices

end Reader

end RowConfig
