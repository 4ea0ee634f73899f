import RowConfig.Chars.Affix
import RowConfig.Split

/-!
# Shapes of lines

A logical line is a struct header, a field declaration, an override of a default, a row or the
continuation of a row, tried in this order. The parts of a line are reported with the byte offsets
at which they begin.
-/

namespace RowConfig

open Chars

/-- A part of a line and the byte offset at which it begins. -/
structure Part where
  text : List Char
  offset : Nat
deriving DecidableEq, Repr

def Part.size (p : Part) : Nat := byteSize p.text

/-- A field declaration `[*?]type[[]] name: [value]`. -/
structure FieldLine where
  /-- The line is not indented: it declares a global. -/
  isGlobal : Bool
  isKey : Bool
  nullable : Bool
  typeName : List Char
  array : Bool
  name : Part
  /-- What follows the colon, trimmed; it may be empty. -/
  value : Part
deriving DecidableEq, Repr

/-- The shape of a line. -/
inductive LineKind where
  /-- The line `Name:` without indentation. -/
  | header (name : List Char)
  | field (line : FieldLine)
  /-- An indented `name: [value]` that changes a field's default or choices. -/
  | override (name value : Part)
  /-- The line `- arguments`. -/
  | row (arguments : Part)
  /-- Any other indented text. -/
  | continuation (text : Part)
deriving DecidableEq, Repr

namespace LineKind

/-- What of a text follows its leading blanks, when the text begins at byte `offset`, without the
blanks at its end. -/
def trimmedPart (offset : Nat) (cs : List Char) : Part := ⟨trim cs, offset + byteSize (indent cs)⟩

/-- A name that begins with a capital letter, and a colon. -/
def header? (cs : List Char) : Option LineKind :=
  match stripEnd? [':'] cs with
  | none => none
  | some name =>
    if (name.head?.any Char.isUpper) && isIdentifier name then some (header name) else none

/-- The mark of a primary key or of a nullable field. -/
def isMark (c : Char) : Bool := c == '*' || c == '?'

/-- Drops `[]` from the start of a text, and says whether it stood there. -/
def dropArrayMark : List Char → Bool × List Char
  | '[' :: ']' :: cs => (true, cs)
  | cs => (false, cs)

def fieldLine? (line : List Char) : Option FieldLine :=
  let unindented := trimStart line
  let marks := unindented.takeWhile isMark
  let typed := trimStart (unindented.dropWhile isMark)
  let typeName := leadingIdentifier typed
  let (array, afterType) := dropArrayMark (typed.drop typeName.length)
  let named := trimStart afterType
  let name := leadingIdentifier named
  let nameOffset := byteSize line - byteSize named
  match trimStart (named.drop name.length) with
  | ':' :: value =>
    if typeName.isEmpty || (indent afterType).isEmpty || name.isEmpty then none
    else
      some {
        isGlobal := (indent line).isEmpty
        isKey := marks.contains '*'
        nullable := marks.contains '?'
        typeName := typeName
        array := array
        name := ⟨name, nameOffset⟩
        value := trimmedPart (byteSize line - byteSize value) value }
  | _ => none

def override? (line : List Char) : Option LineKind :=
  if (indent line).isEmpty then none
  else
    let start := byteSize (indent line)
    (splitNamed? (trimStart line)).map fun named =>
      override ⟨named.name, start⟩ (trimmedPart (start + named.offset) named.value)

def row? (line : List Char) : Option LineKind :=
  match trimStart line with
  | '-' :: arguments =>
    if atWordEnd arguments then some (row ⟨arguments, byteSize (indent line) + 1⟩) else none
  | _ => none

def continuation? (line : List Char) : Option LineKind :=
  if (indent line).isEmpty then none
  else some (continuation ⟨trimStart line, byteSize (indent line)⟩)

/-- The shape of a line, none for an unindented line that has no other shape. -/
def ofLine? (line : List Char) : Option LineKind :=
  header? line <|> (fieldLine? line).map field <|> override? line <|> row? line <|>
    continuation? line

end LineKind

end RowConfig
