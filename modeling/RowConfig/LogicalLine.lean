import RowConfig.Chars.Affix
import RowConfig.Fault

/-!
# Logical lines

Physical lines lose their comments and are joined to logical lines: a backslash at the end joins the
next line, and a literal in tripled quotes or a round bracket keeps the line open until it closes.
The joiner carries the state of the quote and bracket reader from line to line.
-/

namespace RowConfig

open Chars

/-- One or more physical lines read as one. -/
structure LogicalLine where
  /-- The text without comments; an open literal or bracket keeps its line breaks. -/
  text : String
  /-- The first physical line. -/
  origin : SourceLine
deriving DecidableEq, Repr

/-- The location of the span of `length` bytes at byte `offset` of the text, placed on the first
physical line. Offsets that lie inside a character are taken for columns. -/
def LogicalLine.location (l : LogicalLine) (offset length : Nat) : Location :=
  let cut := splitAtByte? offset l.text.toList
  let span := cut.bind fun (_, after) => splitAtByte? length after
  l.origin.location
    ((match cut with | some (before, _) => before.length | none => offset) + 1)
    (match span with | some (inside, _) => inside.length | none => length)

/-- What reading one physical line gives: its code without the comment, the state after the code,
and the place of the last delimiter that opened a tripled literal or a round bracket on this
line. -/
structure CodeLine where
  code : List Char
  state : Scan
  opener : Option Nat

/-- A tripled literal or a round bracket opens here, and no round bracket is open yet. -/
def Scan.opensLine (s : Scan) (c : Char) (cs : List Char) : Bool :=
  s.atCode && s.parens == 0 &&
    match s.opens? c cs with
    | some q => q.isTriple
    | none => c == '('

/-- Reads a physical line up to its comment, `column` characters of it having been read. -/
def readCode (s : Scan) (column : Nat) (opener : Option Nat) : List Char → CodeLine
  | [] => ⟨[], s, opener⟩
  | c :: cs =>
    if s.atCode && c == '#' then ⟨[], s, opener⟩
    else
      let after := readCode (s.next c cs) (column + 1)
        (if s.opensLine c cs then some column else opener) cs
      { after with code := c :: after.code }

/-- The text that waits for further physical lines. -/
inductive Waiting where
  | nothing
  /-- A backslash joins the next line. -/
  | joined (text : List Char) (origin : SourceLine)
  /-- The delimiter at `opener` is not closed. -/
  | unclosed (text : List Char) (origin : SourceLine) (opener : Location)

/-- The state of the joiner between two physical lines. -/
structure Joiner where
  scan : Scan
  waiting : Waiting

namespace Joiner

def start : Joiner := ⟨Scan.start, .nothing⟩

/-- The logical line that a text makes, none if it is blank. -/
def emit (text : List Char) (origin : SourceLine) : List LogicalLine :=
  match trimEnd text with
  | [] => []
  | c :: cs => [⟨String.ofList (c :: cs), origin⟩]

/-- The text and first line of what is being assembled, and the delimiter that keeps it open, once
the code of another line is added. -/
def extend (j : Joiner) (line : SourceLine) (code : List Char) :
    List Char × SourceLine × Option Location :=
  match j.waiting with
  | .nothing => (code, line, none)
  | .joined text origin => (text ++ trimStart code, origin, none)
  | .unclosed text origin opener => (text ++ '\n' :: code, origin, some opener)

/-- The text before a backslash that ends a line, blanks aside. -/
def beforeBackslash? (text : List Char) : Option (List Char) := stripEnd? ['\\'] (trimEnd text)

/-- Adds a physical line: the state after it and the logical lines that it completes. -/
def feed (j : Joiner) (line : SourceLine) : Joiner × List LogicalLine :=
  let read := readCode j.scan 0 none line.text.toList
  let (text, origin, opener) := j.extend line read.code
  let scan := read.state.endLine
  if read.state.isOpen then
    let width := if read.state.inTriple then 3 else 1
    let here := line.location (read.opener.getD 0 + 1) width
    (⟨scan, .unclosed text origin (opener.getD here)⟩, [])
  else
    match beforeBackslash? text with
    | some body => (⟨scan, .joined body origin⟩, [])
    | none => (⟨scan, .nothing⟩, emit text origin)

/-- The logical lines that the end of the document completes. -/
def finish (j : Joiner) : Except Fault (List LogicalLine) :=
  match j.waiting with
  | .nothing => .ok []
  | .joined text origin => .ok (emit text origin)
  | .unclosed _ _ opener =>
    match j.scan.quote with
    | some q => if q.isTriple then .error (.unclosedString opener true q)
        else .error (.unclosedList opener)
    | none => .error (.unclosedList opener)

/-- The logical lines that further physical lines complete. -/
def assemble (j : Joiner) : List SourceLine → Except Fault (List LogicalLine)
  | [] => j.finish
  | line :: lines =>
    let (j, done) := j.feed line
    (j.assemble lines).map (done ++ ·)

end Joiner

/-- The logical lines of a document. -/
def assemble (lines : List SourceLine) : Except Fault (List LogicalLine) :=
  Joiner.start.assemble lines

end RowConfig
