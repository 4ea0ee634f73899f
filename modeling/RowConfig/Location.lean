/-!
# Source lines and locations

A physical line knows its text, its file and its number; a location is a span of characters on such
a line. Locations print as `file:line:column`, and a snippet shows the line with carets under the
span.
-/

namespace RowConfig

/-- A physical line of source text without its line break. -/
structure SourceLine where
  text : String
  /-- The file that the line was read from, if it was read from one. -/
  file : Option String
  /-- The number of the line in its file, from 1. -/
  number : Nat
deriving DecidableEq, Repr

/-- A span of characters on a line. -/
structure Location where
  file : Option String
  line : Nat
  /-- The column of the first character, from 1. -/
  column : Nat
  /-- The number of characters. -/
  length : Nat
  /-- The text of the line. -/
  text : String
deriving DecidableEq, Repr

/-- The span of `length` characters from `column` of a line. -/
def SourceLine.location (l : SourceLine) (column length : Nat) : Location :=
  ⟨l.file, l.number, column, length, l.text⟩

namespace Location

/-- The span `length` characters long that starts `chars` characters further right. -/
def shifted (l : Location) (chars length : Nat) : Location :=
  { l with column := l.column + chars, length := length }

/-- The position as it stands in messages. -/
def display (l : Location) : String :=
  l.file.getD "<input>" ++ ":" ++ toString l.line ++ ":" ++ toString l.column

/-- The distance between tab stops. -/
def tabWidth : Nat := 8

/-- The width of a character that begins at display column `start`: a tab reaches to the next
stop. -/
def charWidth (start : Nat) (c : Char) : Nat :=
  if c = '\t' then tabWidth - start % tabWidth else 1

/-- The display column after a text that begins at `start`. -/
def widthFrom (start : Nat) (cs : List Char) : Nat :=
  cs.foldl (fun width c => width + charWidth width c) start

/-- A text that begins at display column `start`, each tab replaced by blanks up to the next
stop. -/
def expandTabs (start : Nat) : List Char → List Char
  | [] => []
  | c :: cs =>
    let shown := if c = '\t' then List.replicate (charWidth start c) ' ' else [c]
    shown ++ expandTabs (start + charWidth start c) cs

/-- The line as it is displayed. -/
def displayedLine (l : Location) : String := String.ofList (expandTabs 0 l.text.toList)

/-- The display column under which the carets begin: that of the span's first character, or the end
of the line for a column that the line does not have. -/
def caretColumn (l : Location) : Nat :=
  let cs := l.text.toList
  if 1 ≤ l.column ∧ l.column ≤ cs.length then widthFrom 0 (cs.take (l.column - 1))
  else widthFrom 0 cs

def blanks (n : Nat) : String := String.ofList (List.replicate n ' ')

/-- The line of carets under the displayed line, at least one of them. -/
def carets (l : Location) : String :=
  blanks l.caretColumn ++ String.ofList (List.replicate (max l.length 1) '^')

/-- The position, then the line under its number, then the carets. -/
def snippet (l : Location) : String :=
  let number := toString l.line
  let margin := blanks number.length
  margin ++ "--> " ++ l.display ++ "\n" ++
    margin ++ " |\n" ++
    number ++ " | " ++ l.displayedLine ++ "\n" ++
    margin ++ " | " ++ l.carets

end Location

end RowConfig
