import RowConfig.Chars.Blank
import RowConfig.Chars.Offset

/-!
# Quotes and brackets

`Scan` is the state of a reader that knows whether it is inside a string literal and how many
brackets are open. It advances one character at a time, looking at the characters that follow.
Comment stripping, line assembly and the splitting of argument lists all run it, so they agree on
where a literal begins and ends.

A quote opens a literal only at the start of a word, so an apostrophe inside a bare word is an
ordinary character. Units of more than one character (a tripled quote, a backslash with the
character after it) are entered at their first character; `rest` counts the characters of the unit
still to come.
-/

namespace RowConfig

open Chars

/-- The four ways to quote a literal. -/
inductive Quote where
  | double
  | single
  | tripleDouble
  | tripleSingle
deriving DecidableEq, Repr

namespace Quote

/-- A literal in tripled quotes may span lines. -/
def isTriple : Quote → Bool
  | tripleDouble | tripleSingle => true
  | double | single => false

/-- Between double quotes a backslash escapes the next character. -/
def hasEscapes : Quote → Bool
  | double | tripleDouble => true
  | single | tripleSingle => false

def char : Quote → Char
  | double | tripleDouble => '"'
  | single | tripleSingle => '\''

/-- The text that opens and closes a literal. -/
def delimiter (q : Quote) : List Char := List.replicate (if q.isTriple then 3 else 1) q.char

/-- The quote that opens at the start of a text; a tripled quote wins over a single one. -/
def opening? : List Char → Option Quote
  | '"' :: '"' :: '"' :: _ => some tripleDouble
  | '\'' :: '\'' :: '\'' :: _ => some tripleSingle
  | '"' :: _ => some double
  | '\'' :: _ => some single
  | _ => none

end Quote

/-- A state of the reader. -/
structure Scan where
  /-- The literal that is being read. -/
  quote : Option Quote
  /-- The number of open round brackets. -/
  parens : Nat
  /-- The number of open square and curly brackets. -/
  brackets : Nat
  /-- The last character of code read on this line. -/
  previous : Option Char
  /-- The characters of the current unit still to come. -/
  rest : Nat
deriving DecidableEq, Repr

namespace Scan

def start : Scan := ⟨none, 0, 0, none, 0⟩

/-- Outside every literal and every pair of brackets. -/
def atTop (s : Scan) : Bool := s.quote.isNone && s.parens == 0 && s.brackets == 0

/-- Inside a literal that may span lines. -/
def inTriple (s : Scan) : Bool := s.quote.any Quote.isTriple

/-- The line does not end here: a tripled literal or a round bracket is open. -/
def isOpen (s : Scan) : Bool := s.inTriple || 0 < s.parens

/-- The state is outside every literal and between two units. -/
def atCode (s : Scan) : Bool := s.quote.isNone && s.rest == 0

/-- A quote may open a literal after this character, or at the start of a line. -/
def mayOpenAfter : Option Char → Bool
  | none => true
  | some c => isBlank c || c == ',' || c == '(' || c == '[' || c == '{' || c == ':'

/-- Counts a bracket. A closing bracket without an opening one counts for nothing. -/
def bracket (s : Scan) : Char → Scan
  | '(' => { s with parens := s.parens + 1 }
  | ')' => { s with parens := s.parens - 1 }
  | '[' | '{' => { s with brackets := s.brackets + 1 }
  | ']' | '}' => { s with brackets := s.brackets - 1 }
  | _ => s

/-- The quote that opens at `c`, which `cs` follows. -/
def opens? (s : Scan) (c : Char) (cs : List Char) : Option Quote :=
  if mayOpenAfter s.previous then Quote.opening? (c :: cs) else none

/-- A character of code: the state after it. -/
def code (s : Scan) (c : Char) : Scan := { s.bracket c with previous := some c }

/-- The state after the first character of a literal's opening delimiter. -/
def opened (s : Scan) (q : Quote) : Scan :=
  { s with quote := some q, previous := some q.char, rest := q.delimiter.length - 1 }

/-- The state after the first character of a literal's closing delimiter. -/
def closed (s : Scan) (q : Quote) : Scan :=
  { s with quote := none, previous := some q.char, rest := q.delimiter.length - 1 }

/-- The state after `c`, which `cs` follows. -/
def next (s : Scan) (c : Char) (cs : List Char) : Scan :=
  if 0 < s.rest then { s with rest := s.rest - 1 }
  else
    match s.quote with
    | none =>
      match s.opens? c cs with
      | some q => s.opened q
      | none => s.code c
    | some q =>
      if q.hasEscapes && c == '\\' then { s with rest := 1 }
      else if q.delimiter.isPrefixOf (c :: cs) then s.closed q
      else s

/-- The character `c`, which `cs` follows, is code: it belongs to no literal. -/
def isCode (s : Scan) (c : Char) (cs : List Char) : Bool :=
  s.atCode && (s.opens? c cs).isNone

/-- The state at the end of a line: a literal in single quotes or double quotes ends with it. -/
def endLine (s : Scan) : Scan :=
  { s with quote := s.quote.filter Quote.isTriple, previous := none, rest := 0 }

/-- The state after a text, which `after` follows. -/
def run (s : Scan) : List Char → List Char → Scan
  | [], _ => s
  | c :: cs, after => (s.next c (cs ++ after)).run cs after

end Scan

end RowConfig
