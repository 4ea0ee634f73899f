import RowConfig.Chars.Offset
import RowConfig.Yaml.Resolve

/-!
# YAML scalars

A string is written plain, in single or double quotes, or as a literal block. The style that is
wanted follows from the text: a block where it has a line feed, single quotes where it would be read
back as something else, plain otherwise. What the characters of the text do not allow falls back to
single and then to double quotes, in which every text can be written.
-/

namespace RowConfig.Yaml

/-- A character that may be written as it is. -/
def isPrintable (c : Char) : Bool :=
  let n := c.toNat
  n == 0x0A || (0x20 ≤ n && n ≤ 0x7E) || (0xA0 ≤ n && n ≤ 0xFFFD && n != 0xFEFF) || 0x10000 ≤ n

def isBreak (c : Char) : Bool :=
  let n := c.toNat
  n == 0x0A || n == 0x0D || n == 0x85 || n == 0x2028 || n == 0x2029

/-- A blank, a tab, a line break or nothing comes next. -/
def blankNext : List Char → Bool
  | [] => true
  | c :: _ => c == ' ' || c == '\t' || c == '\x00' || isBreak c

/-- Characters that mean something at the start of a plain scalar. -/
def startIndicators : List Char :=
  ['#', ',', '[', ']', '\x7b', '\x7d', '&', '*', '!', '|', '>', '\'', '"', '%', '@', '\x60']

/-- The first character `c`, which `cs` follows, forbids the plain style. -/
def indicatesAtStart (c : Char) (cs : List Char) : Bool :=
  startIndicators.contains c || ((c == '?' || c == ':' || c == '-') && blankNext cs)

/-- A later character forbids the plain style; `blankBefore` if it follows a blank or a line
break. -/
def indicatesInside (blankBefore : Bool) : List Char → Bool
  | [] => false
  | c :: cs =>
    (c == ':' && blankNext cs) || (c == '#' && blankBefore) || indicatesInside (blankNext [c]) cs

/-- The text begins with the mark of a document's start or end. -/
def beginsWithDocumentMark (cs : List Char) : Bool :=
  ['-', '-', '-'].isPrefixOf cs || ['.', '.', '.'].isPrefixOf cs

/-- Some character is an indicator, so that the text cannot be plain. -/
def hasIndicator (cs : List Char) : Bool :=
  beginsWithDocumentMark cs ||
    match cs with
    | [] => false
    | c :: cs => indicatesAtStart c cs || indicatesInside (blankNext [c]) cs

/-- Two neighbouring characters of a text, the first with property `p` and the second with `q`. -/
def hasPair (p q : Char → Bool) : List Char → Bool
  | a :: b :: cs => (p a && q b) || hasPair p q (b :: cs)
  | _ => false

def isSpace (c : Char) : Bool := c == ' '

/-- The text has a character that only double quotes can hold, or blanks before a line break. -/
def needsEscapes (cs : List Char) : Bool :=
  cs.any (fun c => !isPrintable c) || hasPair isSpace isBreak cs

/-- The text can be written plain. -/
def plainAllowed (cs : List Char) : Bool :=
  !needsEscapes cs && !cs.any isBreak && !hasIndicator cs &&
    !cs.head?.any isSpace && !cs.getLast?.any isSpace

/-- The text can be written in single quotes. -/
def singleAllowed (cs : List Char) : Bool := !needsEscapes cs && !hasPair isBreak isSpace cs

/-- The text can be written as a literal block. -/
def blockAllowed (cs : List Char) : Bool := !needsEscapes cs && !cs.getLast?.any isSpace

/-- The ways to write a string. -/
inductive Style where
  | plain
  | single
  | double
  | literal
deriving DecidableEq, Repr

/-- The style in which a string is written. -/
def styleOf (cs : List Char) : Style :=
  if cs.contains '\n' then (if blockAllowed cs then .literal else .double)
  else if !resolvesElsewhere cs && plainAllowed cs then .plain
  else if singleAllowed cs then .single
  else .double

def blanks (n : Nat) : List Char := List.replicate n ' '

/-- The text between single quotes: a quote is doubled, and after a line break the line is
indented. -/
def singleBody (indent : Nat) (broken : Bool) : List Char → List Char
  | [] => if broken then blanks indent else []
  | c :: cs =>
    if isBreak c then c :: singleBody indent true cs
    else
      (if broken && c != ' ' then blanks indent else []) ++
        (if c = '\'' then ['\'', '\''] else [c]) ++ singleBody indent (broken && c == ' ') cs

/-- Hexadecimal digits in upper case, `width` of them. -/
def hex (width n : Nat) : List Char :=
  let ds := (Nat.toDigits 16 n).map Char.toUpper
  List.replicate (width - ds.length) '0' ++ ds

/-- The letter of the short escape of a character. -/
def escapeLetter? (c : Char) : Option Char :=
  match c.toNat with
  | 0x00 => some '0'
  | 0x07 => some 'a'
  | 0x08 => some 'b'
  | 0x09 => some 't'
  | 0x0A => some 'n'
  | 0x0B => some 'v'
  | 0x0C => some 'f'
  | 0x0D => some 'r'
  | 0x1B => some 'e'
  | 0x22 => some '"'
  | 0x5C => some '\\'
  | 0x85 => some 'N'
  | 0x2028 => some 'L'
  | 0x2029 => some 'P'
  | _ => none

/-- A character between double quotes. -/
def doubleChar (c : Char) : List Char :=
  if isPrintable c && !isBreak c && c != '"' && c != '\\' then [c]
  else
    match escapeLetter? c with
    | some letter => ['\\', letter]
    | none =>
      if c.toNat ≤ 0xFF then '\\' :: 'x' :: hex 2 c.toNat
      else if c.toNat ≤ 0xFFFF then '\\' :: 'u' :: hex 4 c.toNat
      else '\\' :: 'U' :: hex 8 c.toNat

/-- The header of a literal block: the indentation is given where the text begins with a blank or a
line break, and a mark says whether it ends without a line break or with several. -/
def blockHeader (cs : List Char) : List Char :=
  let indentation := if cs.head?.any fun c => isSpace c || isBreak c then ['2'] else []
  let ending :=
    match cs.reverse with
    | [] => ['-']
    | [c] => if isBreak c then ['+'] else ['-']
    | c :: d :: _ => if !isBreak c then ['-'] else if isBreak d then ['+'] else []
  '|' :: indentation ++ ending

/-- The lines of a literal block, each that is not empty indented; `fresh` at the start of a
line. -/
def blockBody (indent : Nat) (fresh : Bool) : List Char → List Char
  | [] => []
  | c :: cs =>
    if isBreak c then c :: blockBody indent true cs
    else (if fresh then blanks indent else []) ++ c :: blockBody indent false cs

/-- A string as a scalar whose further lines are indented by `indent`. -/
def renderString (indent : Nat) (cs : List Char) : List Char :=
  match styleOf cs with
  | .plain => cs
  | .single => '\'' :: singleBody indent false cs ++ ['\'']
  | .double => '"' :: cs.flatMap doubleChar ++ ['"']
  | .literal => blockHeader cs ++ '\n' :: blockBody indent true cs

/-- A key is written on the line of its value if it has no line break and at most 128 bytes. -/
def isSimpleKey (cs : List Char) : Bool := !cs.any isBreak && Chars.byteSize cs ≤ 128

end RowConfig.Yaml
