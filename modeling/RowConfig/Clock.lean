import RowConfig.Chars.Affix

/-!
# Times and date-times

Stored times have six digits of fractional seconds or none. Stored date-times further have `T`
between date and time and a numeric offset instead of `Z`. Both are edits of the text; nothing
checks that the text names a moment.
-/

namespace RowConfig.Clock

open RowConfig.Chars

/-- Digits cut or padded with zeros to six. -/
def sixDigits (ds : List Char) : List Char :=
  ds.take 6 ++ List.replicate (6 - ds.length) '0'

/-- Gives a fraction after the first point six digits; text without such a fraction stays. -/
def normalizeFraction (cs : List Char) : List Char :=
  match splitOnce? '.' cs with
  | none => cs
  | some (whole, fraction) =>
    if !fraction.isEmpty && fraction.all Char.isDigit then whole ++ '.' :: sixDigits fraction
    else cs

/-- The stored text of a time. -/
def normalizeTime (cs : List Char) : List Char := normalizeFraction cs

/-- The first blank written as `T`. -/
def joinDate : List Char → List Char
  | [] => []
  | c :: cs => if c = ' ' then 'T' :: cs else c :: joinDate cs

/-- A final `Z` written as the offset zero. -/
def numericOffset (cs : List Char) : List Char :=
  match cs.reverse with
  | 'Z' :: body => body.reverse ++ ['+', '0', '0', ':', '0', '0']
  | 'z' :: body => body.reverse ++ ['+', '0', '0', ':', '0', '0']
  | _ => cs

/-- Everything up to and including the first `T`, and what follows; all of a text without one
follows. -/
def splitDate (cs : List Char) : List Char × List Char :=
  match splitOnce? 'T' cs with
  | some (date, rest) => (date ++ ['T'], rest)
  | none => ([], cs)

def isOffsetSign (c : Char) : Bool := c == '+' || c == '-'

/-- The stored text of a date-time: the fraction that is normalized stands before the first sign
after the date. -/
def normalizeDateTime (cs : List Char) : List Char :=
  let (date, rest) := splitDate (numericOffset (joinDate cs))
  let time := rest.takeWhile fun c => !isOffsetSign c
  let offset := rest.dropWhile fun c => !isOffsetSign c
  normalizeFraction (date ++ time) ++ offset

end RowConfig.Clock
