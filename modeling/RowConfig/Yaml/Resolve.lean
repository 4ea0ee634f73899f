import RowConfig.Number.FloatLiteral

/-!
# What plain YAML scalars mean

A plain scalar may be read back as null, a truth value or a number. Strings that would be, and
strings of digits that look like numbers, are written in quotes.
-/

namespace RowConfig.Yaml

open Number

def nullWords : List String := ["", "~", "null", "Null", "NULL"]

def boolWords : List String := ["true", "True", "TRUE", "false", "False", "FALSE"]

/-- The words for numbers that are not finite. -/
def specialFloats : List String :=
  [".inf", ".Inf", ".INF", "+.inf", "+.Inf", "+.INF", "-.inf", "-.Inf", "-.INF",
    ".nan", ".NaN", ".NAN"]

def isSign (c : Char) : Bool := c == '+' || c == '-'

def dropPlus : List Char → List Char
  | '+' :: cs => cs
  | cs => cs

def dropSign : List Char → List Char
  | c :: cs => if isSign c then cs else c :: cs
  | [] => []

/-- Digits with a superfluous zero in front, which are no number. -/
def hasLeadingZero (cs : List Char) : Bool :=
  match dropSign cs with
  | '0' :: d :: ds => (d :: ds).all Char.isDigit
  | _ => false

/-- The digits after `0x`, `0o` or `0b`, and their base. -/
def marked? : List Char → Option (Nat × List Char)
  | '0' :: 'x' :: cs => some (16, cs)
  | '0' :: 'o' :: cs => some (8, cs)
  | '0' :: 'b' :: cs => some (2, cs)
  | _ => none

/-- Unsigned digits, with a mark for their base or in base ten, of a number below `bound`. -/
def isMagnitude (bound : Nat) (leadingZero : Bool) (cs : List Char) : Bool :=
  (match marked? cs with
    | some (base, digits) => (natural? base digits).any (· < bound)
    | none => false) ||
  (!leadingZero && (natural? 10 cs).any (· < bound))

/-- The text of an integer of at most 128 bits, without a sign or with one. -/
def isInteger (cs : List Char) : Bool :=
  match cs with
  | '-' :: digits => isMagnitude ((1 <<< 127) + 1) (hasLeadingZero cs) digits
  | _ => isMagnitude (1 <<< 128) (hasLeadingZero cs) (dropPlus cs)

/-- The text of a finite float. A plus sign may stand before a float without a sign. -/
def isFiniteFloat (cs : List Char) : Bool :=
  match cs with
  | '+' :: '+' :: _ => false
  | '+' :: '-' :: _ => false
  | _ => (float? (dropPlus cs)).any Binary64.isFinite

/-- A plain scalar with this text would not be read back as a string, or looks like a number. -/
def resolvesElsewhere (cs : List Char) : Bool :=
  let word := String.ofList cs
  nullWords.contains word || boolWords.contains word || specialFloats.contains word ||
    isInteger cs || hasLeadingZero cs || isFiniteFloat cs

end RowConfig.Yaml
