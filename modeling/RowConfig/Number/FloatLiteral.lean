import RowConfig.Number.Binary64
import RowConfig.Number.Integer

/-!
# Floating-point literals

A float is an optional sign and then `inf`, `infinity` or `nan` in any letter case, or a decimal:
digits with at most one point, at least one digit, and an optional power of ten.
-/

namespace RowConfig.Number

/-- A decimal as written: its digits without the point, how many of them follow the point, and the
power of ten after `e`. -/
structure Decimal where
  digits : List Char
  places : Nat
  power : Int
deriving DecidableEq

/-- A whole number with an optional sign, as it stands after `e`. -/
def signedPower? : List Char → Option Int
  | '-' :: cs => (natural? 10 cs).map fun n => -(n : Int)
  | '+' :: cs => (natural? 10 cs).map fun n => (n : Int)
  | cs => (natural? 10 cs).map fun n => (n : Int)

/-- The power of ten that ends a decimal: nothing, or `e` and a whole number. -/
def powerPart? : List Char → Option Int
  | [] => some 0
  | c :: cs => if c = 'e' ∨ c = 'E' then signedPower? cs else none

/-- The digits after a point, if there is a point, and the rest. -/
def fractionPart : List Char → List Char × List Char
  | '.' :: cs => (cs.takeWhile Char.isDigit, cs.dropWhile Char.isDigit)
  | cs => ([], cs)

/-- Reads an unsigned decimal. -/
def decimal? (cs : List Char) : Option Decimal :=
  let whole := cs.takeWhile Char.isDigit
  let (fraction, rest) := fractionPart (cs.dropWhile Char.isDigit)
  if whole.isEmpty && fraction.isEmpty then none
  else (powerPart? rest).map fun power => ⟨whole ++ fraction, fraction.length, power⟩

/-- The value of the digits of a decimal, as a whole number. -/
def Decimal.mantissa (d : Decimal) : Nat := (readDigits? 10 0 d.digits).getD 0

/-- The float nearest to a decimal. -/
def Decimal.toBinary64 (negative : Bool) (d : Decimal) : Binary64 :=
  .ofDecimal negative d.mantissa d.digits.length (d.power - d.places)

/-- An unsigned float literal. -/
def unsignedFloat? (negative : Bool) (cs : List Char) : Option Binary64 :=
  let word := String.ofList (cs.map Char.toLower)
  if word = "inf" ∨ word = "infinity" then some (.infinity negative)
  else if word = "nan" then some .nan
  else (decimal? cs).map (Decimal.toBinary64 negative)

/-- The float that a literal denotes. -/
def float? : List Char → Option Binary64
  | '-' :: cs => unsignedFloat? true cs
  | '+' :: cs => unsignedFloat? false cs
  | cs => unsignedFloat? false cs

end RowConfig.Number
