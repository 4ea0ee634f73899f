/-!
# Floating-point numbers

A number of the format binary64, kept as its 64 bits. A finite number is a sign, a whole significand
and a power of two; `ofDecimal` rounds a decimal to the nearest number, a tie to the even
significand. All arithmetic is on `Nat` and `Int`, so that statements about it need no axioms of a
machine.
-/

namespace RowConfig.Number

/-- A binary64 number as its bits. -/
structure Binary64 where
  bits : UInt64
deriving DecidableEq, Repr

namespace Binary64

def isNegative (x : Binary64) : Bool := x.bits >>> 63 == 1

/-- The biased exponent, 11 bits. -/
def exponentField (x : Binary64) : Nat := ((x.bits >>> 52) &&& 0x7FF).toNat

/-- The trailing significand, 52 bits. -/
def fraction (x : Binary64) : Nat := (x.bits &&& 0xFFFFFFFFFFFFF).toNat

/-- Neither infinite nor NaN. -/
def isFinite (x : Binary64) : Bool := x.exponentField != 0x7FF

def isNaN (x : Binary64) : Bool := x.exponentField == 0x7FF && x.fraction != 0

def isZero (x : Binary64) : Bool := x.exponentField == 0 && x.fraction == 0

/-- The whole significand `m` of a finite number `m · 2 ^ q`. -/
def significand (x : Binary64) : Nat :=
  if x.exponentField = 0 then x.fraction else x.fraction + (1 <<< 52)

/-- The power `q` of a finite number `m · 2 ^ q`. -/
def power (x : Binary64) : Int := max x.exponentField 1 - 1075

/-- The least positive magnitude's bits carry no sign; this sets the sign bit. -/
def signBits (negative : Bool) : UInt64 := if negative then 0x8000000000000000 else 0

def zero (negative : Bool) : Binary64 := ⟨signBits negative⟩

def infinity (negative : Bool) : Binary64 := ⟨signBits negative ||| 0x7FF0000000000000⟩

/-- A quiet NaN. -/
def nan : Binary64 := ⟨0x7FF8000000000000⟩

/-- Equality of numbers: NaN differs from itself and the two zeros are equal. -/
def equal (x y : Binary64) : Bool :=
  !x.isNaN && !y.isNaN && (x.bits == y.bits || (x.isZero && y.isZero))

/-- The quotient rounded to the nearest whole number, a tie to the even one. -/
def roundQuotient (num den : Nat) : Nat :=
  let q := num / den
  let r := num % den
  if 2 * r < den then q else if den < 2 * r then q + 1 else q + q % 2

/-- The fraction `num / den` times two to the power `p`, as a new fraction. -/
def scaleByTwo (num den : Nat) (p : Int) : Nat × Nat :=
  if 0 ≤ p then (num <<< p.toNat, den) else (num, den <<< (-p).toNat)

/-- The whole number `k` with `2 ^ k ≤ num / den < 2 ^ (k + 1)`, for a positive fraction. -/
def floorLog2 (num den : Nat) : Int :=
  let guess : Int := (Nat.log2 num : Int) - (Nat.log2 den : Int)
  let (n, d) := scaleByTwo num den (-guess)
  if d ≤ n then guess else guess - 1

/-- The number nearest to a fraction, a tie to the even significand; past the greatest finite number
comes infinity. -/
def ofFraction (negative : Bool) (num den : Nat) : Binary64 :=
  if num = 0 then zero negative
  else
    let q : Int := max (floorLog2 num den - 52) (-1074)
    let (n, d) := scaleByTwo num den (-q)
    let m := roundQuotient n d
    -- The leading bit of a normal significand adds one to the exponent field, and so does a carry.
    let magnitude := ((q + 1074).toNat <<< 52) + m
    if 0x7FF <<< 52 ≤ magnitude then infinity negative
    else ⟨signBits negative ||| UInt64.ofNat magnitude⟩

/-- No decimal with this power of ten or a higher one is finite, and none below its negative differs
from zero. -/
def decimalBound : Int := 400

/-- The number nearest to `m · 10 ^ e`, where `m` has at most `digits` digits. -/
def ofDecimal (negative : Bool) (m digits : Nat) (e : Int) : Binary64 :=
  if m = 0 then zero negative
  else if decimalBound ≤ e then infinity negative
  else if e + digits ≤ -decimalBound then zero negative
  else if 0 ≤ e then ofFraction negative (m * Nat.pow 10 e.toNat) 1
  else ofFraction negative m (Nat.pow 10 (-e).toNat)

end Binary64

end RowConfig.Number
