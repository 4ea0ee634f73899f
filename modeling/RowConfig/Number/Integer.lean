/-!
# Integer literals

An integer is written in base ten, or in base 16, 8 or 2 after `0x`, `0o` or `0b`, with an optional
minus sign in front. Only values of 64-bit two's complement are integers of the language.
-/

namespace RowConfig.Number

/-- The least integer of the language. -/
def minInt : Int := -0x8000000000000000

/-- The greatest integer of the language. -/
def maxInt : Int := 0x7FFFFFFFFFFFFFFF

/-- The value of a letter or digit as a digit of some base up to 36. -/
def digitValue? (c : Char) : Option Nat :=
  if c.isDigit then some (c.toNat - '0'.toNat)
  else if 'a' ≤ c ∧ c ≤ 'z' then some (c.toNat - 'a'.toNat + 10)
  else if 'A' ≤ c ∧ c ≤ 'Z' then some (c.toNat - 'A'.toNat + 10)
  else none

/-- The value of a character as a digit of `base`. -/
def digitOf? (base : Nat) (c : Char) : Option Nat := (digitValue? c).filter (· < base)

/-- Reads digits of `base` from the left, `n` being the value of those before. -/
def readDigits? (base : Nat) : Nat → List Char → Option Nat
  | n, [] => some n
  | n, c :: cs =>
    match digitOf? base c with
    | some d => readDigits? base (base * n + d) cs
    | none => none

/-- The value of one or more digits of `base`. -/
def natural? (base : Nat) : List Char → Option Nat
  | [] => none
  | c :: cs => readDigits? base 0 (c :: cs)

/-- The base that the letter of a base mark stands for. -/
def baseOfLetter? : Char → Option Nat
  | 'x' | 'X' => some 16
  | 'o' | 'O' => some 8
  | 'b' | 'B' => some 2
  | _ => none

/-- The base of an unsigned literal and the digits after its base mark. -/
def baseAndDigits : List Char → Nat × List Char
  | '0' :: letter :: digits =>
    match baseOfLetter? letter with
    | some base => (base, digits)
    | none => (10, '0' :: letter :: digits)
  | digits => (10, digits)

/-- The value of an unsigned literal of any size. -/
def magnitude? (cs : List Char) : Option Nat :=
  let (base, digits) := baseAndDigits cs
  natural? base digits

/-- The integer, if it is one of the language. -/
def inRange? (n : Int) : Option Int := if minInt ≤ n ∧ n ≤ maxInt then some n else none

/-- The integer that a literal denotes. -/
def integer? : List Char → Option Int
  | '-' :: cs => (magnitude? cs).bind fun n => inRange? (-n)
  | cs => (magnitude? cs).bind fun n => inRange? n

end RowConfig.Number
