import RowConfig.Number.Binary64

/-!
# Shortest decimals

The fewest decimal digits that read back as the same float, and among those the nearest to it. The
floats that round to a given one form an interval around it, whose ends belong to it exactly when
the significand is even. For one, two, … digits the two neighbours of the value on that decimal grid
are tested against the interval in exact arithmetic; the first grid with a hit gives the answer.
-/

namespace RowConfig.Number

/-- Which of two equally near decimals is taken. -/
inductive Tie where
  /-- The one farther from zero. -/
  | away
  /-- The one whose last digit is even. -/
  | even
deriving DecidableEq, Repr

/-- A decimal `0.d₁d₂d₃… · 10 ^ point`, by its digits. -/
structure Digits where
  digits : List Nat
  point : Int
deriving DecidableEq, Repr

/-- The reals that round to a float, in units of `1 / den`: the value and the two ends. -/
structure Interval where
  low : Nat
  value : Nat
  high : Nat
  den : Nat
  closed : Bool

/-- The interval of a finite float that is not zero. Below a power of two the floats are twice as
dense, so the lower end is nearer there. -/
def Interval.ofBinary64 (x : Binary64) : Interval :=
  let m := x.significand
  let below := if m = 1 <<< 52 ∧ x.exponentField ≠ 1 then 1 else 2
  let up := 1 <<< (x.power - 2).toNat
  let down := 1 <<< (2 - x.power).toNat
  ⟨(4 * m - below) * up, 4 * m * up, (4 * m + 2) * up, down, m % 2 == 0⟩

/-- The fraction `num / den` is in the interval. -/
def Interval.contains (i : Interval) (num den : Nat) : Bool :=
  let low := i.low * den
  let high := i.high * den
  let here := num * i.den
  if i.closed then low ≤ here && here ≤ high else low < here && here < high

/-- The decimal digits of a number, none for zero. -/
def decimalDigits (n : Nat) : List Nat := ((Nat.toDigits 10 n).map fun c => c.toNat - '0'.toNat)

/-- The exponent `k` with `10 ^ (k - 1) ≤ value < 10 ^ k`, for a value above `10 ^ -400`. -/
def Interval.magnitude (i : Interval) : Int :=
  (Nat.toDigits 10 (i.value * Nat.pow 10 400 / i.den)).length - 400

/-- The decimal grid `g · 10 ^ p`: the fraction that a grid point stands for. -/
def gridPoint (g : Nat) (p : Int) : Nat × Nat := (g * Nat.pow 10 p.toNat, Nat.pow 10 (-p).toNat)

/-- The grid point at `10 ^ p` that represents the interval best, if one lies in it: of two, the
nearer, and of two equally near ones the one that `tie` prefers. -/
def Interval.onGrid? (i : Interval) (tie : Tie) (p : Int) : Option Nat :=
  let num := i.value * Nat.pow 10 (-p).toNat
  let den := i.den * Nat.pow 10 p.toNat
  let g := num / den
  let r := num % den
  let holds (g : Nat) : Bool := i.contains (gridPoint g p).1 (gridPoint g p).2
  let upper := den < 2 * r || (den == 2 * r && (tie = .away || g % 2 = 1))
  match holds g, holds (g + 1) with
  | true, true => some (if upper then g + 1 else g)
  | true, false => some g
  | false, true => some (g + 1)
  | false, false => none

/-- Tries grids with `count`, `count + 1`, … digits, at most `tries` of them. -/
def Interval.search (i : Interval) (tie : Tie) (magnitude : Int) : Nat → Nat → Nat × Int
  | 0, _ => (0, 0)
  | tries + 1, count =>
    let p := magnitude - count
    match i.onGrid? tie p with
    | some g => (g, p)
    | none => i.search tie magnitude tries (count + 1)

/-- The digits without the zeros at their end. -/
def dropTrailingZeros (ds : List Nat) : List Nat := (ds.reverse.dropWhile (· == 0)).reverse

/-- The shortest digits of a finite float that is not zero; seventeen digits always suffice. -/
def shortest (tie : Tie) (x : Binary64) : Digits :=
  let i := Interval.ofBinary64 x
  let (g, p) := i.search tie i.magnitude 17 1
  let ds := decimalDigits g
  ⟨dropTrailingZeros ds, ds.length + p⟩

end RowConfig.Number
