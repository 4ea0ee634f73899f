import RowConfig.Number.Shortest

/-!
# Layouts of floats

How a format writes the shortest digits of a float: where positional notation ends, whether a whole
number keeps a point, how a power of ten is marked, and the words for what is not finite.
-/

namespace RowConfig.Number

/-- The choices of one output format. -/
structure Layout where
  /-- Which of two equally near shortest decimals is written. -/
  tie : Tie
  /-- What follows the digits of a whole number in positional notation. -/
  wholeMark : String
  /-- What stands between `e` and a positive power of ten. -/
  plus : String
  notANumber : String
  infinite : String
  negativeInfinite : String

def digitText (ds : List Nat) : String := String.join (ds.map toString)

def zeros (n : Nat) : String := String.ofList (List.replicate n '0')

/-- Positional notation. -/
def Layout.positional (l : Layout) (d : Digits) : String :=
  if d.point ≤ 0 then
    "0." ++ zeros (-d.point).toNat ++ digitText d.digits
  else if d.digits.length ≤ d.point.toNat then
    digitText d.digits ++ zeros (d.point.toNat - d.digits.length) ++ l.wholeMark
  else
    digitText (d.digits.take d.point.toNat) ++ "." ++ digitText (d.digits.drop d.point.toNat)

/-- One digit, the others after a point, and a power of ten. -/
def Layout.scientific (l : Layout) (d : Digits) : String :=
  let power := d.point - 1
  let mark := if power < 0 then "e" else "e" ++ l.plus
  let digits :=
    match d.digits with
    | [] => ""
    | [a] => toString a
    | a :: ds => toString a ++ "." ++ digitText ds
  digits ++ mark ++ toString power

/-- The text of digits: positional from `10 ^ -5` up to but not including `10 ^ 16`. -/
def Layout.digits (l : Layout) (d : Digits) : String :=
  if -4 ≤ d.point ∧ d.point ≤ 16 then l.positional d else l.scientific d

/-- The text of a float. -/
def Layout.render (l : Layout) (x : Binary64) : String :=
  if x.isNaN then l.notANumber
  else if !x.isFinite then (if x.isNegative then l.negativeInfinite else l.infinite)
  else
    let sign := if x.isNegative then "-" else ""
    if x.isZero then sign ++ "0" ++ l.wholeMark
    else sign ++ l.digits (shortest l.tie x)

end RowConfig.Number
