import RowConfig.Chars.Lowercase
import RowConfig.Chars.Offset

/-!
# Suggestions for unknown names

A name that is not declared is compared with those that are by edit distance, letter case apart. The
distance is computed row by row: `nextRow` extends the row of distances of all prefixes of one text.
-/

namespace RowConfig.Suggestion

open Chars

/-- The row of distances after one more character `a` of the first text: for each prefix of `bs`,
given the previous row and the distance `left` for the prefix before it. -/
def extendRow (a : Char) (left : Nat) : List Char → List Nat → List Nat
  | b :: bs, diagonal :: above :: row =>
    let here := min (min (above + 1) (left + 1)) (diagonal + if a = b then 0 else 1)
    here :: extendRow a here bs (above :: row)
  | _, _ => []

/-- The distances of the prefixes of `bs` from a text that has become one character longer. -/
def nextRow (bs : List Char) (row : List Nat) (a : Char) : List Nat :=
  let first := row.headD 0 + 1
  first :: extendRow a first bs row

/-- The least number of characters to delete, insert and substitute to turn one text into the
other. -/
def editDistance (as bs : List Char) : Nat :=
  (as.foldl (nextRow bs) (List.range (bs.length + 1))).getLastD 0

/-- The distance of two names, letter case apart. -/
def distance (a b : String) : Nat := editDistance (lowercase a.toList) (lowercase b.toList)

/-- The first of the candidates nearest to a name, if one lies within `limit`. -/
def nearest? (name : String) (candidates : List String) (limit : Nat) : Option String :=
  (candidates.foldl (fun best candidate =>
    let d := distance name candidate
    match best with
    | some (b, _) => if d < b then some (d, candidate) else best
    | none => if d ≤ limit then some (d, candidate) else none) none).map Prod.snd

/-- The number of differences that still make a suggestion: a third of the name's bytes, but two at
least and three at most. -/
def tolerance (name : String) : Nat := max 2 (min 3 (byteSize name.toList / 3))

/-- The advice for an unknown name of some kind: the nearest known name, else what is known. -/
def advice (name kind : String) (known : List String) : String :=
  match nearest? name known (tolerance name) with
  | some similar => "did you mean '" ++ similar ++ "'?"
  | none =>
    if known.isEmpty then "no " ++ kind ++ "s are declared"
    else if known.length ≤ 5 then "available " ++ kind ++ "s: " ++ ", ".intercalate known
    else "check the " ++ kind ++ " name for typos"

end RowConfig.Suggestion
