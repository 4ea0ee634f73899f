import RowConfig.Chars.Identifier
import RowConfig.Scan

/-!
# Top-level splitting

Argument lists are cut at separators that stand outside every literal and every pair of brackets.
Pieces come with the byte offset at which they begin; nothing is trimmed.
-/

namespace RowConfig

open Chars

/-- The separator stands here at top level. -/
def Scan.separates (s : Scan) (sep c : Char) (cs : List Char) : Bool :=
  s.atTop && s.isCode c cs && c == sep

/-- The pieces of a text between the separators that a reader in state `s` meets at top level. There
is at least one piece. -/
def Scan.pieces (sep : Char) (s : Scan) : List Char → List (List Char)
  | [] => [[]]
  | c :: cs =>
    if s.separates sep c cs then [] :: Scan.pieces sep (s.next c cs) cs
    else (Scan.pieces sep (s.next c cs) cs).modifyHead (c :: ·)

/-- Pieces with their byte offsets, when the first begins at `start` and one separator stands
between any two. -/
def placePieces (sep : Char) (start : Nat) : List (List Char) → List (Nat × List Char)
  | [] => []
  | piece :: more =>
    (start, piece) :: placePieces sep (start + byteSize piece + sep.utf8Size) more

/-- The pieces of a text between top-level separators, with their byte offsets. -/
def splitTop (sep : Char) (cs : List Char) : List (Nat × List Char) :=
  placePieces sep 0 (Scan.start.pieces sep cs)

/-- The texts before and after the first separator that a reader in state `s` meets at top level. -/
def Scan.cut? (sep : Char) (s : Scan) : List Char → Option (List Char × List Char)
  | [] => none
  | c :: cs =>
    if s.separates sep c cs then some ([], cs)
    else (Scan.cut? sep (s.next c cs) cs).map fun (before, after) => (c :: before, after)

/-- The texts before and after the first top-level separator. -/
def cutTop? (sep : Char) (cs : List Char) : Option (List Char × List Char) :=
  Scan.start.cut? sep cs

/-- The byte offset of the first top-level separator. -/
def findTop? (sep : Char) (cs : List Char) : Option Nat :=
  (cutTop? sep cs).map fun (before, _) => byteSize before

/-- A closing bracket whose kind has none open. -/
def Scan.unmatched (s : Scan) : Char → Bool
  | ')' => s.parens == 0
  | ']' | '}' => s.brackets == 0
  | _ => false

/-- Read on from state `s`, every bracket is matched and no literal is left open. -/
def Scan.balanced (s : Scan) : List Char → Bool
  | [] => s.atTop
  | c :: cs => !(s.atCode && s.unmatched c) && (s.next c cs).balanced cs

/-- Every bracket is matched and no literal is left open. -/
def isBalanced (cs : List Char) : Bool := Scan.start.balanced cs

/-- An argument of the form `name: value`. -/
structure NamedArgument where
  name : List Char
  /-- The text after the colon. -/
  value : List Char
  /-- The byte offset of `value` in the argument. -/
  offset : Nat
deriving DecidableEq

/-- Reads an argument as `name: value`. The colon ends the argument or a blank follows it, so that
`http://host` has no name. -/
def splitNamed? (cs : List Char) : Option NamedArgument :=
  match cutTop? ':' cs with
  | none => none
  | some (before, after) =>
    let name := trim before
    if isIdentifier name && atWordEnd after then some ⟨name, after, byteSize before + 1⟩ else none

end RowConfig
