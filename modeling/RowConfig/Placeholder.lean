import RowConfig.Chars.Affix
import RowConfig.Chars.Blank
import RowConfig.Escape

/-!
# Placeholders

A template is cut into literal runs and placeholders `{path}`. Where escapes are in force a
backslash and the character after it are literal, so an escaped brace begins no placeholder. A brace
that is never closed is literal, as is everything after it. `flatMap_source_ofTemplate` says that
cutting loses nothing.
-/

namespace RowConfig

open Chars

/-- A part of a template. -/
inductive Segment where
  | literal (text : List Char)
  /-- What stands between the braces. -/
  | placeholder (path : List Char)
deriving DecidableEq, Repr

namespace Segment

/-- The text that a segment was read from. -/
def source : Segment → List Char
  | literal text => text
  | placeholder path => '{' :: path ++ ['}']

/-- The segments of a template. -/
def ofTemplate (escapes : Bool) : List Char → List Segment
  | [] => []
  | c :: cs =>
    if c = '{' then
      match _closed : splitOnce? '}' cs with
      | none => [literal ('{' :: cs)]
      | some (path, rest) => placeholder path :: ofTemplate escapes rest
    else if c = '\\' && escapes then
      literal (c :: cs.take 1) :: ofTemplate escapes (cs.drop 1)
    else literal [c] :: ofTemplate escapes cs
termination_by cs => cs.length
decreasing_by
  · exact Nat.lt_succ_of_lt (length_lt_of_splitOnce? _closed)
  · simp only [List.length_drop, List.length_cons]; omega
  · simp

theorem flatMap_source_ofTemplate (escapes : Bool) (cs : List Char) :
    (ofTemplate escapes cs).flatMap source = cs := by
  fun_induction ofTemplate escapes cs with
  | case1 => rfl
  | case2 cs h => simp [source]
  | case3 cs path rest h ih => simp [source, ih, splitOnce?_eq_some h]
  | case4 c cs _ _ ih =>
    simp only [List.flatMap_cons, source, ih, List.cons_append, List.take_append_drop]
  | case5 c cs _ _ ih => simp [source, ih]

end Segment

/-- A brace opens in the text; where escapes are in force it is not an escaped one. -/
def hasPlaceholder (escapes : Bool) : List Char → Bool
  | [] => false
  | ['\\'] => false
  | '\\' :: c :: cs =>
    if escapes then hasPlaceholder escapes cs else hasPlaceholder escapes (c :: cs)
  | c :: cs => c == '{' || hasPlaceholder escapes cs

end RowConfig
