/-!
# Blank characters and trimming

Lines and tokens are trimmed by the Unicode property `White_Space`, which core's `Char.isWhitespace`
does not cover. This module holds the property and the cuts made with it, all on `List Char`.
-/

namespace RowConfig.Chars

/-- A character with the Unicode property `White_Space`: the 25 code points of the standard. -/
def isBlank (c : Char) : Bool :=
  let n := c.toNat
  (9 ≤ n && n ≤ 13) || n == 0x20 || n == 0x85 || n == 0xA0 || n == 0x1680 ||
    (0x2000 ≤ n && n ≤ 0x200A) || n == 0x2028 || n == 0x2029 || n == 0x202F || n == 0x205F ||
    n == 0x3000

/-- The text without its leading run of blanks. -/
def trimStart (cs : List Char) : List Char := cs.dropWhile isBlank

/-- The text without its trailing run of blanks. -/
def trimEnd : List Char → List Char
  | [] => []
  | c :: cs =>
    match trimEnd cs with
    | [] => if isBlank c then [] else [c]
    | d :: ds => c :: d :: ds

/-- The text without the blanks at both of its ends. -/
def trim (cs : List Char) : List Char := trimEnd (trimStart cs)

/-- The leading run of blanks. -/
def indent (cs : List Char) : List Char := cs.takeWhile isBlank

/-- A word may end here: the text is empty or begins with a blank. -/
def atWordEnd : List Char → Bool
  | [] => true
  | c :: _ => isBlank c

theorem indent_append_trimStart (cs : List Char) : indent cs ++ trimStart cs = cs :=
  List.takeWhile_append_dropWhile

end RowConfig.Chars
