import RowConfig.Chars.Offset

/-!
# Escape sequences

A double-quoted literal is read as a list of units: a plain character, or a backslash with what
belongs to it. Each unit knows the text it was read from and the character it stands for, or what is
wrong with it. Strict decoding reports the first malformed unit, lenient decoding keeps such units
as they are written; `flatMap_source_pieces` says that cutting into units loses nothing.
-/

namespace RowConfig.Escape

open RowConfig.Chars

/-- What is wrong with an escape sequence. -/
inductive Problem where
  /-- The text ends with a backslash that escapes nothing. -/
  | loneBackslash
  /-- A `u` or `U` escape lacks digits or names no code point. -/
  | badCodePoint
  /-- No escape has this letter. -/
  | unknownLetter
deriving DecidableEq, Repr

def Problem.help : Problem → String
  | .loneBackslash => "a string cannot end with a lone backslash"
  | .badCodePoint => "unicode escapes are \\uXXXX or \\UXXXXXXXX with a valid code point"
  | .unknownLetter => "use '\\\\' for a literal backslash, or a single-quoted literal string"

/-- One unit of escaped text: the characters it is written with and the character it stands for. -/
structure Piece where
  source : List Char
  meaning : Except Problem Char

/-- The character that a one-letter escape stands for. -/
def ofLetter? : Char → Option Char
  | 'n' => some '\n'
  | 'r' => some '\r'
  | 't' => some '\t'
  | '0' => some '\x00'
  | '\\' => some '\\'
  | '"' => some '"'
  | '\'' => some '\''
  | '{' => some '{'
  | '}' => some '}'
  | _ => none

/-- The number of hexadecimal digits that the letter of a code point escape asks for. -/
def codePointWidth? : Char → Option Nat
  | 'u' => some 4
  | 'U' => some 8
  | _ => none

/-- The value of a hexadecimal digit, zero for other characters. -/
def hexDigit (c : Char) : Nat :=
  if c.isDigit then c.toNat - '0'.toNat
  else if 'a' ≤ c ∧ c ≤ 'f' then c.toNat - 'a'.toNat + 10
  else if 'A' ≤ c ∧ c ≤ 'F' then c.toNat - 'A'.toNat + 10
  else 0

/-- A digit of either letter case of base sixteen. -/
def isHexDigit (c : Char) : Bool :=
  c.isDigit || ('a' ≤ c && c ≤ 'f') || ('A' ≤ c && c ≤ 'F')

/-- The code point written by hexadecimal digits, where it is one. -/
def codePoint? (digits : List Char) : Option Char :=
  let n := digits.foldl (fun n c => 16 * n + hexDigit c) 0
  if n.isValidChar then some (Char.ofNat n) else none

/-- The unit of a code point escape with the given letter and width, and the text after it. It takes
as many hexadecimal digits as stand there, up to its width, and needs all of them. -/
def codePointPiece (letter : Char) (width : Nat) (cs : List Char) : Piece × List Char :=
  let digits := (cs.take width).takeWhile isHexDigit
  let meaning :=
    match codePoint? digits with
    | some c => if digits.length = width then .ok c else .error .badCodePoint
    | none => .error .badCodePoint
  (⟨'\\' :: letter :: digits, meaning⟩, cs.drop digits.length)

/-- The unit that a backslash begins, given the text after the backslash, and the text after the
unit. -/
def afterBackslash : List Char → Piece × List Char
  | [] => (⟨['\\'], .error .loneBackslash⟩, [])
  | letter :: cs =>
    match ofLetter? letter, codePointWidth? letter with
    | some c, _ => (⟨['\\', letter], .ok c⟩, cs)
    | none, some width => codePointPiece letter width cs
    | none, none => (⟨['\\', letter], .error .unknownLetter⟩, cs)

theorem source_codePointPiece (letter : Char) (width : Nat) (cs : List Char) :
    (codePointPiece letter width cs).1.source ++ (codePointPiece letter width cs).2 =
      '\\' :: letter :: cs := by
  have htake : (cs.take width).takeWhile isHexDigit <+: cs.take width := List.takeWhile_prefix _
  have hpre := htake.trans <| List.take_prefix width cs
  simp only [codePointPiece, List.cons_append, List.cons.injEq, true_and]
  -- the digits begin the text, so the unit and the text after it are a cut of it
  conv => rhs; rw [← List.take_append_drop ((cs.take width).takeWhile isHexDigit).length cs]
  rw [← List.prefix_iff_eq_take.mp hpre]

theorem source_afterBackslash (cs : List Char) :
    (afterBackslash cs).1.source ++ (afterBackslash cs).2 = '\\' :: cs := by
  match cs with
  | [] => rfl
  | letter :: cs =>
    simp only [afterBackslash]
    split
    · rfl
    · exact source_codePointPiece _ _ _
    · rfl

theorem length_afterBackslash (cs : List Char) : (afterBackslash cs).2.length ≤ cs.length := by
  match cs with
  | [] => simp [afterBackslash]
  | letter :: cs =>
    simp only [afterBackslash]
    split
    · simp
    · simp only [codePointPiece, List.length_drop, List.length_cons]
      omega
    · simp

/-- The units of an escaped text. -/
def pieces : List Char → List Piece
  | [] => []
  | c :: cs =>
    if c = '\\' then
      (afterBackslash cs).1 :: pieces (afterBackslash cs).2
    else
      ⟨[c], .ok c⟩ :: pieces cs
termination_by cs => cs.length
decreasing_by
  · have := length_afterBackslash cs
    simp only [List.length_cons]; omega
  · simp

/-- Cutting a text into units loses nothing. -/
theorem flatMap_source_pieces (cs : List Char) : (pieces cs).flatMap Piece.source = cs := by
  fun_induction pieces cs with
  | case1 => rfl
  | case2 cs ih =>
    rw [List.flatMap_cons, ih]
    exact source_afterBackslash cs
  | case3 c cs _ ih => simp [ih]

/-- A malformed unit: the text before it, its own text and what is wrong with it. -/
structure Malformed where
  before : List Char
  sequence : List Char
  problem : Problem
deriving DecidableEq

/-- The byte offset of a malformed unit's backslash. -/
def Malformed.offset (m : Malformed) : Nat := byteSize m.before

/-- The same malformed unit, seen from a text that begins with `cs` before it. -/
def Malformed.after (cs : List Char) (m : Malformed) : Malformed :=
  { m with before := cs ++ m.before }

/-- The characters that units stand for; the first malformed unit is an error. -/
def decodePieces : List Piece → Except Malformed (List Char)
  | [] => .ok []
  | p :: ps =>
    match p.meaning with
    | .error problem => .error ⟨[], p.source, problem⟩
    | .ok c =>
      match decodePieces ps with
      | .ok cs => .ok (c :: cs)
      | .error m => .error (m.after p.source)

/-- Decodes an escaped text; the first malformed unit is an error. -/
def decode (cs : List Char) : Except Malformed (List Char) := decodePieces (pieces cs)

/-- The character that a unit stands for, or its text where it is malformed. -/
def Piece.lenient (p : Piece) : List Char :=
  match p.meaning with
  | .ok c => [c]
  | .error _ => p.source

/-- Decodes an escaped text, keeping malformed units as they are written. -/
def decodeLenient (cs : List Char) : List Char := (pieces cs).flatMap Piece.lenient

end RowConfig.Escape
