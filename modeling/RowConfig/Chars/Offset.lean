/-!
# Byte offsets

Offsets into a text count the bytes of its UTF-8 encoding, columns count characters. This module
measures a text in bytes and cuts it at a byte offset.
-/

namespace RowConfig.Chars

/-- The number of bytes of the UTF-8 encoding of a text. -/
def byteSize : List Char → Nat
  | [] => 0
  | c :: cs => c.utf8Size + byteSize cs

@[simp] theorem byteSize_nil : byteSize [] = 0 := rfl

@[simp] theorem byteSize_cons (c : Char) (cs : List Char) :
    byteSize (c :: cs) = c.utf8Size + byteSize cs := rfl

@[simp] theorem byteSize_append (as bs : List Char) :
    byteSize (as ++ bs) = byteSize as + byteSize bs := by
  induction as with
  | nil => simp
  | cons c as ih => simp [ih, Nat.add_assoc]

/-- The two parts of a text before and after a byte offset; `none` where the offset lies inside a
character or past the end. -/
def splitAtByte? : Nat → List Char → Option (List Char × List Char)
  | 0, cs => some ([], cs)
  | _ + 1, [] => none
  | n + 1, c :: cs =>
    if c.utf8Size ≤ n + 1 then
      (splitAtByte? (n + 1 - c.utf8Size) cs).map fun (before, after) => (c :: before, after)
    else
      none

/-- Cutting after a first part finds both parts. -/
theorem splitAtByte?_append (as bs : List Char) :
    splitAtByte? (byteSize as) (as ++ bs) = some (as, bs) := by
  induction as with
  | nil => simp [splitAtByte?]
  | cons c as ih =>
    -- every character has bytes, so the offset is not zero
    obtain ⟨k, hk⟩ : ∃ k, byteSize (c :: as) = k + 1 :=
      ⟨c.utf8Size - 1 + byteSize as, by
        have := Char.utf8Size_pos c
        simp only [byteSize_cons]; omega⟩
    have hle : c.utf8Size ≤ k + 1 := by simp only [byteSize_cons] at hk; omega
    have hsub : k + 1 - c.utf8Size = byteSize as := by simp only [byteSize_cons] at hk; omega
    rw [hk, List.cons_append, splitAtByte?, if_pos hle, hsub, ih]
    rfl

end RowConfig.Chars
