import RowConfig.Proofs.Places

/-!
# Where the text of a row comes from

Every byte of the text of a row is a byte of one of its lines, or the blank before a part
(`byteOrigins`). A location in the text is looked up in the last part that begins there or before
(`RowText.find?_placeParts`), and this is the part that the byte comes from. The location is
therefore the one that the line itself has for its byte, and the character there is the character of
the row's text (`Builder.locates_of_feed`).
-/

namespace RowConfig

open Chars

/-! ## Bytes of a text -/

namespace Chars

/-- The character that the byte at an offset belongs to, and the number of its bytes before that
one. -/
def byteAt? : Nat → List Char → Option (Char × Nat)
  | _, [] => none
  | offset, c :: cs =>
    if offset < c.utf8Size then some (c, offset) else byteAt? (offset - c.utf8Size) cs

variable {offset : Nat} {u v : List Char}

theorem byteAt?_append_left (h : offset < byteSize u) :
    byteAt? offset (u ++ v) = byteAt? offset u := by
  induction u generalizing offset with
  | nil => cases h
  | cons c u ih =>
      rw [byteSize_cons] at h
      rw [List.cons_append, byteAt?, byteAt?]
      split
      · rfl
      · apply ih
        omega

theorem byteAt?_append_right (offset : Nat) (u v : List Char) :
    byteAt? (byteSize u + offset) (u ++ v) = byteAt? offset v := by
  induction u with
  | nil => rw [byteSize_nil, Nat.zero_add, List.nil_append]
  | cons c u ih =>
      have hsub : c.utf8Size + byteSize u + offset - c.utf8Size = byteSize u + offset := by omega
      rw [byteSize_cons, List.cons_append, byteAt?, if_neg (by omega), hsub, ih]

/-- A text has a character at each of its bytes. -/
theorem exists_byteAt? (h : offset < byteSize u) : ∃ c k, byteAt? offset u = some (c, k) := by
  induction u generalizing offset with
  | nil => cases h
  | cons c u ih =>
      rw [byteSize_cons] at h
      rw [byteAt?]
      split
      · exact ⟨c, offset, rfl⟩
      · apply ih
        omega

/-- A text is cut before a character where the first byte of the character is. -/
theorem exists_append_of_byteAt? {c : Char} (h : byteAt? offset u = some (c, 0)) :
    ∃ before after, u = before ++ c :: after ∧ offset = byteSize before := by
  induction u generalizing offset with
  | nil => cases h
  | cons d u ih =>
      rw [byteAt?] at h
      split at h
      · cases h
        exact ⟨[], u, rfl, rfl⟩
      · obtain ⟨before, after, rfl, hoffset⟩ := ih h
        refine ⟨d :: before, after, rfl, ?_⟩
        rw [byteSize_cons]
        omega

end Chars

/-! ## The bytes of a row -/

/-- The part of a row that a line begins or goes on with. -/
def LogicalLine.part? (l : LogicalLine) : Option RowPart := l.rowPart?.or l.continuation?

/-- The bytes of a line that it adds to a row, by their offsets in the line. -/
def LogicalLine.partOrigins (l : LogicalLine) : List (Option (LogicalLine × Nat)) :=
  match l.part? with
  | some part =>
    (List.range (byteSize part.text)).map fun inside => some (l, part.offset + inside)
  | none => []

/-- For each byte of the row that lines make, the line it comes from and its offset there; none for
the blanks between the parts. -/
def byteOrigins (lines : List LogicalLine) : List (Option (LogicalLine × Nat)) :=
  [none].intercalate (lines.map LogicalLine.partOrigins)

/-- Parts with the offsets at which they begin when a blank stands between any two, the first of
them at `start`. -/
def placeParts (start : Nat) : List RowPart → List (Nat × RowPart)
  | [] => []
  | part :: parts => (start, part) :: placeParts (start + byteSize part.text + 1) parts

/-- Locations in the text of a row are those of the lines that it is made of. -/
structure RowText.Locates (lines : List LogicalLine) (r : RowText) : Prop where
  /-- An offset is looked up in the last part that begins there or before. -/
  lookup : ∀ offset length, ∃ start part,
    (placeParts 0 (r.head :: r.tail)).reverse.find? (·.1 ≤ offset) = some (start, part) ∧
      r.location offset length = part.line.location (part.offset + (offset - start)) length
  /-- Each byte of the text comes from a line or is a joining blank. -/
  size : (byteOrigins lines).length = byteSize r.text
  /-- The location of a byte is the one that its line has for it. -/
  location : ∀ {offset l inside}, (byteOrigins lines)[offset]? = some (some (l, inside)) →
    ∀ length, r.location offset length = l.location inside length
  /-- It is the same byte of the same character, in the row and in the line. -/
  character : ∀ {offset l inside}, (byteOrigins lines)[offset]? = some (some (l, inside)) →
    ∃ c k, byteAt? offset r.text = some (c, k) ∧ byteAt? inside l.text.toList = some (c, k)
  /-- At the first byte of a character, the column is that of the character in the line. -/
  column : ∀ {offset l inside c}, (byteOrigins lines)[offset]? = some (some (l, inside)) →
    byteAt? offset r.text = some (c, 0) → ∀ length,
      ∃ n, (r.location offset length).column = n + 1 ∧ l.text.toList[n]? = some c
  blank : ∀ {offset}, (byteOrigins lines)[offset]? = some none →
    byteAt? offset r.text = some (' ', 0)

/-! ## Looking up a byte -/

namespace RowText

/-- The byte at an offset of joined parts is looked up in this part, and is its byte at the offset
`inside`. -/
structure FoundIn (head : RowPart) (tail : List RowPart) (offset : Nat) (part : RowPart)
    (inside : Nat) : Prop where
  partAt_eq : partAt head offset tail = (part, inside)
  inside_lt : inside < byteSize part.text
  byteAt_eq : byteAt? offset (join head tail) = byteAt? inside part.text

variable {head part found : RowPart} {tail : List RowPart} {offset inside : Nat}

theorem le_of_mem_placeParts {start : Nat} {parts : List RowPart} {p : Nat × RowPart}
    (h : p ∈ placeParts start parts) : start ≤ p.1 := by
  induction parts generalizing start with
  | nil => cases h
  | cons part parts ih =>
      rcases List.mem_cons.mp h with rfl | h
      · exact Nat.le_refl _
      · have hle := ih h
        omega

/-- The part in which an offset is looked up is the last that begins there or before. -/
theorem find?_placeParts (start : Nat) (head : RowPart) (offset : Nat) (tail : List RowPart) :
    ((placeParts start (head :: tail)).reverse.find? (·.1 ≤ start + offset)).map
      (fun p => (p.2, start + offset - p.1)) = some (partAt head offset tail) := by
  induction tail generalizing start head offset with
  | nil => simp [placeParts, partAt]
  | cons part tail ih =>
      rw [placeParts, List.reverse_cons, List.find?_append, Option.map_or, partAt]
      split
      · -- all parts behind the first begin further on
        have hnone : (placeParts (start + byteSize head.text + 1) (part :: tail)).reverse.find?
            (·.1 ≤ start + offset) = none := by
          rw [List.find?_eq_none]
          intro p hp
          have hle := le_of_mem_placeParts (List.mem_reverse.mp hp)
          simp only [decide_eq_true_eq]
          omega
        simp [hnone]
      · have hstart : start + offset =
            start + byteSize head.text + 1 + (offset - (byteSize head.text + 1)) := by omega
        rw [hstart, ih, Option.some_or]

theorem foundIn_head (h : offset < byteSize head.text) : FoundIn head tail offset head offset := by
  refine ⟨?_, h, ?_⟩
  · cases tail with
    | nil => rfl
    | cons part tail => rw [partAt, if_pos (by omega)]
  · cases tail with
    | nil => rfl
    | cons part tail => rw [join, byteAt?_append_left h]

/-- What is found behind the first part is found as far behind it and its blank. -/
theorem FoundIn.cons (head : RowPart) (h : FoundIn part tail offset found inside) :
    FoundIn head (part :: tail) (byteSize head.text + (1 + offset)) found inside := by
  have hsub : byteSize head.text + (1 + offset) - (byteSize head.text + 1) = offset := by omega
  have hblank : byteSize [' '] = 1 := rfl
  refine ⟨?_, h.inside_lt, ?_⟩
  · rw [partAt, if_neg (by omega), hsub]
    exact h.partAt_eq
  · rw [join, byteAt?_append_right, ← List.singleton_append, ← hblank, byteAt?_append_right]
    exact h.byteAt_eq

end RowText

section Parts

variable {l m : LogicalLine} {lines : List LogicalLine} {part head : RowPart} {tail : List RowPart}
  {offset inside : Nat}

theorem LogicalLine.length_partOrigins (h : l.part? = some part) :
    l.partOrigins.length = byteSize part.text := by
  rw [partOrigins, h, List.length_map, List.length_range]

/-- A byte of a part is as far behind the beginning of the part as in the line. -/
theorem LogicalLine.getElem?_partOrigins (h : l.part? = some part)
    (hinside : inside < byteSize part.text) :
    l.partOrigins[inside]? = some (some (l, part.offset + inside)) := by
  rw [partOrigins, h, List.getElem?_map, List.getElem?_range hinside, Option.map_some]

/-- The lines make the parts of a row. -/
abbrev Makes (lines : List LogicalLine) (parts : List RowPart) : Prop :=
  List.Forall₂ (fun l part => l.part? = some part) lines parts

theorem byteOrigins_singleton (l : LogicalLine) : byteOrigins [l] = l.partOrigins := by
  simp [byteOrigins]

theorem byteOrigins_cons (l m : LogicalLine) (lines : List LogicalLine) :
    byteOrigins (l :: m :: lines) = l.partOrigins ++ none :: byteOrigins (m :: lines) := by
  unfold byteOrigins
  rw [List.map_cons, List.map_cons, List.intercalate_cons_of_ne_nil (List.cons_ne_nil _ _),
    List.append_assoc]
  rfl

theorem length_byteOrigins (h : Makes lines (head :: tail)) :
    (byteOrigins lines).length = byteSize (RowText.join head tail) := by
  induction tail generalizing lines head with
  | nil =>
      obtain ⟨l, _, hhead, hnil, rfl⟩ := List.forall₂_cons_right_iff.mp h
      cases hnil
      rw [byteOrigins_singleton, LogicalLine.length_partOrigins hhead]
      rfl
  | cons part tail ih =>
      obtain ⟨l, _, hhead, hrest, rfl⟩ := List.forall₂_cons_right_iff.mp h
      obtain ⟨m, more, -, -, rfl⟩ := List.forall₂_cons_right_iff.mp hrest
      have hblank : ' '.utf8Size = 1 := rfl
      rw [byteOrigins_cons, List.length_append, List.length_cons, ih hrest,
        LogicalLine.length_partOrigins hhead, RowText.join, byteSize_append, byteSize_cons, hblank,
        Nat.add_comm 1]

/-- What stands at an offset of the row: a byte of the first part, the blank behind it, or a byte
of what the lines behind it make. -/
theorem getElem?_byteOrigins_cases (hhead : l.part? = some head)
    {origin : Option (LogicalLine × Nat)}
    (h : (byteOrigins (l :: m :: lines))[offset]? = some origin) :
    (offset < byteSize head.text ∧ origin = some (l, head.offset + offset)) ∨
      (offset = byteSize head.text ∧ origin = none) ∨
      ∃ behind, offset = byteSize head.text + (1 + behind) ∧
        (byteOrigins (m :: lines))[behind]? = some origin := by
  have hlength := LogicalLine.length_partOrigins hhead
  rw [byteOrigins_cons] at h
  rcases Nat.lt_or_ge offset (byteSize head.text) with hlt | hle
  · rw [List.getElem?_append_left (by omega), LogicalLine.getElem?_partOrigins hhead hlt] at h
    exact .inl ⟨hlt, (Option.some.inj h).symm⟩
  · rw [List.getElem?_append_right (by omega), hlength] at h
    obtain ⟨behind, rfl⟩ := Nat.exists_eq_add_of_le hle
    rw [Nat.add_sub_cancel_left] at h
    cases behind with
    | zero => exact .inr (.inl ⟨rfl, (Option.some.inj h).symm⟩)
    | succ behind => exact .inr (.inr ⟨behind, by omega, h⟩)

/-- A byte that comes from a line is found in the part of this line. The induction is on the parts,
in the order in which the text is put together. -/
theorem foundIn_of_byteOrigins (h : Makes lines (head :: tail))
    (horigin : (byteOrigins lines)[offset]? = some (some (l, inside))) :
    ∃ part k, l.part? = some part ∧ inside = part.offset + k ∧
      RowText.FoundIn head tail offset part k := by
  induction tail generalizing lines head offset with
  | nil =>
      obtain ⟨m, _, hhead, hnil, rfl⟩ := List.forall₂_cons_right_iff.mp h
      cases hnil
      rw [byteOrigins_singleton] at horigin
      obtain ⟨hlt, -⟩ := List.getElem?_eq_some_iff.mp horigin
      rw [LogicalLine.length_partOrigins hhead] at hlt
      rw [LogicalLine.getElem?_partOrigins hhead hlt] at horigin
      cases horigin
      exact ⟨head, offset, hhead, rfl, RowText.foundIn_head hlt⟩
  | cons part tail ih =>
      obtain ⟨m, _, hhead, hrest, rfl⟩ := List.forall₂_cons_right_iff.mp h
      obtain ⟨n, more, -, -, rfl⟩ := List.forall₂_cons_right_iff.mp hrest
      rcases getElem?_byteOrigins_cases hhead horigin with ⟨hlt, heq⟩ | ⟨-, heq⟩ |
        ⟨behind, rfl, hbehind⟩
      · cases heq
        exact ⟨head, offset, hhead, rfl, RowText.foundIn_head hlt⟩
      · cases heq
      · obtain ⟨found, k, hfound, rfl, hin⟩ := ih hrest hbehind
        exact ⟨found, k, hfound, rfl, hin.cons head⟩

theorem byteAt?_of_blank (h : Makes lines (head :: tail))
    (hblank : (byteOrigins lines)[offset]? = some none) :
    byteAt? offset (RowText.join head tail) = some (' ', 0) := by
  induction tail generalizing lines head offset with
  | nil =>
      obtain ⟨m, _, hhead, hnil, rfl⟩ := List.forall₂_cons_right_iff.mp h
      cases hnil
      rw [byteOrigins_singleton] at hblank
      obtain ⟨hlt, -⟩ := List.getElem?_eq_some_iff.mp hblank
      rw [LogicalLine.length_partOrigins hhead] at hlt
      rw [LogicalLine.getElem?_partOrigins hhead hlt] at hblank
      cases hblank
  | cons part tail ih =>
      obtain ⟨m, _, hhead, hrest, rfl⟩ := List.forall₂_cons_right_iff.mp h
      obtain ⟨n, more, -, -, rfl⟩ := List.forall₂_cons_right_iff.mp hrest
      rw [RowText.join]
      rcases getElem?_byteOrigins_cases hhead hblank with ⟨-, heq⟩ | ⟨rfl, -⟩ |
        ⟨behind, rfl, hbehind⟩
      · cases heq
      · rw [← Nat.add_zero (byteSize head.text), byteAt?_append_right]
        rfl
      · have hone : byteSize [' '] = 1 := rfl
        rw [byteAt?_append_right, ← List.singleton_append, ← hone, byteAt?_append_right]
        exact ih hrest hbehind

/-- A part is the end of its line. -/
theorem ends_of_part? (h : l.part? = some part) : part.line = l ∧ part.Ends := by
  rcases Option.or_eq_some_iff.mp h with hrow | ⟨-, hcontinuation⟩
  · exact ends_of_rowPart? hrow
  · obtain ⟨hline, hends, -⟩ := ends_of_continuation? hcontinuation
    exact ⟨hline, hends⟩

/-- Locations in a row are those of the lines that make its parts. -/
theorem RowText.locates {r : RowText} (h : Makes lines (r.head :: r.tail)) : r.Locates lines := by
  -- the byte of the row is looked up as the byte of the line that it comes from
  have hfound : ∀ {offset l inside}, (byteOrigins lines)[offset]? = some (some (l, inside)) →
      (∀ length, r.location offset length = l.location inside length) ∧
      ∃ c k, byteAt? offset r.text = some (c, k) ∧ byteAt? inside l.text.toList = some (c, k) := by
    intro offset l inside horigin
    obtain ⟨part, k, hmakes, rfl, hin⟩ := foundIn_of_byteOrigins h horigin
    obtain ⟨rfl, front, hline, hoffset⟩ := ends_of_part? hmakes
    refine ⟨fun length => ?_, ?_⟩
    · rw [location, hin.partAt_eq]
    · obtain ⟨c, i, hc⟩ := exists_byteAt? hin.inside_lt
      refine ⟨c, i, hin.byteAt_eq.trans hc, ?_⟩
      rw [hline, hoffset, byteAt?_append_right, hc]
  constructor
  · intro offset length
    have hlookup := find?_placeParts 0 r.head offset r.tail
    rw [Nat.zero_add] at hlookup
    obtain ⟨⟨start, part⟩, hfind, hpart⟩ := Option.map_eq_some_iff.mp hlookup
    refine ⟨start, part, hfind, ?_⟩
    rw [location, ← hpart]
  · exact length_byteOrigins h
  · intro offset l inside horigin
    exact (hfound horigin).1
  · intro offset l inside horigin
    exact (hfound horigin).2
  · intro offset l inside c horigin hc length
    obtain ⟨hlocation, c', k, hrow, hline⟩ := hfound horigin
    rw [hc] at hrow
    cases hrow
    obtain ⟨before, after, htext, rfl⟩ := exists_append_of_byteAt? hline
    obtain ⟨span, hspan⟩ := l.exists_location htext length
    refine ⟨before.length, ?_, ?_⟩
    · rw [hlocation, hspan]
      rfl
    · rw [htext, List.getElem?_append_right (Nat.le_refl _), Nat.sub_self]
      rfl
  · intro offset hblank
    exact byteAt?_of_blank h hblank

end Parts

/-! ## Rows that are read -/

namespace Builder

variable {b b' : Builder} {l : LogicalLine} {more : List LogicalLine} {r : RowText}

/-- A row that waits takes in all continuations that follow. -/
theorem exists_run_of_continuations (hrow : b.row = some r)
    (hmore : ∀ m ∈ more, m.continuation?.isSome) :
    ∃ tail, List.Forall₂ (fun m part => m.continuation? = some part) more tail ∧
      b.run more = .ok { b with row := some { r with tail := r.tail ++ tail } } := by
  induction more generalizing b r with
  | nil =>
      refine ⟨[], .nil, ?_⟩
      rw [List.append_nil]
      show Except.ok b = Except.ok { b with row := some r }
      rw [← hrow]
  | cons m more ih =>
      obtain ⟨hm, hmore⟩ := List.forall_mem_cons.mp hmore
      obtain ⟨part, hpart⟩ := Option.isSome_iff_exists.mp hm
      obtain ⟨text, hkind, rfl⟩ := exists_continuation hpart
      have hfeed : b.feed m = .ok { b with row := some (r.extend ⟨text.text, m, text.offset⟩) } := by
        simp only [feed, hkind, continueRow, hrow]
      obtain ⟨tail, htail, hrun⟩ :=
        ih (b := { b with row := some (r.extend ⟨text.text, m, text.offset⟩) }) rfl hmore
      refine ⟨_ :: tail, .cons hpart htail, ?_⟩
      rw [run, hfeed]
      refine hrun.trans ?_
      simp [RowText.extend]

/-- A line begins a row and continuations go on with it. Whatever byte of the row's text comes from
one of these lines, its location in the row is the location that it has in its own line, and the
character there is the character of the row's text. -/
theorem locates_of_feed (hrow : l.rowPart?.isSome) (hmore : ∀ m ∈ more, m.continuation?.isSome)
    (h : b.feed l = .ok b') :
    ∃ r, b'.run more = .ok { b' with row := some r } ∧ r.Locates (l :: more) := by
  obtain ⟨head, hhead⟩ := Option.isSome_iff_exists.mp hrow
  obtain ⟨-, hcontinuation⟩ := of_rowPart? hhead
  rcases feed_cases h with ⟨part, -, hpart, -⟩ | ⟨head', struct, flushed, hhead', -, -, rfl⟩ |
    ⟨-, -, -, -, hnone, -⟩
  · rw [hcontinuation] at hpart
    cases hpart
  · rw [hhead] at hhead'
    cases hhead'
    obtain ⟨tail, htail, hrun⟩ := exists_run_of_continuations
      (b := { flushed with row := some ⟨struct, head, []⟩ }) rfl hmore
    refine ⟨_, hrun, RowText.locates ?_⟩
    refine .cons ?_ (htail.imp fun m part hpart => ?_)
    · rw [LogicalLine.part?, hhead, Option.some_or]
    · rw [LogicalLine.part?, (of_continuation? hpart).2, Option.none_or, hpart]
  · rw [hhead] at hnone
    cases hnone

/-- A row that goes on over a second line, with a character of two bytes on the first. -/
def brokenRow : LogicalLine := ⟨"  - é1,", ⟨"  - é1, # one", none, 2⟩⟩

def restOfRow : LogicalLine := ⟨"    x, y", ⟨"    x, y", none, 3⟩⟩

/-- The last byte of the row is found at the end of the second line. -/
theorem locates_of_feed_broken :
    brokenRow.rowPart?.isSome ∧ (∀ m ∈ [restOfRow], m.continuation?.isSome) ∧
      ∃ b' r, (Builder.mk .empty (some "P") none).feed brokenRow = .ok b' ∧
        b'.run [restOfRow] = .ok { b' with row := some r } ∧
        r.location 9 1 = ⟨none, 3, 8, 1, "    x, y"⟩ ∧
        byteAt? 9 r.text = byteAt? 7 restOfRow.text.toList := by
  have hrow : brokenRow.rowPart?.isSome := by rfl
  have hmore : ∀ m ∈ [restOfRow], m.continuation?.isSome := by
    intro m hm
    rw [List.mem_singleton.mp hm]
    rfl
  have hfeed : ∃ b', (Builder.mk .empty (some "P") none).feed brokenRow = .ok b' := ⟨_, rfl⟩
  obtain ⟨b', hb'⟩ := hfeed
  obtain ⟨r, hrun, hlocates⟩ := locates_of_feed hrow hmore hb'
  have horigin : (byteOrigins [brokenRow, restOfRow])[9]? = some (some (restOfRow, 7)) := by
    decide +kernel
  obtain ⟨c, k, hc, hline⟩ := hlocates.character horigin
  refine ⟨hrow, hmore, b', r, hb', hrun, (hlocates.location horigin 1).trans ?_, hc.trans hline.symm⟩
  decide +kernel

end Builder

end RowConfig
