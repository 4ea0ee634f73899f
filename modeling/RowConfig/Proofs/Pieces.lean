import RowConfig.Proofs.Keys.Tokens

/-!
# Pieces between separators

`Scan.Cut` relates a text to its pieces as a reader meets them: each is free of separators at top
level, and one stands behind each but the last. Splitting computes this relation
(`Scan.cut_pieces`), and the first cut is where the search for a separator stops
(`Scan.Cut.cut?_eq`). Behind a comma at top level a reader is as good as new, so that every
argument, read by itself, is uncut and is balanced where the whole text is (`splitTop_exact`).
-/

namespace RowConfig

open Chars

namespace Scan

variable {s : Scan} {sep c : Char} {cs u v after piece : List Char} {more pieces : List (List Char)}
  {p : Option Char}

/-! ## Cutting a text -/

/-- A text that a reader enters in a state, and the pieces between the separators that it meets at
top level. -/
inductive Cut (sep : Char) : Scan → List Char → List (List Char) → Prop where
  | last {s : Scan} {u : List Char} (hu : s.Uncut sep u []) : Cut sep s u [u]
  | more {s : Scan} {u v : List Char} {pieces : List (List Char)} (hu : s.Uncut sep u (sep :: v))
      (hsep : (s.run u (sep :: v)).separates sep sep v)
      (hv : Cut sep ((s.run u (sep :: v)).next sep v) v pieces) :
      Cut sep s (u ++ sep :: v) (u :: pieces)

/-- A character that does not cut belongs to the first piece. -/
theorem Cut.cons (hc : s.separates sep c cs = false) (h : Cut sep (s.next c cs) cs pieces) :
    Cut sep s (c :: cs) (pieces.modifyHead (c :: ·)) := by
  generalize hnext : s.next c cs = t at h
  cases h with
  | last hu =>
      subst hnext
      refine .last ⟨?_, ?_⟩
      · rwa [List.append_nil]
      · rwa [List.append_nil]
  | @more _ u v pieces hu hsep hv =>
      subst hnext
      exact .more (u := c :: u) ⟨hc, hu⟩ hsep hv

theorem cut_pieces (sep : Char) (s : Scan) (cs : List Char) : Cut sep s cs (s.pieces sep cs) := by
  induction cs generalizing s with
  | nil => exact .last trivial
  | cons c cs ih =>
      rw [pieces]
      split
      · next hsep =>
        have hc : c = sep := beq_iff_eq.mp (Bool.and_eq_true_iff.mp hsep).2
        subst hc
        exact .more (u := []) trivial hsep (ih _)
      · next hsep => exact (ih _).cons (Bool.eq_false_iff.mpr hsep)

/-- A text is cut in one way only. -/
theorem Cut.pieces_eq (h : Cut sep s cs pieces) : s.pieces sep cs = pieces := by
  induction h with
  | last hu =>
      have hpieces := hu.pieces_append
      rw [List.append_nil] at hpieces
      rw [hpieces, Scan.pieces, List.modifyHead_cons, List.append_nil]
  | more hu hsep _ ih =>
      rw [hu.pieces_append, Scan.pieces, if_pos hsep, ih, List.modifyHead_cons, List.append_nil]

/-! ## The first separator -/

theorem cut?_eq_none_iff : s.cut? sep cs = none ↔ s.Uncut sep cs [] := by
  refine ⟨fun h => ?_, Uncut.cut?_eq_none⟩
  induction cs generalizing s with
  | nil => trivial
  | cons c cs ih =>
      rw [cut?] at h
      split at h
      · cases h
      · next hsep =>
        rw [Option.map_eq_none_iff] at h
        refine ⟨?_, ?_⟩
        · rw [List.append_nil]
          exact Bool.eq_false_iff.mpr hsep
        · rw [List.append_nil]
          exact ih h

/-- A text is uncut exactly if it is one piece, and the first of several pieces ends where the
search for a separator stops. -/
theorem Cut.cut?_eq (h : Cut sep s cs (piece :: more)) :
    (more = [] ∧ piece = cs ∧ s.cut? sep cs = none) ∨
      (more ≠ [] ∧ ∃ rest, cs = piece ++ sep :: rest ∧ s.cut? sep cs = some (piece, rest)) := by
  cases h with
  | last hu => exact .inl ⟨rfl, rfl, hu.cut?_eq_none⟩
  | @more _ _ v _ hu hsep hv =>
      refine .inr ⟨?_, v, rfl, ?_⟩
      · cases hv <;> exact List.cons_ne_nil _ _
      · rw [hu.cut?_append, cut?, if_pos hsep]
        simp

/-! ## Pieces by themselves -/

theorem uncut_of_bareAhead (hafter : bareAhead after) :
    s.Uncut sep u after ↔ s.Uncut sep u [] := by
  induction u generalizing s with
  | nil => exact Iff.rfl
  | cons c u ih =>
      simp only [Uncut, separates, isCode, next_append hafter, opens?_append hafter, ih,
        List.append_nil]

theorem uncut_top (hopen : mayOpenAfter p) :
    (top p).Uncut sep u after ↔ start.Uncut sep u after := by
  cases u with
  | nil => exact Iff.rfl
  | cons c u => rw [Uncut, Uncut, next_top hopen, separates_top hopen]

theorem balanced_top (hopen : mayOpenAfter p) : (top p).balanced u = start.balanced u := by
  cases u with
  | nil => rfl
  | cons c u =>
      rw [balanced, balanced, next_top hopen]
      rfl

/-- A text that leaves the reader at top level is balanced or not whatever follows it. -/
theorem balanced_append_iff (hv : bareAhead v) (htop : (s.run u []).atTop) :
    s.balanced (u ++ v) ↔ s.balanced u ∧ (s.run u []).balanced v := by
  induction u generalizing s with
  | nil => exact ⟨fun h => ⟨htop, h⟩, fun h => h.2⟩
  | cons c u ih =>
      rw [run, List.append_nil] at htop
      rw [List.cons_append, balanced, balanced, run, List.append_nil, next_append hv,
        Bool.and_eq_true,
        Bool.and_eq_true, ih htop, and_assoc]

/-- At a separator a reader is outside of all literals and brackets. -/
theorem eq_top_of_separates (h : s.separates sep c cs) : s = top s.previous := by
  simp only [separates, isCode, Bool.and_eq_true] at h
  exact eq_top_of_atTop h.1.1 h.1.2.1

/-- Between commas at top level, the pieces are uncut and balanced by themselves. -/
theorem Cut.alone (h : Cut ',' s cs pieces) (hs : s = top p) (hopen : mayOpenAfter p)
    (hpiece : piece ∈ pieces) :
    start.Uncut ',' piece [] ∧ (start.balanced cs → start.balanced piece) := by
  induction h generalizing p with
  | last hu =>
      subst hs
      rw [List.mem_singleton.mp hpiece]
      exact ⟨(uncut_top hopen).mp hu, id⟩
  | @more s u v pieces hu hsep _ ih =>
      subst hs
      have hcomma : bareAhead (',' :: v) := rfl
      have htop := eq_top_of_separates hsep
      rcases List.mem_cons.mp hpiece with rfl | hpiece
      · refine ⟨(uncut_top hopen).mp ((uncut_of_bareAhead hcomma).mp hu), fun hbalanced => ?_⟩
        rw [run_of_bareAhead hcomma] at htop
        rw [← balanced_top hopen] at hbalanced ⊢
        exact ((balanced_append_iff hcomma (by rw [htop]; rfl)).mp hbalanced).1
      · have hnext : ((top p).run u (',' :: v)).next ',' v = top (some ',') := by
          rw [htop, next_top_of_isPlain (by decide)]
        obtain ⟨huncut, hrest⟩ := ih hnext rfl hpiece
        refine ⟨huncut, fun hbalanced => hrest ?_⟩
        rw [run_of_bareAhead hcomma] at htop hnext
        rw [← balanced_top hopen, balanced_append_iff hcomma (by rw [htop]; rfl), balanced, hnext,
          balanced_top (p := some ',') rfl, Bool.and_eq_true] at hbalanced
        exact hbalanced.2.2

end Scan

/-! ## Pieces with commas between them -/

/-- A text that may stand between commas: every bracket in it is matched, every literal is closed,
and it has no comma at which it is cut. -/
structure IsPiece (u : List Char) : Prop where
  balanced : isBalanced u
  uncut : findTop? ',' u = none

instance (u : List Char) : Decidable (IsPiece u) :=
  decidable_of_iff (isBalanced u ∧ findTop? ',' u = none)
    ⟨fun ⟨h₁, h₂⟩ => ⟨h₁, h₂⟩, fun ⟨h₁, h₂⟩ => ⟨h₁, h₂⟩⟩

namespace IsPiece

variable {u after : List Char} {us : List (List Char)} {p : Option Char}

/-- A reader at top level is there again behind a piece. -/
theorem run_top (h : IsPiece u) (hopen : Scan.mayOpenAfter p) (hafter : Scan.bareAhead after) :
    ∃ q, (Scan.top p).run u after = Scan.top q := by
  rw [Scan.run_of_bareAhead hafter]
  cases u with
  | nil => exact ⟨p, rfl⟩
  | cons c u =>
      obtain ⟨q, hq⟩ := Scan.exists_run_eq_top h.balanced
      refine ⟨q, ?_⟩
      rw [← hq, Scan.run, Scan.run, Scan.next_top hopen]

/-- There is nothing to cut at in a piece. -/
theorem uncut_start (h : IsPiece u) : Scan.start.Uncut ',' u [] :=
  Scan.cut?_eq_none_iff.mp (Option.map_eq_none_iff.mp h.uncut)

theorem uncut_top (h : IsPiece u) (hopen : Scan.mayOpenAfter p) (hafter : Scan.bareAhead after) :
    (Scan.top p).Uncut ',' u after :=
  (Scan.uncut_of_bareAhead hafter).mpr ((Scan.uncut_top hopen).mpr h.uncut_start)

/-- A text is cut into the pieces of which it is made. -/
theorem cut_intercalate (h : ∀ v ∈ u :: us, IsPiece v) (hopen : Scan.mayOpenAfter p) :
    Scan.Cut ',' (Scan.top p) ([','].intercalate (u :: us)) (u :: us) := by
  induction us generalizing u p with
  | nil =>
      rw [List.intercalate_singleton]
      exact .last ((h u List.mem_cons_self).uncut_top hopen rfl)
  | cons v us ih =>
      obtain ⟨hu, hus⟩ := List.forall_mem_cons.mp h
      have hcomma : Scan.bareAhead (',' :: [','].intercalate (v :: us)) := rfl
      obtain ⟨q, hq⟩ := hu.run_top hopen hcomma
      rw [List.intercalate_cons_of_ne_nil (List.cons_ne_nil v us), List.append_assoc,
        List.singleton_append]
      refine .more (hu.uncut_top hopen hcomma) ?_ ?_
      · rw [hq]
        exact Scan.separates_of_atTop rfl rfl (by decide) _
      · rw [hq, Scan.next_top_of_isPlain (by decide)]
        exact ih hus rfl

/-- A blank may stand before a piece. -/
theorem cons_blank (h : IsPiece u) : IsPiece (' ' :: u) := by
  have hnext : Scan.start.next ' ' u = Scan.top (some ' ') :=
    Scan.next_top_of_isPlain (by decide) none u
  constructor
  · rw [isBalanced, Scan.balanced, hnext, Scan.balanced_top rfl]
    exact h.balanced
  · have huncut : Scan.start.Uncut ',' (' ' :: u) [] := by
      refine ⟨?_, ?_⟩
      · rw [Scan.separates, beq_false_of_ne (by decide), Bool.and_false]
      · rw [List.append_nil, hnext]
        exact h.uncut_top rfl rfl
    rw [findTop?, cutTop?, huncut.cut?_eq_none]
    rfl

theorem pieces_intercalate (h : ∀ v ∈ u :: us, IsPiece v) :
    Scan.start.pieces ',' ([','].intercalate (u :: us)) = u :: us :=
  (cut_intercalate (p := none) h rfl).pieces_eq

end IsPiece

/-! ## Offsets -/

/-- A piece stands behind those before it, each with its separator. -/
theorem offset_of_placePieces {sep : Char} {start offset : Nat} {pieces : List (List Char)}
    {front back : List (Nat × List Char)} {piece : List Char}
    (h : placePieces sep start pieces = front ++ (offset, piece) :: back) :
    offset = start + byteSize (front.flatMap fun p => p.2 ++ [sep]) := by
  induction front generalizing start pieces with
  | nil =>
      cases pieces with
      | nil => cases h
      | cons first pieces =>
          rw [placePieces, List.nil_append] at h
          cases h
          rfl
  | cons placed front ih =>
      cases pieces with
      | nil => cases h
      | cons first pieces =>
          rw [placePieces, List.cons_append] at h
          obtain ⟨rfl, hrest⟩ := List.cons.inj h
          rw [ih hrest, List.flatMap_cons]
          simp only [byteSize_append, byteSize_cons, byteSize_nil]
          omega

theorem intercalate_append_cons (sep : Char) (front : List (List Char)) (piece : List Char)
    (back : List (List Char)) : [sep].intercalate (front ++ piece :: back) =
      front.flatMap (· ++ [sep]) ++ [sep].intercalate (piece :: back) := by
  induction front with
  | nil => rfl
  | cons first front ih =>
      rw [List.cons_append, List.intercalate_cons_of_ne_nil (by simp), ih, List.flatMap_cons]
      simp only [List.append_assoc]

/-- A text is its pieces with the separator between any two, and the offset of each is where it
begins. There are several pieces exactly if a search finds a separator, and the first that it finds
ends the first piece. An argument by itself has no comma at top level, is split into nothing but
itself, and is balanced if the whole text is. -/
theorem splitTop_exact (sep : Char) (cs : List Char) :
    [sep].intercalate ((splitTop sep cs).map Prod.snd) = cs ∧
    (∀ front offset piece back, splitTop sep cs = front ++ (offset, piece) :: back →
      splitAtByte? offset cs = some (front.flatMap fun p => p.2 ++ [sep],
        [sep].intercalate (piece :: back.map Prod.snd))) ∧
    (2 ≤ (splitTop sep cs).length ↔ ∃ offset, findTop? sep cs = some offset) ∧
    (∀ offset, findTop? sep cs = some offset → ∃ first more rest,
      splitTop sep cs = (0, first) :: more ∧ cs = first ++ sep :: rest ∧ offset = byteSize first) ∧
    ∀ piece ∈ (splitTop ',' cs).map Prod.snd,
      findTop? ',' piece = none ∧ splitTop ',' piece = [(0, piece)] ∧
        (isBalanced cs → isBalanced piece) := by
  have hjoined : [sep].intercalate ((splitTop sep cs).map Prod.snd) = cs := by
    rw [map_snd_splitTop, Scan.intercalate_pieces]
  have hcut := Scan.cut_pieces sep Scan.start cs
  obtain ⟨first, more, hpieces⟩ :=
    List.exists_cons_of_ne_nil (Scan.pieces_ne_nil sep Scan.start cs)
  have hsplit : splitTop sep cs =
      (0, first) :: placePieces sep (0 + byteSize first + sep.utf8Size) more := by
    rw [splitTop, hpieces, placePieces]
  have hlength : (splitTop sep cs).length = more.length + 1 := by
    rw [← List.length_map Prod.snd, map_snd_splitTop, hpieces, List.length_cons]
  rw [hpieces] at hcut
  refine ⟨hjoined, ?_, ?_, ?_, ?_⟩
  · intro front offset piece back h
    have hoffset := offset_of_placePieces h
    rw [h, List.map_append, List.map_cons, intercalate_append_cons, List.flatMap_map] at hjoined
    conv => lhs; rw [← hjoined]
    rw [hoffset, Nat.zero_add, splitAtByte?_append]
  · rw [hlength, findTop?, cutTop?]
    rcases hcut.cut?_eq with ⟨rfl, -, hnone⟩ | ⟨hmore, rest, -, hsome⟩
    · simp [hnone]
    · have := List.length_pos_of_ne_nil hmore
      simp [hsome]
      omega
  · intro offset hoffset
    rw [findTop?, cutTop?] at hoffset
    rcases hcut.cut?_eq with ⟨-, -, hnone⟩ | ⟨-, rest, hcs, hsome⟩
    · rw [hnone] at hoffset
      cases hoffset
    · rw [hsome] at hoffset
      cases hoffset
      exact ⟨first, _, rest, hsplit, hcs, rfl⟩
  · intro piece hpiece
    rw [map_snd_splitTop] at hpiece
    obtain ⟨huncut, hbalanced⟩ :=
      (Scan.cut_pieces ',' Scan.start cs).alone (p := none) rfl rfl hpiece
    refine ⟨?_, ?_, hbalanced⟩
    · rw [findTop?, cutTop?, huncut.cut?_eq_none]
      rfl
    · rw [splitTop, (Scan.Cut.last huncut).pieces_eq, placePieces]
      rfl

/-- A list whose arguments hold commas, in literals with escapes and in nested brackets, behind
characters of several bytes. -/
def nestedList : List Char := "é, \"a\\\",b\", P('x,(', [1, 2]), ".toList

theorem splitTop_exact_nested :
    splitTop ',' nestedList = [(0, "é".toList), (3, " \"a\\\",b\"".toList),
        (12, " P('x,(', [1, 2])".toList), (30, " ".toList)] ∧
      isBalanced nestedList ∧
      splitTop ',' " P('x,(', [1, 2])".toList = [(0, " P('x,(', [1, 2])".toList)] ∧
      isBalanced " P('x,(', [1, 2])".toList := by
  have hsplit : splitTop ',' nestedList = [(0, "é".toList), (3, " \"a\\\",b\"".toList),
      (12, " P('x,(', [1, 2])".toList), (30, " ".toList)] := by decide +kernel
  have hbalanced : isBalanced nestedList := by decide +kernel
  obtain ⟨-, hagain, hpiece⟩ := (splitTop_exact ',' nestedList).2.2.2.2
    " P('x,(', [1, 2])".toList (by rw [hsplit]; simp)
  exact ⟨hsplit, hbalanced, hagain, hpiece hbalanced⟩

end RowConfig
