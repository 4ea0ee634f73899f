import RowConfig.Proofs.Columns
import RowConfig.Proofs.Pieces

/-!
# Elements of arrays

An array is read as its elements are, each by itself (`Reader.read_array_exact`). Every element that
could stand alone keeps to itself in the list: a reader at top level is at top level again behind
it, without having met a comma to cut at, so that the list is cut between the elements and nowhere
else. A token that is read as an array is such a list, but for blanks and blank elements, and in it
the bracket at the start stays open up to the bracket at the end.
-/

namespace RowConfig

open Chars

variable {t piece token body : List Char} {ts pieces : List (List Char)} {p : Option Char}

/-- A text that may stand in a list as one element: trimmed, not empty, with every bracket matched
and every literal closed, and without a comma at which it is cut. -/
structure IsElement (t : List Char) : Prop where
  trimmed : trim t = t
  ne_nil : t ≠ []
  balanced : isBalanced t
  uncut : findTop? ',' t = none

instance (t : List Char) : Decidable (IsElement t) :=
  decidable_of_iff (trim t = t ∧ t ≠ [] ∧ isBalanced t ∧ findTop? ',' t = none)
    ⟨fun ⟨h₁, h₂, h₃, h₄⟩ => ⟨h₁, h₂, h₃, h₄⟩, fun ⟨h₁, h₂, h₃, h₄⟩ => ⟨h₁, h₂, h₃, h₄⟩⟩

/-- A list of elements. -/
def arrayText (ts : List (List Char)) : List Char := bracketed [] '[' ']' ([',', ' '].intercalate ts)

/-- The first bracket is closed by the last character and not before. -/
structure IsEnclosed (token : List Char) : Prop where
  within : ∀ u v, token = u ++ v → u ≠ [] → v ≠ [] → 0 < (Scan.start.run u v).brackets
  closes : (Scan.start.run token []).atTop

/-! ## Blanks about elements -/

namespace Scan

variable {s : Scan} {c : Char} {cs u v after : List Char}

/-- Plain text leaves literals and brackets as they are. -/
theorem atTop_next_of_isPlain (hc : isPlain c) : (s.next c cs).atTop = s.atTop := by
  have hquote : ∀ q : Quote, c ≠ q.char := by
    rintro q rfl
    have hplain := isQuote_of_isPlain hc
    rw [isQuote_char] at hplain
    cases hplain
  have hstep := s.step_next c cs
  generalize s.next c cs = t at hstep
  cases hstep with
  | within => rfl
  | opens q _ hopens => rw [opens?_eq_none (isQuote_of_isPlain hc)] at hopens; cases hopens
  | code => rw [code_of_isPlain hc]; rfl
  | escapes => rfl
  | closes q _ hcloses =>
      rw [q.delimiter_eq, List.cons_prefix_cons] at hcloses
      exact absurd hcloses.1.symm (hquote q)
  | inside => rfl

theorem atTop_run_of_isPlain (hu : ∀ c ∈ u, isPlain c) : (s.run u after).atTop = s.atTop := by
  induction u generalizing s with
  | nil => rfl
  | cons c u ih =>
      rw [run, ih fun d hd => hu d (List.mem_cons_of_mem c hd),
        atTop_next_of_isPlain (hu c List.mem_cons_self)]

theorem bareAhead_of_blanks (hu : ∀ c ∈ u, isBlank c) : bareAhead u := by
  cases u with
  | nil => rfl
  | cons c u =>
      have hc := isQuote_of_isPlain (isPlain_of_isBlank (hu c List.mem_cons_self))
      simp [bareAhead, hc]

theorem mayOpenAfter_of_blanks (hu : ∀ c ∈ u, isBlank c) (hopen : mayOpenAfter p) :
    mayOpenAfter (u.getLast?.or p) := by
  cases hlast : u.getLast? with
  | none => exact hopen
  | some c => simp [mayOpenAfter, hu c (List.mem_of_getLast? hlast)]

/-- A text without the blanks about it is uncut, and balanced, if it is so with them. -/
theorem uncut_and_balanced_of_trims (h : Trims cs u v) :
    (start.Uncut ',' cs [] → start.Uncut ',' v []) ∧ (start.balanced cs → start.balanced v) := by
  cases h with
  | blank => exact ⟨fun _ => trivial, fun _ => rfl⟩
  | @solid _ _ w hu _ hw =>
      have hplain : ∀ c ∈ u, isPlain c := fun c hc => isPlain_of_isBlank (hu c hc)
      have hopen : mayOpenAfter (u.getLast?.or none) := mayOpenAfter_of_blanks hu rfl
      have hbare : bareAhead w := bareAhead_of_blanks hw
      have hrun : ∀ after, start.run u after = top (u.getLast?.or none) := fun after =>
        run_top (p := none) hplain
      constructor
      · intro huncut
        have hrest := (uncut_append.mp huncut).2
        rw [hrun] at hrest
        have hv := (uncut_append.mp hrest).1
        rw [List.append_nil] at hv
        exact (uncut_top hopen).mp ((uncut_of_bareAhead hbare).mp hv)
      · intro hbalanced
        have hcode : start.CodeAll (fun c => isClosing c = false) u (v ++ w) :=
          codeAll_of_forall fun c hc => isClosing_of_isPlain (hplain c hc)
        rw [balanced_append hcode, hrun] at hbalanced
        have htop : ((top (u.getLast?.or none)).run v []).atTop := by
          have hend := atTop_of_balanced hbalanced
          rw [run_append, atTop_run_of_isPlain fun c hc => isPlain_of_isBlank (hw c hc),
            List.append_nil, run_of_bareAhead hbare] at hend
          exact hend
        rw [balanced_append_iff hbare htop, balanced_top hopen] at hbalanced
        exact hbalanced.1

end Scan

/-! ## Elements by themselves -/

theorem solid_trim {cs : List Char} (h : trim cs ≠ []) : Solid (trim cs) := by
  have htrims := trims_trim cs
  generalize indent cs = u, trim cs = v at htrims h
  cases htrims with
  | blank => exact absurd rfl h
  | solid _ hv => exact hv

theorem isElement_trim (huncut : Scan.start.Uncut ',' piece []) (hbalanced : isBalanced piece)
    (hne : trim piece ≠ []) : IsElement (trim piece) := by
  have halone := Scan.uncut_and_balanced_of_trims (trims_trim piece)
  refine ⟨(solid_trim hne).trim_eq, hne, halone.2 hbalanced, ?_⟩
  rw [findTop?, cutTop?, (halone.1 huncut).cut?_eq_none]
  rfl

namespace IsElement

theorem solid (h : IsElement t) : Solid t := by
  have hsolid : Solid (trim t) := solid_trim (by rw [h.trimmed]; exact h.ne_nil)
  rwa [h.trimmed] at hsolid

theorem isPiece (h : IsElement t) : IsPiece t := ⟨h.balanced, h.uncut⟩

end IsElement

/-! ## Lists of elements -/

theorem intercalate_cons_cons (t u : List Char) (ts : List (List Char)) :
    [',', ' '].intercalate (t :: u :: ts) = t ++ ',' :: ' ' :: [',', ' '].intercalate (u :: ts) := by
  rw [List.intercalate_cons_of_ne_nil (List.cons_ne_nil u ts), List.append_assoc]
  rfl

/-- The blank behind a comma belongs to the element that follows. -/
theorem intercalate_eq (t : List Char) (ts : List (List Char)) :
    [',', ' '].intercalate (t :: ts) = [','].intercalate (t :: ts.map (' ' :: ·)) := by
  induction ts generalizing t with
  | nil => rfl
  | cons u ts ih =>
      have hmore : [','].intercalate ((' ' :: u) :: ts.map (' ' :: ·)) =
          ' ' :: [','].intercalate (u :: ts.map (' ' :: ·)) := by
        cases ts <;> rfl
      rw [intercalate_cons_cons, ih, List.map_cons,
        List.intercalate_cons_of_ne_nil (List.cons_ne_nil _ _), hmore, List.append_assoc]
      rfl

/-- A list is cut between its elements and nowhere else. -/
theorem pieces_list (h : ∀ u ∈ t :: ts, IsElement u) :
    Scan.start.pieces ',' ([',', ' '].intercalate (t :: ts)) = t :: ts.map (' ' :: ·) := by
  obtain ⟨ht, hts⟩ := List.forall_mem_cons.mp h
  rw [intercalate_eq]
  refine IsPiece.pieces_intercalate (List.forall_mem_cons.mpr ⟨ht.isPiece, ?_⟩)
  rw [List.forall_mem_map]
  exact fun u hu => (hts u hu).isPiece.cons_blank

theorem balanced_intercalate (h : ∀ t ∈ ts, IsElement t) (hopen : Scan.mayOpenAfter p) :
    (Scan.top p).balanced ([',', ' '].intercalate ts) := by
  induction ts generalizing p with
  | nil => rfl
  | cons t ts ih =>
      obtain ⟨ht, hts⟩ := List.forall_mem_cons.mp h
      have halone : (Scan.top p).balanced t := by
        rw [Scan.balanced_top hopen]
        exact ht.balanced
      cases ts with
      | nil => rwa [List.intercalate_singleton]
      | cons u ts =>
          rw [intercalate_cons_cons]
          have hend : Scan.bareAhead [] := rfl
          obtain ⟨q, hq⟩ := ht.isPiece.run_top hopen hend
          have htop : ((Scan.top p).run t []).atTop := by rw [hq]; rfl
          rw [Scan.balanced_append_iff rfl htop, hq, Scan.balanced,
            Scan.next_top_of_isPlain (by decide), Scan.balanced, Scan.next_top_of_isPlain (by decide),
            ih hts rfl]
          exact ⟨halone, rfl⟩

theorem isBalanced_intercalate (h : ∀ t ∈ ts, IsElement t) :
    isBalanced ([',', ' '].intercalate ts) := balanced_intercalate (p := none) h rfl

/-- In a list in brackets the last character closes the first one. -/
theorem isEnclosed_list (hbody : isBalanced body) : IsEnclosed (bracketed [] '[' ']' body) := by
  constructor
  · intro u v heq hu hv
    obtain ⟨v, c, rfl⟩ := (List.eq_nil_or_concat' v).resolve_left hv
    cases u with
    | nil => exact absurd rfl hu
    | cons d u =>
        obtain ⟨rfl, hrest⟩ := List.cons.inj heq
        have hinside : body ++ [']'] = (u ++ v) ++ [c] := hrest.trans (List.append_assoc u v [c]).symm
        obtain ⟨rfl, hlast⟩ := List.append_inj' hinside rfl
        cases hlast
        have hopened : Scan.Deeper 0 1 Scan.start (Scan.start.code '[') := ⟨rfl, rfl, rfl, rfl, rfl⟩
        have hdeeper : Scan.Deeper 0 1 (Scan.start.run u v)
          ((Scan.start.code '[').run u (v ++ [']'])) :=
          hopened.run hbody rfl
        rw [Scan.run, Scan.next_of_atCode rfl (by decide), hdeeper.brackets]
        exact Nat.succ_pos _
  · obtain ⟨⟨q, hq⟩, -⟩ := (whole_list hbody).reads none [] rfl rfl
    rw [show Scan.start.run _ [] = _ from hq]
    rfl

/-! ## Reading lists -/

/-- The columns of texts that stand behind each other with a comma and a blank between any two, the
first at `column`. -/
def columns : Nat → List (List Char) → List Nat
  | _, [] => []
  | column, t :: ts => column :: columns (column + t.length + 2) ts

namespace Reader

variable {r : Reader} {type : ScalarType} {vs : List Value} {column : Nat}

/-- A part of a token is read like a token by itself, but that it stands further right. -/
theorem readElement_eq (r : Reader) (type : ScalarType) (ht : Solid t) (n : Nat) :
    r.readElement ⟨t, n⟩ type = movedResult n (Value.moved n) (r.read t ⟨type, false⟩) := by
  have hread : r.read t ⟨type, false⟩ = r.readElement ⟨t, 0⟩ type := by
    unfold Reader.read readElement
    simp only [Span.trimmed, ht.trim_eq, ht.indent_eq, List.length_nil, Bool.false_eq_true, if_false]
  rw [hread, ← readElement_moved, Span.moved, Nat.zero_add]

/-- Reading the elements of a list one after another, each by itself. -/
def readListed (r : Reader) (type : ScalarType) : Nat → List (List Char) → Except Fault (List Value)
  | _, [] => .ok []
  | column, t :: ts =>
    match r.read t ⟨type, false⟩ with
    | .error e => .error (e.moved column)
    | .ok v => (r.readListed type (column + t.length + 2) ts).map (v.moved column :: ·)

theorem readElements_cons {s : Span} {spans : List Span} {n : Nat} (hs : s.trimmed = ⟨t, n⟩)
    (ht : Solid t) : r.readElements type (s :: spans) =
      match r.read t ⟨type, false⟩ with
      | .error e => .error (e.moved n)
      | .ok v => (r.readElements type spans).map (v.moved n :: ·) := by
  rw [readElements, hs, ht.isEmpty_eq, if_neg Bool.false_ne_true, readElement_eq r type ht]
  cases r.read t ⟨type, false⟩ <;> rfl

theorem readElements_place (h : ∀ t ∈ ts, IsElement t) (column : Nat) :
    r.readElements type (Span.place column (ts.map (' ' :: ·))) =
      r.readListed type (column + 1) ts := by
  induction ts generalizing column with
  | nil => rfl
  | cons t ts ih =>
      obtain ⟨ht, hts⟩ := List.forall_mem_cons.mp h
      have htrimmed : Span.trimmed ⟨' ' :: t, column⟩ = ⟨t, column + 1⟩ := by
        have hindent : indent (' ' :: t) = [' '] := by
          rw [indent, List.takeWhile_cons, if_pos (by decide)]
          exact congrArg (' ' :: ·) ht.solid.indent_eq
        rw [Span.trimmed, ht.solid.trim_cons, hindent]
        rfl
      rw [List.map_cons, Span.place, readElements_cons htrimmed ht.solid, readListed, ih hts,
        List.length_cons, show column + (t.length + 1) + 1 + 1 = column + 1 + t.length + 2 by omega]

/-- A list of elements is read as its elements are. -/
theorem read_arrayText (h : ∀ t ∈ ts, IsElement t) :
    r.read (arrayText ts) ⟨type, true⟩ = (r.readListed type 1 ts).map .array := by
  rw [arrayText, r.read_list (isBalanced_intercalate h)]
  cases ts with
  | nil => rfl
  | cons t ts =>
      obtain ⟨ht, hts⟩ := List.forall_mem_cons.mp h
      have hpieces : Scan.start.pieces ',' ([',', ' '].intercalate (t :: ts)) =
          t :: ts.map (' ' :: ·) := pieces_list h
      have htrimmed : Span.trimmed ⟨t, 1⟩ = ⟨t, 1⟩ := by
        rw [Span.trimmed, ht.trimmed, ht.solid.indent_eq]
        rfl
      have hplace : r.readElements type (Span.place (1 + t.length + 1) (ts.map (' ' :: ·))) =
          r.readListed type (1 + t.length + 1 + 1) ts := readElements_place hts _
      rw [Span.arguments, hpieces, Span.place, readElements_cons htrimmed ht.solid, hplace,
        readListed]

theorem readListed_of_forall₂ (h : List.Forall₂ (fun t v => r.read t ⟨type, false⟩ = .ok v) ts vs)
    (column : Nat) : r.readListed type column ts =
      .ok (List.zipWith Value.moved (columns column ts) vs) := by
  induction h generalizing column with
  | nil => rfl
  | cons hv _ ih =>
      rw [readListed, hv]
      simp only [ih]
      rfl

/-- Reading stops at the first element that cannot be read. -/
theorem readListed_of_error {front back : List (List Char)} {e : Fault}
    (hfront : ∀ u ∈ front, ∃ v, r.read u ⟨type, false⟩ = .ok v)
    (ht : r.read t ⟨type, false⟩ = .error e) (column : Nat) :
    r.readListed type column (front ++ t :: back) =
      .error (e.moved (column + (front.map fun u => u.length + 2).sum)) := by
  induction front generalizing column with
  | nil =>
      rw [List.nil_append, readListed, ht]
      rfl
  | cons u front ih =>
      obtain ⟨⟨v, hv⟩, hfront⟩ := List.forall_mem_cons.mp hfront
      rw [List.cons_append, readListed, hv]
      simp only [ih hfront, List.map_cons, List.sum_cons]
      rw [show column + u.length + 2 + (front.map fun u => u.length + 2).sum =
        column + (u.length + 2 + (front.map fun u => u.length + 2).sum) by omega]
      rfl

/-- Every text of a list is read, or there is a first one that is not. -/
theorem forall₂_or_first_error (r : Reader) (type : ScalarType) (ts : List (List Char)) :
    ((∀ t ∈ ts, ∃ v, r.read t ⟨type, false⟩ = .ok v) ∧
        ∃ vs, List.Forall₂ (fun t v => r.read t ⟨type, false⟩ = .ok v) ts vs) ∨
      ∃ front t back e, ts = front ++ t :: back ∧
        (∀ u ∈ front, ∃ v, r.read u ⟨type, false⟩ = .ok v) ∧ r.read t ⟨type, false⟩ = .error e := by
  induction ts with
  | nil => exact .inl ⟨nofun, [], .nil⟩
  | cons t ts ih =>
      cases ht : r.read t ⟨type, false⟩ with
      | error e => exact .inr ⟨[], t, ts, e, rfl, nofun, ht⟩
      | ok v =>
          rcases ih with ⟨hall, vs, hvs⟩ | ⟨front, u, back, e, rfl, hfront, hu⟩
          · exact .inl ⟨List.forall_mem_cons.mpr ⟨⟨v, ht⟩, hall⟩, v :: vs, .cons ht hvs⟩
          · exact .inr ⟨t :: front, u, back, e, rfl, List.forall_mem_cons.mpr ⟨⟨v, ht⟩, hfront⟩, hu⟩

/-- Pieces that are read as elements are read by themselves too, blank ones left out. -/
theorem forall₂_of_readElements
    (h : r.readElements type (Span.place column pieces) = .ok vs) :
    List.Forall₂ (fun t v => ∃ w n, r.read t ⟨type, false⟩ = .ok w ∧ v = w.moved n)
      ((pieces.map trim).filter fun t => !t.isEmpty) vs := by
  induction pieces generalizing column vs with
  | nil =>
      cases h
      exact .nil
  | cons piece pieces ih =>
      rw [Span.place] at h
      cases hblank : (trim piece).isEmpty with
      | true =>
          rw [readElements, show (Span.trimmed ⟨piece, column⟩).text = trim piece from rfl, hblank,
            if_pos rfl] at h
          rw [List.map_cons, List.filter_cons_of_neg (by simp [hblank])]
          exact ih h
      | false =>
          have hsolid : Solid (trim piece) := solid_trim (by simpa using hblank)
          rw [readElements_cons (s := ⟨piece, column⟩) rfl hsolid] at h
          rw [List.map_cons, List.filter_cons_of_pos (by simp [hblank])]
          cases hread : r.read (trim piece) ⟨type, false⟩ with
          | error e =>
              rw [hread] at h
              cases h
          | ok v =>
              rw [hread] at h
              obtain ⟨more, hmore, rfl⟩ := map_eq_ok_iff.mp h
              exact .cons ⟨v, _, hread, rfl⟩ (ih hmore)

/-- What is read as an array is null or a list in matched brackets. -/
theorem cases_of_read_array {v : Value} (h : r.read token ⟨type, true⟩ = .ok v) :
    (v = .null ∧ (trim token).map Char.toLower = "null".toList) ∨
      ∃ body vs, v = .array vs ∧ trim token = bracketed [] '[' ']' body ∧ isBalanced body ∧
        ∃ column, r.readElements type (Span.place column (Scan.start.pieces ',' body)) = .ok vs := by
  unfold Reader.read at h
  simp only [Span.trimmed, if_true] at h
  split at h
  · next hnull =>
    cases h
    have hword := congrArg String.toList (beq_iff_eq.mp hnull)
    rw [String.toList_ofList] at hword
    exact .inl ⟨rfl, hword⟩
  · unfold readArray at h
    split at h
    · cases h
    · next inner hinner =>
      obtain ⟨body, htext, hbody, rfl⟩ := Span.inside?_eq_some_iff.mp hinner
      obtain ⟨vs, hvs, rfl⟩ := map_eq_ok_iff.mp h
      exact .inr ⟨body, vs, rfl, htext, hbody, _, hvs⟩

/-- A list of elements is read exactly if each of them is, to the values that they have by
themselves. Otherwise the fault is that of the first one that cannot be read. In both cases
everything stands as many columns further right as the element does. And only null and such lists
are read as arrays: what stands between the commas of a list is blank or, trimmed, an element that
can be read. -/
theorem read_array_exact (r : Reader) (type : ScalarType) :
    (∀ ts : List (List Char), (∀ t ∈ ts, IsElement t) →
      ((∃ v, r.read (arrayText ts) ⟨type, true⟩ = .ok v) ↔
        ∀ t ∈ ts, ∃ v, r.read t ⟨type, false⟩ = .ok v) ∧
      (∀ vs, List.Forall₂ (fun t v => r.read t ⟨type, false⟩ = .ok v) ts vs →
        r.read (arrayText ts) ⟨type, true⟩ =
          .ok (.array (List.zipWith Value.moved (columns 1 ts) vs))) ∧
      (∀ front t back e, ts = front ++ t :: back →
        (∀ u ∈ front, ∃ v, r.read u ⟨type, false⟩ = .ok v) → r.read t ⟨type, false⟩ = .error e →
        r.read (arrayText ts) ⟨type, true⟩ =
          .error (e.moved (1 + (front.map fun u => u.length + 2).sum)))) ∧
    (∀ token v, r.read token ⟨type, true⟩ = .ok v →
      (v = .null ∧ (trim token).map Char.toLower = "null".toList) ∨
      ∃ pieces vs, v = .array vs ∧
        trim token = bracketed [] '[' ']' ([','].intercalate pieces) ∧
        (∀ piece ∈ pieces, trim piece = [] ∨ IsElement (trim piece)) ∧
        List.Forall₂ (fun t v => ∃ w n, r.read t ⟨type, false⟩ = .ok w ∧ v = w.moved n)
          ((pieces.map trim).filter fun t => !t.isEmpty) vs ∧
        IsEnclosed (trim token)) := by
  constructor
  · intro ts hts
    have hread : ∀ vs, List.Forall₂ (fun t v => r.read t ⟨type, false⟩ = .ok v) ts vs →
        r.read (arrayText ts) ⟨type, true⟩ =
          .ok (.array (List.zipWith Value.moved (columns 1 ts) vs)) := by
      intro vs hvs
      rw [read_arrayText hts, readListed_of_forall₂ hvs]
      rfl
    have hfail : ∀ front t back e, ts = front ++ t :: back →
        (∀ u ∈ front, ∃ v, r.read u ⟨type, false⟩ = .ok v) → r.read t ⟨type, false⟩ = .error e →
        r.read (arrayText ts) ⟨type, true⟩ =
          .error (e.moved (1 + (front.map fun u => u.length + 2).sum)) := by
      rintro front t back e rfl hfront ht
      rw [read_arrayText hts, readListed_of_error hfront ht]
      rfl
    refine ⟨?_, hread, hfail⟩
    rcases forall₂_or_first_error r type ts with
      ⟨hall, vs, hvs⟩ | ⟨front, t, back, e, heq, hfront, ht⟩
    · exact iff_of_true ⟨_, hread vs hvs⟩ hall
    · refine iff_of_false ?_ fun hall => ?_
      · rintro ⟨v, hv⟩
        rw [hfail front t back e heq hfront ht] at hv
        cases hv
      · obtain ⟨v, hv⟩ := hall t (by rw [heq]; simp)
        rw [ht] at hv
        cases hv
  · intro token v h
    refine (cases_of_read_array h).imp_right ?_
    rintro ⟨body, vs, rfl, htoken, hbody, column, hvs⟩
    refine ⟨Scan.start.pieces ',' body, vs, rfl, ?_, fun piece hpiece => ?_,
      forall₂_of_readElements hvs, ?_⟩
    · rw [Scan.intercalate_pieces, htoken]
    · obtain ⟨huncut, hbalanced⟩ :=
        (Scan.cut_pieces ',' Scan.start body).alone (p := none) rfl rfl hpiece
      exact or_iff_not_imp_left.mpr (isElement_trim huncut (hbalanced hbody))
    · rw [htoken]
      exact isEnclosed_list hbody

/-- A reader without structs, of a token that begins in column 3. -/
def indentedReader : Reader := ⟨[], ⟨none, 1, 3, 1, "- [..]"⟩⟩

/-- Texts with brackets and commas in them. -/
def mixedTexts : List (List Char) := ["7".toList, "'a, ]'".toList, "(b, [c]):d".toList]

theorem read_array_exact_mixed :
    (∀ t ∈ mixedTexts, IsElement t) ∧
      indentedReader.read (arrayText mixedTexts) ⟨.str, true⟩ =
        .ok (.array [.text (.plain "7"), .text (.plain "a, ]"), .text (.plain "(b, [c]):d")]) ∧
      indentedReader.read (arrayText mixedTexts) ⟨.int, true⟩ =
        .error (.typeMismatch ⟨none, 1, 7, 6, "- [..]"⟩ .int "'a, ]'") := by
  have hall : ∀ t ∈ mixedTexts, IsElement t := by decide
  have htexts : List.Forall₂ (fun t v => indentedReader.read t ⟨.str, false⟩ = .ok v) mixedTexts
      [.text (.plain "7"), .text (.plain "a, ]"), .text (.plain "(b, [c]):d")] :=
    .cons rfl (.cons rfl (.cons rfl .nil))
  have hseven : ∀ t ∈ ["7".toList], ∃ v, indentedReader.read t ⟨.int, false⟩ = .ok v :=
    List.forall_mem_singleton.mpr ⟨.int 7, by cbv⟩
  exact ⟨hall, ((read_array_exact _ .str).1 mixedTexts hall).2.1 _ htexts,
    ((read_array_exact _ .int).1 mixedTexts hall).2.2 ["7".toList] _ _ _ rfl hseven rfl⟩

end Reader

end RowConfig
