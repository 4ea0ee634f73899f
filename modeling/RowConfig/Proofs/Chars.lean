import Mathlib
import RowConfig.Chars.Affix
import RowConfig.Chars.Blank
import RowConfig.Chars.Identifier
import RowConfig.Chars.Line

/-!
# Trimming, names and lines

What trimming leaves of a text that begins and ends with something else than a blank, where a name
at the start of a text ends, and how lines that hold no line break are cut apart again.
-/

namespace RowConfig.Chars

variable {c : Char} {cs u v : List Char}

/-! ## Trimming -/

/-- The text begins and ends with characters that are not blank. -/
structure Solid (cs : List Char) : Prop where
  head : ∃ c rest, cs = c :: rest ∧ isBlank c = false
  last : ∃ front c, cs = front ++ [c] ∧ isBlank c = false

theorem Solid.ne_nil (h : Solid cs) : cs ≠ [] := by
  obtain ⟨c, rest, rfl, -⟩ := h.head
  exact List.cons_ne_nil c rest

theorem Solid.isEmpty_eq (h : Solid cs) : cs.isEmpty = false :=
  List.isEmpty_eq_false_iff.mpr h.ne_nil

/-- Only what follows a character that is not blank is trimmed. -/
theorem trimEnd_append_cons (hc : isBlank c = false) (u v : List Char) :
    trimEnd (u ++ c :: v) = u ++ c :: trimEnd v := by
  induction u with
  | nil =>
      rw [List.nil_append, List.nil_append, trimEnd]
      cases trimEnd v with
      | nil => simp [hc]
      | cons d ds => rfl
  | cons d u ih =>
      rw [List.cons_append, trimEnd, ih]
      cases u <;> rfl

theorem trimEnd_append_singleton (hc : isBlank c = false) : trimEnd (cs ++ [c]) = cs ++ [c] :=
  trimEnd_append_cons hc cs []

theorem Solid.trimEnd_append (h : Solid cs) (u : List Char) : trimEnd (u ++ cs) = u ++ cs := by
  obtain ⟨front, c, rfl, hc⟩ := h.last
  rw [← List.append_assoc, trimEnd_append_singleton hc]

theorem trimStart_append (hu : ∀ c ∈ u, isBlank c = true) : trimStart (u ++ v) = trimStart v :=
  List.dropWhile_append_of_pos hu

theorem trimStart_cons (hc : isBlank c = false) : trimStart (c :: cs) = c :: cs := by
  rw [trimStart, List.dropWhile_cons, if_neg (by rw [hc]; decide)]

theorem Solid.trimStart_append (h : Solid cs) (hu : ∀ c ∈ u, isBlank c = true) :
    trimStart (u ++ cs) = cs := by
  obtain ⟨c, rest, rfl, hc⟩ := h.head
  rw [Chars.trimStart_append hu, trimStart_cons hc]

/-- Blanks before a solid text are trimmed and nothing else is. -/
theorem Solid.trim_append (h : Solid cs) (hu : ∀ c ∈ u, isBlank c = true) : trim (u ++ cs) = cs := by
  rw [trim, h.trimStart_append hu]
  exact h.trimEnd_append []

theorem isBlank_of_mem_replicate {n : Nat} : ∀ c ∈ List.replicate n ' ', isBlank c = true := by
  intro c hc
  rw [List.eq_of_mem_replicate hc]
  decide

theorem Solid.trim_cons (h : Solid cs) : trim (' ' :: cs) = cs :=
  h.trim_append (isBlank_of_mem_replicate (n := 1))

theorem Solid.trim_eq (h : Solid cs) : trim cs = cs :=
  h.trim_append (u := []) fun c hc => by cases hc

theorem Solid.indent_eq (h : Solid cs) : indent cs = [] := by
  obtain ⟨c, rest, rfl, hc⟩ := h.head
  rw [indent, List.takeWhile_cons, hc]
  rfl

theorem trimEnd_eq_nil (hu : ∀ c ∈ u, isBlank c = true) : trimEnd u = [] := by
  induction u with
  | nil => rfl
  | cons c u ih =>
      rw [trimEnd, ih fun d hd => hu d (List.mem_cons_of_mem _ hd)]
      simp [hu c List.mem_cons_self]

/-- Blanks about a solid text are trimmed and nothing else is. -/
theorem Solid.trim_between (h : Solid cs) (hu : ∀ c ∈ u, isBlank c = true)
    (hv : ∀ c ∈ v, isBlank c = true) : trim (u ++ (cs ++ v)) = cs := by
  obtain ⟨front, c, hlast, hc⟩ := h.last
  obtain ⟨d, rest, hhead, hd⟩ := h.head
  have hstart : trimStart (u ++ (cs ++ v)) = cs ++ v := by
    rw [Chars.trimStart_append hu, hhead, List.cons_append, trimStart_cons hd]
  rw [trim, hstart, hlast, List.append_assoc, List.singleton_append, trimEnd_append_cons hc,
    trimEnd_eq_nil hv]

/-- What is left of a text without its leading blanks begins with something else. -/
theorem head_trimStart (cs : List Char) : ∀ c ∈ (trimStart cs).head?, isBlank c = false := by
  intro c hc
  have h := List.head?_dropWhile_not isBlank cs
  rw [show (cs.dropWhile isBlank).head? = some c from hc] at h
  exact h

/-- A run of characters of a class ends where another character follows. -/
theorem takeWhile_and_dropWhile_append {p : Char → Bool} (hu : ∀ c ∈ u, p c)
    (hv : ∀ c ∈ v.head?, p c = false) :
    (u ++ v).takeWhile p = u ∧ (u ++ v).dropWhile p = v := by
  rw [List.takeWhile_append_of_pos hu, List.dropWhile_append_of_pos hu]
  cases v with
  | nil => exact ⟨List.append_nil u, rfl⟩
  | cons c v =>
      have hc : ¬p c = true := by simp [hv c rfl]
      rw [List.takeWhile_cons_of_neg hc, List.dropWhile_cons_of_neg hc, List.append_nil]
      exact ⟨rfl, rfl⟩

/-- A text is cut behind its leading blanks. -/
theorem indent_and_trimStart_append (hu : ∀ c ∈ u, isBlank c)
    (hv : ∀ c ∈ v.head?, isBlank c = false) :
    indent (u ++ v) = u ∧ trimStart (u ++ v) = v := takeWhile_and_dropWhile_append hu hv

/-- Only blanks are trimmed from the end of a text, and all that stand there. -/
theorem trimEnd_cases (cs : List Char) : ∃ w, cs = trimEnd cs ++ w ∧ (∀ c ∈ w, isBlank c) ∧
    (trimEnd cs = [] ∨ ∃ front c, trimEnd cs = front ++ [c] ∧ isBlank c = false) := by
  induction cs with
  | nil => exact ⟨[], rfl, nofun, .inl rfl⟩
  | cons c cs ih =>
      obtain ⟨w, hcs, hw, hlast⟩ := ih
      rw [trimEnd]
      split
      · next hnil =>
        rw [hnil] at hcs
        subst hcs
        split
        · next hc => exact ⟨c :: cs, rfl, List.forall_mem_cons.mpr ⟨hc, hw⟩, .inl rfl⟩
        · next hc => exact ⟨cs, rfl, hw, .inr ⟨[], c, rfl, Bool.eq_false_iff.mpr hc⟩⟩
      · next d ds hcons =>
        rw [hcons] at hcs hlast
        obtain hnil | ⟨front, e, hfront, he⟩ := hlast
        · cases hnil
        · exact ⟨w, congrArg (c :: ·) hcs, hw, .inr ⟨c :: front, e, congrArg (c :: ·) hfront, he⟩⟩

/-- The text is `v` with the blanks `u` before it and others behind it. All blanks of a blank text
stand before what is left of it. -/
inductive Trims : List Char → List Char → List Char → Prop where
  | blank {u : List Char} (hu : ∀ c ∈ u, isBlank c) : Trims u u []
  | solid {u v w : List Char} (hu : ∀ c ∈ u, isBlank c) (hv : Solid v) (hw : ∀ c ∈ w, isBlank c) :
      Trims (u ++ (v ++ w)) u v

theorem trims_trim (cs : List Char) : Trims cs (indent cs) (trim cs) := by
  have hindent : ∀ c ∈ indent cs, isBlank c := fun c hc => List.mem_takeWhile_imp hc
  obtain ⟨w, hstart, hw, hlast⟩ := trimEnd_cases (trimStart cs)
  have hcs := indent_append_trimStart cs
  rcases hlast with hnil | ⟨front, c, hfront, hc⟩
  · -- nothing but blanks is left behind the leading ones, so nothing is
    have hblank : trimStart cs = [] := by
      rw [hnil, List.nil_append] at hstart
      cases hrest : trimStart cs with
      | nil => rfl
      | cons c rest =>
          have hc := head_trimStart cs c (by rw [hrest]; rfl)
          rw [hw c (by rw [← hstart, hrest]; exact List.mem_cons_self)] at hc
          cases hc
    rw [hblank, List.append_nil] at hcs
    rw [trim, hnil, hcs]
    exact .blank (hcs ▸ hindent)
  · have hsolid : Solid (trim cs) := by
      refine ⟨?_, front, c, hfront, hc⟩
      cases hrest : trim cs with
      | nil =>
          rw [trim, hfront] at hrest
          simp at hrest
      | cons d rest =>
          refine ⟨d, rest, rfl, head_trimStart cs d ?_⟩
          rw [hstart, show trimEnd (trimStart cs) = d :: rest from hrest]
          rfl
    have htrims := Trims.solid hindent hsolid hw
    rwa [show trim cs ++ w = trimStart cs from hstart.symm, hcs] at htrims

theorem Trims.eq (h : Trims cs u v) : u = indent cs ∧ v = trim cs := by
  cases h with
  | blank hu =>
      have hcut : indent (cs ++ []) = cs ∧ trimStart (cs ++ []) = [] :=
        indent_and_trimStart_append hu nofun
      rw [List.append_nil] at hcut
      rw [hcut.1, trim, hcut.2]
      exact ⟨rfl, rfl⟩
  | @solid _ _ w hu hv hw =>
      have hhead : ∀ c ∈ (v ++ w).head?, isBlank c = false := by
        obtain ⟨d, rest, rfl, hd⟩ := hv.head
        rintro c ⟨⟩
        exact hd
      exact ⟨(indent_and_trimStart_append hu hhead).1.symm, (hv.trim_between hu hw).symm⟩

/-! ## Names -/

/-- A character of a class is none that lies outside of it. -/
theorem ne_of_class {p : Char → Bool} {d : Char} (h : p c) (hd : p d = false) : c ≠ d := by
  rintro rfl
  rw [h] at hd
  cases hd

theorem isBlank_of_isIdentifierPart (h : isIdentifierPart c) : isBlank c = false := by
  rw [Bool.eq_false_iff]
  intro hblank
  simp only [isIdentifierPart, Char.isAlphanum, Char.isAlpha, Char.isUpper, Char.isLower,
    Char.isDigit, Bool.or_eq_true, Bool.and_eq_true, decide_eq_true_eq, beq_iff_eq,
    UInt32.le_iff_toNat_le] at h
  simp only [isBlank, Char.toNat, Bool.or_eq_true, Bool.and_eq_true, decide_eq_true_eq,
    beq_iff_eq] at hblank
  rcases h with h | rfl
  · -- letters and digits lie between the blanks of ASCII and all others
    have hupper : 'A'.val.toNat = 65 ∧ 'Z'.val.toNat = 90 := ⟨rfl, rfl⟩
    have hlower : 'a'.val.toNat = 97 ∧ 'z'.val.toNat = 122 := ⟨rfl, rfl⟩
    have hdigit : '0'.val.toNat = 48 ∧ '9'.val.toNat = 57 := ⟨rfl, rfl⟩
    omega
  · revert hblank
    decide

theorem isIdentifierPart_of_start (h : isIdentifierStart c) : isIdentifierPart c := by
  unfold isIdentifierStart at h
  unfold isIdentifierPart Char.isAlphanum
  rcases Bool.or_eq_true_iff.mp h with h | h
  · rw [h]
    rfl
  · rw [h, Bool.or_true]

/-- Every character of a name may stand in a name. -/
theorem isIdentifierPart_of_mem (h : isIdentifier cs) (hc : c ∈ cs) : isIdentifierPart c := by
  cases cs with
  | nil => cases hc
  | cons d cs =>
      obtain ⟨hd, hcs⟩ := Bool.and_eq_true_iff.mp h
      rcases List.mem_cons.mp hc with rfl | hc
      · exact isIdentifierPart_of_start hd
      · exact List.all_eq_true.mp hcs c hc

theorem not_mem_of_isIdentifier (h : isIdentifier cs) (hc : isIdentifierPart c = false) : c ∉ cs :=
  fun hin => ne_of_class (isIdentifierPart_of_mem h hin) hc rfl

theorem ne_nil_of_isIdentifier (h : isIdentifier cs) : cs ≠ [] := by
  rintro rfl
  cases h

theorem solid_of_isIdentifier (h : isIdentifier cs) : Solid cs := by
  have hne := ne_nil_of_isIdentifier h
  constructor
  · obtain ⟨c, rest, rfl⟩ := List.exists_cons_of_ne_nil hne
    exact ⟨c, rest, rfl, isBlank_of_isIdentifierPart (isIdentifierPart_of_mem h List.mem_cons_self)⟩
  · refine ⟨cs.dropLast, cs.getLast hne, (List.dropLast_concat_getLast hne).symm, ?_⟩
    exact isBlank_of_isIdentifierPart (isIdentifierPart_of_mem h (List.getLast_mem hne))

/-- A name at the start of a text goes on until a character that cannot stand in one. -/
theorem leadingIdentifier_append (h : isIdentifier u) (hc : isIdentifierPart c = false) :
    leadingIdentifier (u ++ c :: cs) = u := by
  have hrun : (u ++ c :: cs).takeWhile isIdentifierPart = u := by
    rw [List.takeWhile_append_of_pos fun d hd => isIdentifierPart_of_mem h hd, List.takeWhile_cons,
      if_neg (by rw [hc]; decide), List.append_nil]
  unfold leadingIdentifier
  simp only [hrun, h, if_true]

theorem splitOnce?_append {sep : Char} (h : sep ∉ u) (v : List Char) :
    splitOnce? sep (u ++ sep :: v) = some (u, v) := by
  induction u with
  | nil => exact if_pos rfl
  | cons c u ih =>
      rw [List.mem_cons, not_or] at h
      rw [List.cons_append, splitOnce?, if_neg (Ne.symm h.1), ih h.2]
      rfl

theorem splitOnce?_eq_none {sep : Char} (h : sep ∉ u) : splitOnce? sep u = none := by
  induction u with
  | nil => rfl
  | cons c u ih =>
      rw [List.mem_cons, not_or] at h
      rw [splitOnce?, if_neg (Ne.symm h.1), ih h.2]
      rfl

/-! ## Lines -/

theorem lines_append (hfeed : '\n' ∉ u) (hreturn : '\r' ∉ u) (cs : List Char) :
    lines (u ++ '\n' :: cs) = u :: lines cs := by
  induction u with
  | nil => rfl
  | cons c u ih =>
      rw [List.mem_cons, not_or] at hfeed hreturn
      rw [List.cons_append, lines]
      · rw [ih hfeed.2 hreturn.2]
      · exact fun rest heq => absurd heq (Ne.symm hreturn.1)
      · exact fun heq => absurd heq (Ne.symm hfeed.1)

/-- A text without line breaks is one line. -/
theorem lines_of_not_mem (hne : u ≠ []) (hfeed : '\n' ∉ u) (hreturn : '\r' ∉ u) : lines u = [u] := by
  induction u with
  | nil => exact absurd rfl hne
  | cons c u ih =>
      rw [List.mem_cons, not_or] at hfeed hreturn
      rw [lines]
      · cases u with
        | nil => rfl
        | cons d u => rw [ih (List.cons_ne_nil d u) hfeed.2 hreturn.2]
      · exact fun rest heq => absurd heq (Ne.symm hreturn.1)
      · exact fun heq => absurd heq (Ne.symm hfeed.1)

/-- Lines without line breaks in them, each ended by one, are the lines of their text. -/
theorem lines_flatMap {ls : List (List Char)} (h : ∀ l ∈ ls, '\n' ∉ l ∧ '\r' ∉ l) :
    lines (ls.flatMap (· ++ ['\n'])) = ls := by
  induction ls with
  | nil => rfl
  | cons l ls ih =>
      obtain ⟨hfeed, hreturn⟩ := h l List.mem_cons_self
      rw [List.flatMap_cons, List.append_assoc]
      show lines (l ++ '\n' :: ls.flatMap (· ++ ['\n'])) = _
      rw [lines_append hfeed hreturn, ih fun l' hl' => h l' (List.mem_cons_of_mem _ hl')]

end RowConfig.Chars
