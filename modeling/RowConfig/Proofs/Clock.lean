import RowConfig.Clock
import RowConfig.Proofs.Chars

/-!
# Stored times and date-times

A time is stored with six digits of fractional seconds or none; doing this again changes nothing. A
date-time is edited three times: its first blank is written as `T`, a final `Z` as an offset, and
the fraction before the first sign after the date gets six digits. The last edit changes nothing of
where the next one looks (`Cut.normalized`), so that a stored date-time in which no blank is left is
stored as it stands. In this way all date-times that are well-formed are stored
(`normalizeDateTime_written`).
-/

namespace RowConfig.Clock

open Chars

variable {cs u v ds whole : List Char}

/-! ## Fractions -/

theorem length_sixDigits (ds : List Char) : (sixDigits ds).length = 6 := by
  rw [sixDigits, List.length_append, List.length_take, List.length_replicate]
  omega

theorem sixDigits_of_length (h : ds.length = 6) : sixDigits ds = ds := by
  rw [sixDigits, h, List.take_of_length_le (Nat.le_of_eq h), Nat.sub_self, List.replicate_zero,
    List.append_nil]

theorem isDigit_of_mem_sixDigits (h : ∀ c ∈ ds, c.isDigit) : ∀ c ∈ sixDigits ds, c.isDigit := by
  intro c hc
  rcases List.mem_append.mp hc with hc | hc
  · exact h c (List.mem_of_mem_take hc)
  · rw [List.eq_of_mem_replicate hc]
    decide

/-- What follows the first point are digits, at least one. -/
structure HasFraction (cs whole ds : List Char) : Prop where
  eq : cs = whole ++ '.' :: ds
  first : '.' ∉ whole
  nonempty : ds ≠ []
  digits : ∀ c ∈ ds, c.isDigit

theorem HasFraction.normalizeFraction_eq (h : HasFraction cs whole ds) :
    normalizeFraction cs = whole ++ '.' :: sixDigits ds := by
  have hdigits : (!ds.isEmpty && ds.all Char.isDigit) = true := by
    rw [List.isEmpty_eq_false_iff.mpr h.nonempty, List.all_eq_true.mpr h.digits]
    rfl
  unfold normalizeFraction
  rw [h.eq, splitOnce?_append h.first]
  exact if_pos hdigits

/-- Text without a fraction stays. -/
theorem normalizeFraction_cases (cs : List Char) :
    normalizeFraction cs = cs ∨ ∃ whole ds, HasFraction cs whole ds := by
  by_cases hpoint : '.' ∈ cs
  · obtain ⟨whole, ds, rfl, hfirst⟩ := List.eq_append_cons_of_mem hpoint
    by_cases hdigits : (!ds.isEmpty && ds.all Char.isDigit) = true
    · right
      obtain ⟨hnonempty, hall⟩ := Bool.and_eq_true_iff.mp hdigits
      exact ⟨whole, ds, rfl, hfirst, by simpa using hnonempty, List.all_eq_true.mp hall⟩
    · left
      rw [normalizeFraction, splitOnce?_append hfirst]
      exact if_neg hdigits
  · left
    rw [normalizeFraction, splitOnce?_eq_none hpoint]

theorem HasFraction.normalized (h : HasFraction cs whole ds) :
    HasFraction (normalizeFraction cs) whole (sixDigits ds) where
  eq := h.normalizeFraction_eq
  first := h.first
  nonempty := List.ne_nil_of_length_pos (by rw [length_sixDigits]; decide)
  digits := isDigit_of_mem_sixDigits h.digits

/-- A fraction that has six digits keeps them. -/
theorem normalizeFraction_normalizeFraction (cs : List Char) :
    normalizeFraction (normalizeFraction cs) = normalizeFraction cs := by
  rcases normalizeFraction_cases cs with heq | ⟨whole, ds, h⟩
  · rw [heq, heq]
  · rw [h.normalized.normalizeFraction_eq, sixDigits_of_length (length_sixDigits ds),
      h.normalizeFraction_eq]

theorem normalizeFraction_of_not_mem (h : '.' ∉ cs) : normalizeFraction cs = cs := by
  rw [normalizeFraction, splitOnce?_eq_none h]

theorem count_normalizeFraction (cs : List Char) :
    (normalizeFraction cs).count ' ' = cs.count ' ' := by
  rcases normalizeFraction_cases cs with heq | ⟨whole, ds, h⟩
  · rw [heq]
  · have hnone : ∀ {ds : List Char}, (∀ c ∈ ds, c.isDigit) → ('.' :: ds).count ' ' = 0 := by
      intro ds hds
      rw [List.count_eq_zero, List.mem_cons, not_or]
      exact ⟨by decide, fun hin => ne_of_class (hds _ hin) rfl rfl⟩
    rw [h.normalizeFraction_eq, List.count_append, hnone (isDigit_of_mem_sixDigits h.digits)]
    rw [h.eq, List.count_append, hnone h.digits]

/-! ## The separator and the zone -/

theorem joinDate_append (h : ' ' ∉ u) (v : List Char) : joinDate (u ++ ' ' :: v) = u ++ 'T' :: v := by
  induction u with
  | nil => rfl
  | cons c u ih =>
      rw [List.mem_cons, not_or] at h
      rw [List.cons_append, joinDate, if_neg (Ne.symm h.1), ih h.2]
      rfl

theorem joinDate_of_not_mem (h : ' ' ∉ cs) : joinDate cs = cs := by
  induction cs with
  | nil => rfl
  | cons c cs ih =>
      rw [List.mem_cons, not_or] at h
      rw [joinDate, if_neg (Ne.symm h.1), ih h.2]

/-- One blank less is left. -/
theorem count_joinDate (cs : List Char) : (joinDate cs).count ' ' = cs.count ' ' - 1 := by
  by_cases hblank : ' ' ∈ cs
  · obtain ⟨u, v, rfl, hu⟩ := List.eq_append_cons_of_mem hblank
    rw [joinDate_append hu, List.count_append, List.count_append, List.count_cons_self,
      List.count_cons_of_ne (by decide)]
    rfl
  · rw [joinDate_of_not_mem hblank, List.count_eq_zero.mpr hblank]

/-- The text does not end with the letter that stands for the offset zero. -/
def EndsNumeric (cs : List Char) : Prop := ∀ c ∈ cs.getLast?, c ≠ 'Z' ∧ c ≠ 'z'

theorem endsNumeric_append (hv : v ≠ []) : EndsNumeric (u ++ v) ↔ EndsNumeric v := by
  unfold EndsNumeric
  rw [List.getLast?_append_of_ne_nil u hv]

theorem numericOffset_letter {c : Char} (h : c = 'Z' ∨ c = 'z') (cs : List Char) :
    numericOffset (cs ++ [c]) = cs ++ ['+', '0', '0', ':', '0', '0'] := by
  unfold numericOffset
  rw [List.reverse_append, List.reverse_singleton, List.singleton_append]
  rcases h with rfl | rfl <;> simp only [List.reverse_reverse]

theorem numericOffset_of_endsNumeric (h : EndsNumeric cs) : numericOffset cs = cs := by
  rcases List.eq_nil_or_concat' cs with rfl | ⟨front, c, rfl⟩
  · rfl
  · obtain ⟨hupper, hlower⟩ := h c (by rw [List.getLast?_concat]; rfl)
    unfold numericOffset
    rw [List.reverse_append, List.reverse_singleton, List.singleton_append]
    split
    · next heq => exact absurd (List.cons.inj heq).1 hupper
    · next heq => exact absurd (List.cons.inj heq).1 hlower
    · rfl

/-- What the offset does to the end of a text, and that it does nothing else. -/
theorem numericOffset_cases (cs : List Char) : numericOffset cs = cs ∧ EndsNumeric cs ∨
    ∃ front c, (c = 'Z' ∨ c = 'z') ∧ cs = front ++ [c] ∧
      numericOffset cs = front ++ ['+', '0', '0', ':', '0', '0'] := by
  rcases List.eq_nil_or_concat' cs with rfl | ⟨front, c, rfl⟩
  · exact .inl ⟨rfl, nofun⟩
  · by_cases hletter : c = 'Z' ∨ c = 'z'
    · exact .inr ⟨front, c, hletter, rfl, numericOffset_letter hletter front⟩
    · have hends : EndsNumeric (front ++ [c]) := by
        intro d hd
        rw [List.getLast?_concat] at hd
        cases hd
        exact not_or.mp hletter
      exact .inl ⟨numericOffset_of_endsNumeric hends, hends⟩

theorem endsNumeric_numericOffset (cs : List Char) : EndsNumeric (numericOffset cs) := by
  rcases numericOffset_cases cs with ⟨heq, hends⟩ | ⟨front, c, -, -, heq⟩
  · rwa [heq]
  · rw [heq, endsNumeric_append (by decide)]
    intro d hd
    cases hd
    decide

theorem count_numericOffset (cs : List Char) : (numericOffset cs).count ' ' = cs.count ' ' := by
  rcases numericOffset_cases cs with ⟨heq, -⟩ | ⟨front, c, hletter, rfl, heq⟩
  · rw [heq]
  · have hblank : [c].count ' ' = 0 := by rcases hletter with rfl | rfl <;> rfl
    rw [heq, List.count_append, List.count_append, hblank]
    rfl

theorem endsNumeric_normalizeFraction (h : EndsNumeric cs) : EndsNumeric (normalizeFraction cs) := by
  rcases normalizeFraction_cases cs with heq | ⟨whole, ds, hfraction⟩
  · rwa [heq]
  · rw [hfraction.normalizeFraction_eq, endsNumeric_append (List.cons_ne_nil _ _)]
    intro c hc
    rcases List.mem_cons.mp (List.mem_of_getLast? hc) with rfl | hdigit
    · decide
    · have hdigit := isDigit_of_mem_sixDigits hfraction.digits c hdigit
      exact ⟨ne_of_class hdigit rfl, ne_of_class hdigit rfl⟩

/-! ## Date, time and offset -/

section Cuts

variable {date time offset : List Char}

/-- The last edit of a date-time: the fraction before the first sign after the date is
normalized. -/
def normalizeClock (cs : List Char) : List Char :=
  let (date, rest) := splitDate cs
  let time := rest.takeWhile fun c => !isOffsetSign c
  let offset := rest.dropWhile fun c => !isOffsetSign c
  normalizeFraction (date ++ time) ++ offset

theorem normalizeDateTime_eq (cs : List Char) :
    normalizeDateTime cs = normalizeClock (numericOffset (joinDate cs)) := rfl

theorem isOffsetSign_eq_false {c : Char} (hplus : c ≠ '+') (hminus : c ≠ '-') :
    isOffsetSign c = false := by
  rw [isOffsetSign, beq_eq_false_iff_ne.mpr hplus, beq_eq_false_iff_ne.mpr hminus, Bool.or_false]

/-- A text is cut behind its first `T`, or at its start if there is none, and before the first sign
that follows. -/
structure Cut (cs date time offset : List Char) : Prop where
  eq : cs = date ++ (time ++ offset)
  date : date = [] ∧ 'T' ∉ cs ∨ ∃ day, date = day ++ ['T'] ∧ 'T' ∉ day
  time : ∀ c ∈ time, isOffsetSign c = false
  offset : ∀ c ∈ offset.head?, isOffsetSign c

theorem exists_cut (cs : List Char) : ∃ date time offset, Cut cs date time offset := by
  have hcut : ∀ rest : List Char, ∃ time offset, rest = time ++ offset ∧
      (∀ c ∈ time, isOffsetSign c = false) ∧ ∀ c ∈ offset.head?, isOffsetSign c := by
    intro rest
    refine ⟨rest.takeWhile (!isOffsetSign ·), rest.dropWhile (!isOffsetSign ·),
      List.takeWhile_append_dropWhile.symm, ?_, ?_⟩
    · intro c hc
      simpa using List.mem_takeWhile_imp hc
    · intro c hc
      have hhead := List.head?_dropWhile_not (!isOffsetSign ·) rest
      rw [show (rest.dropWhile (!isOffsetSign ·)).head? = some c from hc] at hhead
      simpa using hhead
  by_cases hletter : 'T' ∈ cs
  · obtain ⟨day, rest, rfl, hday⟩ := List.eq_append_cons_of_mem hletter
    obtain ⟨time, offset, rfl, htime, hoffset⟩ := hcut rest
    refine ⟨day ++ ['T'], time, offset, ?_, .inr ⟨day, rfl, hday⟩, htime, hoffset⟩
    rw [List.append_assoc, List.singleton_append]
  · obtain ⟨time, offset, heq, htime, hoffset⟩ := hcut cs
    exact ⟨[], time, offset, heq, .inl ⟨rfl, hletter⟩, htime, hoffset⟩

namespace Cut

theorem normalizeClock_eq (h : Cut cs date time offset) :
    normalizeClock cs = normalizeFraction (date ++ time) ++ offset := by
  have hsplit : splitDate cs = (date, time ++ offset) := by
    unfold splitDate
    rcases h.date with ⟨rfl, hnone⟩ | ⟨day, rfl, hday⟩
    · rw [splitOnce?_eq_none hnone, h.eq, List.nil_append]
    · rw [h.eq, List.append_assoc, List.singleton_append, splitOnce?_append hday]
  obtain ⟨htake, hdrop⟩ : (time ++ offset).takeWhile (!isOffsetSign ·) = time ∧
      (time ++ offset).dropWhile (!isOffsetSign ·) = offset := by
    apply takeWhile_and_dropWhile_append
    · intro c hc
      rw [h.time c hc]
      rfl
    · intro c hc
      rw [h.offset c hc]
      rfl
  unfold normalizeClock
  rw [hsplit]
  simp only [htake, hdrop]

/-- The point of the fraction stands behind the date. -/
theorem exists_time_of_hasFraction (h : Cut cs date time offset)
    (hfraction : HasFraction (date ++ time) whole ds) :
    ∃ front, whole = date ++ front ∧ time = front ++ '.' :: ds := by
  rcases List.append_eq_append_iff.mp hfraction.eq with ⟨front, hwhole, htime⟩ | ⟨front, hdate, htime⟩
  · exact ⟨front, hwhole, htime⟩
  · -- no part of the date is left for the fraction
    have hnil : front = [] := by
      rcases h.date with ⟨hnone, -⟩ | ⟨day, hday, -⟩
      · rw [hnone, eq_comm, List.append_eq_nil_iff] at hdate
        exact hdate.2
      · rcases List.eq_nil_or_concat' front with hnil | ⟨front, c, rfl⟩
        · exact hnil
        · rw [hday, ← List.append_assoc] at hdate
          have hlast : ['T'] = [c] := (List.append_inj' hdate rfl).2
          cases hlast
          have hin : 'T' ∈ '.' :: ds := by
            rw [htime]
            exact List.mem_append_left _ (List.mem_append_right _ List.mem_cons_self)
          rcases List.mem_cons.mp hin with heq | hin
          · cases heq
          · exact absurd (hfraction.digits _ hin) (by decide)
    rw [hnil, List.append_nil] at hdate
    rw [hnil, List.nil_append] at htime
    exact ⟨[], by rw [hdate, List.append_nil], htime.symm⟩

/-- Normalizing the fraction leaves the date and the offset as they are. -/
theorem normalized (h : Cut cs date time offset) :
    ∃ time', normalizeFraction (date ++ time) = date ++ time' ∧
      Cut (normalizeClock cs) date time' offset := by
  rcases normalizeFraction_cases (date ++ time) with hsame | ⟨whole, ds, hfraction⟩
  · have heq : normalizeClock cs = cs := by
      rw [h.normalizeClock_eq, hsame, List.append_assoc, ← h.eq]
    exact ⟨time, hsame, heq.symm ▸ h⟩
  · obtain ⟨front, rfl, htime⟩ := h.exists_time_of_hasFraction hfraction
    have heq : normalizeFraction (date ++ time) = date ++ (front ++ '.' :: sixDigits ds) := by
      rw [hfraction.normalizeFraction_eq, List.append_assoc]
    have hdigits := isDigit_of_mem_sixDigits hfraction.digits
    refine ⟨front ++ '.' :: sixDigits ds, heq, ?_⟩
    rw [h.normalizeClock_eq, heq]
    constructor
    case eq => rw [List.append_assoc]
    case date =>
      apply h.date.imp_left
      rintro ⟨rfl, hnone⟩
      refine ⟨rfl, ?_⟩
      rw [h.eq, htime] at hnone
      simp only [List.nil_append, List.mem_append, List.mem_cons, not_or] at hnone ⊢
      exact ⟨⟨hnone.1.1, hnone.1.2.1, fun hin => ne_of_class (hdigits _ hin) rfl rfl⟩, hnone.2⟩
    case time =>
      intro c hc
      rcases List.mem_append.mp hc with hc | hc
      · exact h.time c (htime ▸ List.mem_append_left _ hc)
      · rcases List.mem_cons.mp hc with rfl | hc
        · rfl
        · exact isOffsetSign_eq_false (ne_of_class (hdigits c hc) rfl)
            (ne_of_class (hdigits c hc) rfl)
    case offset => exact h.offset

end Cut

theorem normalizeClock_normalizeClock (cs : List Char) :
    normalizeClock (normalizeClock cs) = normalizeClock cs := by
  obtain ⟨date, time, offset, h⟩ := exists_cut cs
  obtain ⟨time', heq, h'⟩ := h.normalized
  rw [h'.normalizeClock_eq, ← heq, normalizeFraction_normalizeFraction, h.normalizeClock_eq]

theorem count_normalizeClock (cs : List Char) : (normalizeClock cs).count ' ' = cs.count ' ' := by
  obtain ⟨date, time, offset, h⟩ := exists_cut cs
  rw [h.normalizeClock_eq, List.count_append, count_normalizeFraction, ← List.count_append,
    List.append_assoc, ← h.eq]

theorem endsNumeric_normalizeClock (h : EndsNumeric cs) : EndsNumeric (normalizeClock cs) := by
  obtain ⟨date, time, offset, hcut⟩ := exists_cut cs
  rw [hcut.normalizeClock_eq]
  rw [hcut.eq, ← List.append_assoc] at h
  by_cases hoffset : offset = []
  · rw [hoffset, List.append_nil] at h ⊢
    exact endsNumeric_normalizeFraction h
  · rw [endsNumeric_append hoffset] at h ⊢
    exact h

end Cuts

/-! ## Again -/

/-- One blank less is left in a date-time that is stored. -/
theorem count_normalizeDateTime (cs : List Char) :
    (normalizeDateTime cs).count ' ' = cs.count ' ' - 1 := by
  rw [normalizeDateTime_eq, count_normalizeClock, count_numericOffset, count_joinDate]

/-- A stored date-time without blanks is stored as it stands. -/
theorem normalizeDateTime_of_not_mem (h : ' ' ∉ normalizeDateTime cs) :
    normalizeDateTime (normalizeDateTime cs) = normalizeDateTime cs := by
  have hends : EndsNumeric (normalizeDateTime cs) :=
    endsNumeric_normalizeClock (endsNumeric_numericOffset _)
  rw [normalizeDateTime_eq (normalizeDateTime cs), joinDate_of_not_mem h,
    numericOffset_of_endsNumeric hends, normalizeDateTime_eq, normalizeClock_normalizeClock]

/-- Storing a stored date-time changes nothing exactly if there was no second blank in it. -/
theorem normalizeDateTime_normalizeDateTime_iff (cs : List Char) :
    normalizeDateTime (normalizeDateTime cs) = normalizeDateTime cs ↔ cs.count ' ' ≤ 1 := by
  have hcount := count_normalizeDateTime cs
  constructor
  · intro heq
    have hagain := count_normalizeDateTime (normalizeDateTime cs)
    rw [heq] at hagain
    omega
  · intro hle
    apply normalizeDateTime_of_not_mem
    rw [← List.count_eq_zero]
    omega

/-! ## Well-formed date-times -/

/-- What may stand behind the time of day: nothing, the letter for the offset zero, or an offset. -/
inductive Zone where
  | absent
  | letter (c : Char) (hletter : c = 'Z' ∨ c = 'z')
  | signed (sign : Char) (rest : List Char) (hsign : isOffsetSign sign) (hblank : ' ' ∉ rest)
    (hends : EndsNumeric rest)

namespace Zone

def text : Zone → List Char
  | absent => []
  | letter c _ => [c]
  | signed sign rest .. => sign :: rest

/-- The zone with the offset zero in digits. -/
def numeric : Zone → List Char
  | letter .. => ['+', '0', '0', ':', '0', '0']
  | zone => zone.text

theorem isOffsetSign_head?_numeric (zone : Zone) : ∀ c ∈ zone.numeric.head?, isOffsetSign c := by
  intro c hc
  cases zone with
  | absent => cases hc
  | letter _ _ =>
      cases hc
      rfl
  | signed sign rest hsign _ _ =>
      cases hc
      exact hsign

theorem not_mem_text (zone : Zone) : ' ' ∉ zone.text := by
  cases zone with
  | absent => exact List.not_mem_nil
  | letter c hletter => rcases hletter with rfl | rfl <;> exact of_decide_eq_true rfl
  | signed sign rest hsign hblank _ =>
      rw [text, List.mem_cons, not_or]
      refine ⟨?_, hblank⟩
      rintro rfl
      cases hsign

theorem not_mem_numeric (zone : Zone) : ' ' ∉ zone.numeric := by
  cases zone with
  | absent => exact List.not_mem_nil
  | letter _ _ => exact of_decide_eq_true rfl
  | signed sign rest hsign hblank hends => exact not_mem_text (signed sign rest hsign hblank hends)

/-- The offset is written in digits behind whatever does not end with the letter for zero. -/
theorem numericOffset_append (zone : Zone) (h : EndsNumeric cs) :
    numericOffset (cs ++ zone.text) = cs ++ zone.numeric := by
  cases zone with
  | absent =>
      rw [numeric, text, List.append_nil]
      · exact numericOffset_of_endsNumeric h
      · nofun
  | letter c hletter => exact numericOffset_letter hletter cs
  | signed sign rest hsign _ hends =>
      apply numericOffset_of_endsNumeric
      rw [text, endsNumeric_append (List.cons_ne_nil sign rest)]
      cases rest with
      | nil =>
          intro c hc
          cases hc
          exact ⟨ne_of_class hsign rfl, ne_of_class hsign rfl⟩
      | cons c rest => exact (endsNumeric_append (u := [sign]) (List.cons_ne_nil c rest)).mpr hends

end Zone

/-- A character of a date. -/
def isDatePart (c : Char) : Bool := c != ' ' && c != 'T' && c != '.'

/-- A character of a time of day without its fraction. -/
def isTimePart (c : Char) : Bool := isDatePart c && !isOffsetSign c && c != 'Z' && c != 'z'

/-- A character of a time of day. -/
def isClockPart (c : Char) : Bool := isTimePart c || c == '.' || c.isDigit

/-- A date-time in its parts; there are no digits if it has no fraction. -/
structure Moment where
  date : List Char
  time : List Char
  digits : List Char
  zone : Zone
  isDatePart : ∀ c ∈ date, isDatePart c
  isTimePart : ∀ c ∈ time, isTimePart c
  isDigit : ∀ c ∈ digits, c.isDigit

/-- The digits of a fraction behind the point, if there are any. -/
def fraction : List Char → List Char
  | [] => []
  | ds => '.' :: ds

/-- The fraction as it is stored. -/
def storedFraction : List Char → List Char
  | [] => []
  | ds => '.' :: sixDigits ds

theorem mem_fraction {c : Char} (hc : c ∈ fraction ds) : c = '.' ∨ c ∈ ds := by
  cases ds with
  | nil => cases hc
  | cons d ds => exact List.mem_cons.mp hc

theorem mem_storedFraction {c : Char} (hc : c ∈ storedFraction ds) : c = '.' ∨ c ∈ sixDigits ds := by
  cases ds with
  | nil => cases hc
  | cons d ds => exact List.mem_cons.mp hc

namespace Moment

variable (m : Moment)

/-- The date-time as it is written, with a separator between date and time. -/
def written (sep : Char) : List Char :=
  m.date ++ sep :: (m.time ++ (fraction m.digits ++ m.zone.text))

/-- The date-time as it is stored. -/
def stored : List Char := m.date ++ 'T' :: (m.time ++ (storedFraction m.digits ++ m.zone.numeric))

theorem isClockPart_of_mem {c : Char} (hc : c ∈ m.time ++ fraction m.digits) : isClockPart c := by
  unfold isClockPart
  rcases List.mem_append.mp hc with hc | hc
  · rw [m.isTimePart c hc]
    rfl
  · rcases mem_fraction hc with rfl | hc
    · rfl
    · rw [m.isDigit c hc, Bool.or_true]

theorem not_mem_date {c : Char} (hc : Clock.isDatePart c = false) : c ∉ m.date :=
  fun hin => ne_of_class (m.isDatePart c hin) hc rfl

theorem not_mem_time {c : Char} (hc : Clock.isTimePart c = false) : c ∉ m.time :=
  fun hin => ne_of_class (m.isTimePart c hin) hc rfl

theorem not_mem_written : ' ' ∉ m.written 'T' := by
  rw [written, ← List.append_assoc m.time]
  simp only [List.mem_append, List.mem_cons, not_or]
  refine ⟨m.not_mem_date rfl, by decide, ?_, m.zone.not_mem_text⟩
  rw [← not_or, ← List.mem_append]
  exact fun hin => ne_of_class (m.isClockPart_of_mem hin) rfl rfl

theorem not_mem_stored : ' ' ∉ m.stored := by
  simp only [stored, List.mem_append, List.mem_cons, not_or]
  refine ⟨m.not_mem_date rfl, by decide, m.not_mem_time rfl, ?_, m.zone.not_mem_numeric⟩
  intro hin
  rcases mem_storedFraction hin with heq | hin
  · cases heq
  · exact ne_of_class (isDigit_of_mem_sixDigits m.isDigit _ hin) rfl rfl

theorem joinDate_written {sep : Char} (hsep : sep = ' ' ∨ sep = 'T') :
    joinDate (m.written sep) = m.written 'T' := by
  rcases hsep with rfl | rfl
  · exact joinDate_append (m.not_mem_date rfl) _
  · exact joinDate_of_not_mem m.not_mem_written

theorem endsNumeric_clock : EndsNumeric (m.date ++ 'T' :: (m.time ++ fraction m.digits)) := by
  rw [endsNumeric_append (List.cons_ne_nil _ _)]
  intro c hc
  rcases List.mem_cons.mp (List.mem_of_getLast? hc) with rfl | hin
  · decide
  · have hclock := m.isClockPart_of_mem hin
    exact ⟨ne_of_class hclock rfl, ne_of_class hclock rfl⟩

/-- What is written is cut into its parts. -/
theorem cut : Cut (numericOffset (m.written 'T')) (m.date ++ ['T']) (m.time ++ fraction m.digits)
    m.zone.numeric where
  eq := by
    have hwritten : m.written 'T' =
        (m.date ++ 'T' :: (m.time ++ fraction m.digits)) ++ m.zone.text := by
      simp only [written, List.append_assoc, List.cons_append]
    rw [hwritten, m.zone.numericOffset_append m.endsNumeric_clock]
    simp only [List.append_assoc, List.cons_append, List.nil_append]
  date := .inr ⟨m.date, rfl, m.not_mem_date rfl⟩
  time c hc := by
    have hclock := m.isClockPart_of_mem hc
    exact isOffsetSign_eq_false (ne_of_class hclock rfl) (ne_of_class hclock rfl)
  offset := m.zone.isOffsetSign_head?_numeric

theorem normalizeFraction_clock :
    normalizeFraction (m.date ++ ['T'] ++ (m.time ++ fraction m.digits)) =
      m.date ++ ['T'] ++ (m.time ++ storedFraction m.digits) := by
  have hpoint : '.' ∉ m.date ++ ['T'] ++ m.time := by
    simp only [List.mem_append, not_or]
    exact ⟨⟨m.not_mem_date rfl, by decide⟩, m.not_mem_time rfl⟩
  have hdigits := m.isDigit
  rw [← List.append_assoc, ← List.append_assoc]
  cases hds : m.digits with
  | nil =>
      show normalizeFraction (_ ++ []) = _ ++ []
      rw [List.append_nil, normalizeFraction_of_not_mem hpoint]
  | cons d ds =>
      rw [hds] at hdigits
      have hfraction : HasFraction (m.date ++ ['T'] ++ m.time ++ '.' :: d :: ds)
          (m.date ++ ['T'] ++ m.time) (d :: ds) := ⟨rfl, hpoint, List.cons_ne_nil d ds, hdigits⟩
      exact hfraction.normalizeFraction_eq

/-- A well-formed date-time, with a blank or `T` between date and time, is stored with `T`, a
fraction of six digits if it has one, and an offset in digits; and what is stored is stored as it
stands. -/
theorem normalizeDateTime_written {sep : Char} (hsep : sep = ' ' ∨ sep = 'T') :
    normalizeDateTime (m.written sep) = m.stored ∧ normalizeDateTime m.stored = m.stored := by
  have hstored : normalizeDateTime (m.written sep) = m.stored := by
    rw [normalizeDateTime_eq, m.joinDate_written hsep, m.cut.normalizeClock_eq,
      m.normalizeFraction_clock]
    simp only [stored, List.append_assoc, List.cons_append, List.nil_append]
  refine ⟨hstored, ?_⟩
  have hblank : ' ' ∉ normalizeDateTime (m.written sep) := hstored.symm ▸ m.not_mem_stored
  rw [← hstored]
  exact normalizeDateTime_of_not_mem hblank

/-- A date-time with a short fraction and the letter for the offset zero. -/
def utc : Moment where
  date := "2024-05-01".toList
  time := "10:30:00".toList
  digits := ['2', '5']
  zone := .letter 'Z' (.inl rfl)
  isDatePart := List.all_eq_true.mp rfl
  isTimePart := List.all_eq_true.mp rfl
  isDigit := List.all_eq_true.mp rfl

theorem normalizeDateTime_written_utc :
    utc.written ' ' = "2024-05-01 10:30:00.25Z".toList ∧
      utc.stored = "2024-05-01T10:30:00.250000+00:00".toList ∧
      normalizeDateTime (utc.written ' ') = utc.stored ∧ normalizeDateTime utc.stored = utc.stored :=
  ⟨rfl, rfl, utc.normalizeDateTime_written (.inl rfl)⟩

end Moment

end RowConfig.Clock
