import RowConfig.Proofs.Clock
import RowConfig.Proofs.Equality
import RowConfig.Proofs.Scalars

/-!
# Stored times that are compiled again

Whatever literal a time or a date-time is read from, what is stored is the normalized text
(`time_of_readScalar`, `dateTime_of_readScalar`). Written as a literal and compiled again, a stored
time stays as it is, and a stored date-time does so exactly if there is no blank in it, for the
first blank would become another `T` (`compile_stored_again`).
-/

namespace RowConfig

open Chars

/-- The text that is stored for a time. -/
def storedTime (t : String) : String := String.ofList (Clock.normalizeTime t.toList)

/-- The text that is stored for a date-time. -/
def storedDateTime (t : String) : String := String.ofList (Clock.normalizeDateTime t.toList)

theorem storedTime_storedTime (t : String) : storedTime (storedTime t) = storedTime t := by
  unfold storedTime
  rw [String.toList_ofList]
  exact congrArg String.ofList (Clock.normalizeFraction_normalizeFraction t.toList)

theorem storedDateTime_storedDateTime_iff (t : String) :
    storedDateTime (storedDateTime t) = storedDateTime t ↔ t.toList.count ' ' ≤ 1 := by
  unfold storedDateTime
  rw [String.toList_ofList, String.ofList_inj]
  exact Clock.normalizeDateTime_normalizeDateTime_iff t.toList

/-! ## Literals -/

namespace Reader

variable {r : Reader} {s : Span} {v : Value}

theorem time_of_readScalar (h : r.readScalar s .time = .ok v) : ∃ t, v = .time (storedTime t) := by
  obtain ⟨t, -, rfl⟩ := map_eq_ok_iff.mp h
  exact ⟨t.content, rfl⟩

theorem dateTime_of_readScalar (h : r.readScalar s .dateTime = .ok v) :
    ∃ t, v = .dateTime (storedDateTime t) := by
  obtain ⟨t, -, rfl⟩ := map_eq_ok_iff.mp h
  exact ⟨t.content, rfl⟩

theorem read_quoted_time (r : Reader) (t : String) :
    r.read (quoted t) ⟨.time, false⟩ = .ok (.time (storedTime t)) := by
  obtain ⟨column, hread⟩ := read_of_solid r (solid_quoted t) (isNullWord_quoted t) .time
  rw [hread, readScalar, readText_quoted]
  rfl

theorem read_quoted_dateTime (r : Reader) (t : String) :
    r.read (quoted t) ⟨.dateTime, false⟩ = .ok (.dateTime (storedDateTime t)) := by
  obtain ⟨column, hread⟩ := read_of_solid r (solid_quoted t) (isNullWord_quoted t) .dateTime
  rw [hread, readScalar, readText_quoted]
  rfl

end Reader

/-- The text with one line, of a global whose value is a literal. -/
def globalText (type g t : String) : String := textOf [globalLine type.toList false g (quoted t)]

/-- The global is what every reader makes of the literal, if no pass has work to do at it. -/
theorem compile_globalText (s : Sources) (dir : String) {type g t : String} {v : Value}
    (htype : isIdentifier type.toList) (hg : isIdentifier g.toList) (hv : v.Settled)
    (hread : ∀ r : Reader, r.read (quoted t) ⟨.ofName type, false⟩ = .ok v) :
    compile s (.text dir (globalText type g t)) = .ok ⟨[(g, v)], []⟩ := by
  have hquoted : StandsAlone (quoted t) := Scalar.standsAlone_quoted t
  have hcomplete : ∀ l ∈ [globalLine type.toList false g (quoted t)], CompleteLine l :=
    List.forall_mem_singleton.mpr (hquoted.completeLine htype hg)
  obtain ⟨lines, hlines, hdocument⟩ := readDocument_of_complete s dir hcomplete
  obtain ⟨l, rfl, hl⟩ := List.map_eq_singleton_iff.mp hlines
  obtain ⟨location, hfeed⟩ := Builder.feedAll_global (b := Builder.start) rfl htype hg hquoted.solid
    hquoted.head?_ne hl
  have hglobals : Document.ofLines [l] = .ok ⟨[(g, v)], []⟩ := by
    rw [Document.ofLines, hfeed, String.ofList_toList, hread]
    rfl
  rw [compile, globalText, hdocument, hglobals]
  apply Document.resolve_of_settled
  intro w hw
  rw [List.mem_singleton.mp hw]
  exact hv

section Again

variable (s : Sources) (dir : String) {g : String} (hg : isIdentifier g.toList) (t : String)
include hg

theorem compile_time : compile s (.text dir (globalText "time" g t)) =
    .ok ⟨[(g, .time (storedTime t))], []⟩ := by
  have hsettled : (Value.time (storedTime t)).Settled := Value.settled_of_parts rfl nofun
  exact compile_globalText s dir (by decide) hg hsettled fun r => r.read_quoted_time t

theorem compile_dateTime : compile s (.text dir (globalText "datetime" g t)) =
    .ok ⟨[(g, .dateTime (storedDateTime t))], []⟩ := by
  have hsettled : (Value.dateTime (storedDateTime t)).Settled := Value.settled_of_parts rfl nofun
  exact compile_globalText s dir (by decide) hg hsettled fun r => r.read_quoted_dateTime t

/-- Storing a time again changes nothing. Storing a date-time again changes nothing exactly if there
was at most one blank in it. Whatever literal is read, what is stored is such a text; and a literal
of it compiles to it again, for date-times exactly if there was at most one blank. -/
theorem compile_stored_again :
    (storedTime (storedTime t) = storedTime t ∧
      (storedDateTime (storedDateTime t) = storedDateTime t ↔ t.toList.count ' ' ≤ 1)) ∧
    (∀ (r : Reader) span v,
      (r.readScalar span .time = .ok v → ∃ t, v = .time (storedTime t)) ∧
        (r.readScalar span .dateTime = .ok v → ∃ t, v = .dateTime (storedDateTime t))) ∧
    (compile s (.text dir (globalText "time" g t)) = .ok ⟨[(g, .time (storedTime t))], []⟩ ∧
      compile s (.text dir (globalText "time" g (storedTime t))) =
        .ok ⟨[(g, .time (storedTime t))], []⟩) ∧
    compile s (.text dir (globalText "datetime" g t)) =
        .ok ⟨[(g, .dateTime (storedDateTime t))], []⟩ ∧
      (compile s (.text dir (globalText "datetime" g (storedDateTime t))) =
        .ok ⟨[(g, .dateTime (storedDateTime t))], []⟩ ↔ t.toList.count ' ' ≤ 1) := by
  have hagain := compile_time s dir hg (storedTime t)
  rw [storedTime_storedTime] at hagain
  refine ⟨⟨storedTime_storedTime t, storedDateTime_storedDateTime_iff t⟩, ?_,
    ⟨compile_time s dir hg t, hagain⟩, compile_dateTime s dir hg t, ?_⟩
  · exact fun r span v => ⟨Reader.time_of_readScalar, Reader.dateTime_of_readScalar⟩
  · rw [compile_dateTime s dir hg, ← storedDateTime_storedDateTime_iff]
    simp

end Again

theorem compile_stored_again_utc :
    isIdentifier "stamp".toList ∧
      storedDateTime "2024-05-01 10:30:00Z" = "2024-05-01T10:30:00+00:00" ∧
      compile .empty (.text "/" (globalText "datetime" "stamp" "2024-05-01T10:30:00+00:00")) =
        .ok ⟨[("stamp", .dateTime "2024-05-01T10:30:00+00:00")], []⟩ := by
  have hg : isIdentifier "stamp".toList := by decide
  have hstored : storedDateTime "2024-05-01 10:30:00Z" = "2024-05-01T10:30:00+00:00" := by
    decide +kernel
  obtain ⟨-, -, -, -, hagain⟩ := compile_stored_again .empty "/" hg "2024-05-01 10:30:00Z"
  rw [hstored] at hagain
  exact ⟨hg, hstored, hagain.mpr (by decide)⟩

/-- A blank before the offset is taken for the one between date and time when it is stored again. -/
theorem not_stored_again_spaced :
    (¬∀ t, storedDateTime (storedDateTime t) = storedDateTime t) ∧
      compile .empty (.text "/" "datetime stamp: \"2024-05-01 10:30:00 +02:00\"") =
        .ok ⟨[("stamp", .dateTime "2024-05-01T10:30:00 +02:00")], []⟩ ∧
      compile .empty (.text "/" "datetime stamp: \"2024-05-01T10:30:00 +02:00\"") =
        .ok ⟨[("stamp", .dateTime "2024-05-01T10:30:00T+02:00")], []⟩ := by
  refine ⟨?_, by decide +kernel⟩
  intro hall
  exact absurd (hall "2024-05-01 10:30:00 +02:00") (by decide +kernel)

end RowConfig
