import RowConfig.Proofs.LineGrammar

/-!
# Lines of known shape

How headers, field declarations, globals and rows that are written in the plain way are recognised.
Such a line fits its shape by the way it is written, so it is recognised as having it
(`ofLine?_of_fits`), whichever shapes are tried before.
-/

namespace RowConfig.LineKind

open Chars

variable {line lead marks type name value : List Char}

/-! ## Headers -/

theorem ofLine?_header (hname : isIdentifier name) (hupper : name.head?.any Char.isUpper) :
    ofLine? (name ++ [':']) = some (.header name) := ofLine?_of_fits (.header hname hupper)

/-- Only a line that has the shape of a header is taken for one. -/
theorem header?_of_ofLine? (h : ofLine? line = some (.header name)) :
    header? line = some (.header name) := by
  rw [ofLine?_eq, Option.or_eq_some_iff, shape?_eq_some_iff, continuation?_eq_some_iff] at h
  rcases h with hfits | ⟨-, hcontinues⟩
  · exact header?_eq_some_iff.mpr ⟨name, rfl, hfits⟩
  · cases hcontinues

/-- The name in a header is an identifier. -/
theorem isIdentifier_of_header? (h : header? line = some (.header name)) : isIdentifier name := by
  obtain ⟨_, -, hfits⟩ := header?_eq_some_iff.mp h
  cases hfits with
  | header hname => exact hname

/-! ## Field declarations -/

/-- A declaration written with single blanks. -/
def declaration (marks type : List Char) (array : Bool) (name value : List Char) : List Char :=
  marks ++ (type ++ (arrayMark array ++ ' ' :: (name ++ ':' :: value)))

/-- What a declaration declares is read from it, whatever its value is. -/
theorem fieldLine?_declaration {array : Bool} (hlead : ∀ c ∈ lead, isBlank c = true)
    (hmarks : ∀ c ∈ marks, isMark c = true) (htype : isIdentifier type)
    (hname : isIdentifier name) :
    ∃ f : FieldLine, fieldLine? (lead ++ declaration marks type array name value) = some f ∧
      f.isGlobal = lead.isEmpty ∧ f.isKey = marks.contains '*' ∧ f.nullable = marks.contains '?' ∧
      f.typeName = type ∧ f.array = array ∧ f.name.text = name ∧ f.value.text = trim value := by
  have hblank : ∀ c ∈ [' '], isBlank c := List.forall_mem_singleton.mpr rfl
  have hnone : ∀ c ∈ ([] : List Char), isBlank c := nofun
  have hfits := Fits.field array hlead (fun c hc => isMark_iff.mp (hmarks c hc)) hnone
    (fun _ => rfl) htype hblank (by decide) hname hnone (trims_trim value)
  exact ⟨_, fieldLine?_of_fits hfits, rfl, rfl, rfl, rfl, rfl, rfl, rfl⟩

theorem ofLine?_of_fieldLine? {f : FieldLine} (h : fieldLine? line = some f) :
    ofLine? line = some (.field f) := ofLine?_of_fits (fits_of_fieldLine? h)

/-! ## Rows -/

/-- A dash behind blanks, with a blank behind it, begins a row. -/
theorem ofLine?_row {arguments : List Char} (hlead : ∀ c ∈ lead, isBlank c = true)
    (hend : atWordEnd arguments) :
    ofLine? (lead ++ '-' :: arguments) = some (.row ⟨arguments, byteSize lead + 1⟩) := by
  rw [ofLine?_of_fits (.row hlead hend), byteSize_append]
  rfl

end RowConfig.LineKind
