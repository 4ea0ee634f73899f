import RowConfig.Proofs.Declaring
import RowConfig.Proofs.InlineRows
import RowConfig.Proofs.Keys.Tokens
import RowConfig.Proofs.QuotedTexts

/-!
# What a row gives a field

A row gives a field the token that stands among its arguments at the field's position or behind the
field's name (`RowText.Gives`). When the row is read, this very token is read for the field, and the
arguments that follow leave the field its value (`RowText.exists_value_of_gives`).
-/

namespace RowConfig

open Chars

variable {t : Table} {r : RowText} {tables : Entries Table} {name : String} {token lead : List Char}
  {row : Instance}

/-! ## Arguments for a field -/

/-- What stands before the token in the argument at `position`, if it is one for the field: blanks
only, where this is the position of the field, or else the name of the field as a label. -/
inductive LeadsTo (t : Table) (name : String) (position : Nat) : List Char → Prop
  | position {lead : List Char} : t.fieldNames[position]? = some name → (∀ c ∈ lead, isBlank c) →
      LeadsTo t name position lead
  | label {margin pad gap : List Char} : isIdentifier name.toList → (∀ c ∈ margin, isBlank c) →
      (∀ c ∈ pad, isBlank c) → (∀ c ∈ gap, isBlank c) → gap ≠ [] →
      LeadsTo t name position (margin ++ (name.toList ++ (pad ++ ':' :: gap)))

/-- The row gives the field the token, and no later argument is labelled for the field. -/
def RowText.Gives (r : RowText) (t : Table) (name : String) (token : List Char) : Prop :=
  ∃ front lead later, Stands token r.text front lead later ∧ LeadsTo t name front.length lead ∧
    name ∉ givenNames later

/-- What leads to a token is plain, holds no comma, and lets a literal open behind it. -/
theorem LeadsTo.plain {position : Nat} (h : LeadsTo t name position lead) :
    (∀ c ∈ lead, Scan.isPlain c ∧ c ≠ ',') ∧ ∀ c, lead.getLast? = some c → isBlank c := by
  have hblank := @isPlain_and_ne_comma_of_isBlank
  cases h with
  | position _ hlead =>
      exact ⟨fun c hc => hblank (hlead c hc), fun c hc => hlead c (List.mem_of_getLast? hc)⟩
  | @label margin pad gap hname hmargin hpad hgap hne =>
      constructor
      · intro c hc
        simp only [List.mem_append, List.mem_cons] at hc
        rcases hc with hc | hc | hc | rfl | hc
        · exact hblank (hmargin c hc)
        · have hpart := isIdentifierPart_of_mem hname hc
          exact ⟨isPlain_of_isIdentifierPart hpart, ne_of_class hpart (by decide)⟩
        · exact hblank (hpad c hc)
        · exact ⟨by decide, by decide⟩
        · exact hblank (hgap c hc)
      · intro c hc
        obtain ⟨d, gap, rfl⟩ := List.exists_cons_of_ne_nil hne
        apply hgap
        apply List.mem_of_getLast?
        simpa [List.getLast?_append, List.getLast?_cons] using hc

/-! ## Reading the argument -/

/-- A label is split off, and the token is what stands behind it. -/
theorem splitNamed?_label {pad gap : List Char} (hname : isIdentifier name.toList)
    (hpad : ∀ c ∈ pad, isBlank c) (hgap : ∀ c ∈ gap, isBlank c) (hne : gap ≠ []) (token : List Char) :
    splitNamed? (name.toList ++ (pad ++ ':' :: (gap ++ token))) =
      some ⟨name.toList, gap ++ token, byteSize (name.toList ++ pad) + 1⟩ := by
  have hend : atWordEnd (gap ++ token) = true := by
    obtain ⟨c, gap, rfl⟩ := List.exists_cons_of_ne_nil hne
    exact hgap c List.mem_cons_self
  exact splitNamed?_eq_some_iff.mpr ⟨[], pad, nofun, hpad, hname, hend, by simp, rfl⟩

section Argument

variable {position : Nat} {gap : List Char}

/-- The argument is not blank, and its token is the one that stands in it. It is for the field: as
its name says, or as its position does, if no named argument came before. -/
theorem LeadsTo.argument (h : LeadsTo t name position lead) (hnodup : t.fieldNames.Nodup)
    (hwhole : Whole token) (hgap : ∀ c ∈ gap, isBlank c) :
    (trim (lead ++ (token ++ gap))).isEmpty = false ∧
      ∀ count start named a,
        assignArgument t count position start named (trim (lead ++ (token ++ gap))) = .ok a →
          a.token = token ∧ t.field? name = some a.field ∧ a.field.name = name ∧
            (a.named = true ∨ t.fieldNames[position]? = some name) := by
  cases h with
  | position hposition hlead =>
      rw [hwhole.solid.trim_between hlead hgap]
      refine ⟨hwhole.solid.isEmpty_eq, fun count start named a hassign => ?_⟩
      unfold assignArgument at hassign
      simp only [hwhole.splitNamed?_eq_none] at hassign
      split at hassign
      · cases hassign
      · split at hassign
        · next field hfield =>
          cases hassign
          have hname : field.name = name := by
            rw [Table.fieldNames, List.getElem?_map, hfield] at hposition
            exact Option.some.inj hposition
          refine ⟨rfl, ?_, hname, .inr hposition⟩
          rw [← hname]
          exact Table.find?_of_nodup hnodup (List.mem_of_getElem? hfield)
        · cases hassign
  | @label margin pad gap' hname hmargin hpad hgap' hne =>
      have hsolid : Solid (name.toList ++ (pad ++ ':' :: (gap' ++ token))) := by
        obtain ⟨c, rest, hhead, hc⟩ := (solid_of_isIdentifier hname).head
        obtain ⟨front, d, rfl, hd⟩ := hwhole.solid.last
        refine ⟨⟨c, rest ++ (pad ++ ':' :: (gap' ++ (front ++ [d]))), by rw [hhead]; rfl, hc⟩,
          ⟨name.toList ++ (pad ++ ':' :: (gap' ++ front)), d, by simp, hd⟩⟩
      have hpiece : margin ++ (name.toList ++ (pad ++ ':' :: gap')) ++ (token ++ gap) =
          margin ++ (name.toList ++ (pad ++ ':' :: (gap' ++ token)) ++ gap) := by simp
      rw [hpiece, hsolid.trim_between hmargin hgap]
      refine ⟨hsolid.isEmpty_eq, fun count start named a hassign => ?_⟩
      unfold assignArgument at hassign
      simp only [splitNamed?_label hname hpad hgap' hne, String.ofList_toList,
        hwhole.solid.trim_append hgap'] at hassign
      split at hassign
      · next field hfield =>
        cases hassign
        have hfound := List.find?_some (p := fun g : Field => g.name == name) hfield
        exact ⟨rfl, hfield, beq_iff_eq.mp hfound, .inl rfl⟩
      · cases hassign

end Argument

/-! ## Reading the row -/

section ReadRow

variable {position count : Nat} {named : Bool} {fields fields' : Entries Value}
  {front later : List (Nat × List Char)}

/-- Reading the pieces of a row is reading the first of them and going on with the others. -/
theorem exists_readRow_append
    (h : readRow tables t r count position named fields (front ++ later) = .ok fields') :
    ∃ named' between, readRow tables t r count (position + front.length) named' between later =
      .ok fields' := by
  induction front generalizing position named fields with
  | nil => exact ⟨named, fields, h⟩
  | cons piece front ih =>
      rw [List.cons_append, readRow] at h
      rw [List.length_cons, Nat.add_comm front.length, ← Nat.add_assoc]
      simp only at h
      split at h
      · exact ih h
      · split at h
        · cases h
        · split at h
          · cases h
          · exact ih h

/-- Arguments that are not labelled for the field leave it its value, if they cannot be for it by
position. -/
theorem get?_of_readRow (hnodup : t.fieldNames.Nodup)
    (hlater : name ∉ givenNames (later.map Prod.snd))
    (hposition : named = true ∨ ∃ i < position, t.fieldNames[i]? = some name)
    (h : readRow tables t r count position named fields later = .ok fields') :
    Entries.get? fields' name = Entries.get? fields name := by
  induction later generalizing position named fields with
  | nil =>
      cases h
      rfl
  | cons piece later ih =>
      obtain ⟨offset, piece⟩ := piece
      rw [List.map_cons, givenNames_cons, List.mem_append, not_or] at hlater
      obtain ⟨hgiven, hlater⟩ := hlater
      have hnext : named = true ∨ ∃ i < position + 1, t.fieldNames[i]? = some name :=
        hposition.imp_right fun ⟨i, hi, hname⟩ => ⟨i, Nat.lt_succ_of_lt hi, hname⟩
      rw [readRow] at h
      simp only at h
      split at h
      · exact ih hlater hnext h
      · split at h
        · cases h
        · next a hassign =>
          split at h
          · cases h
          · next v _ =>
            unfold assignArgument at hassign
            split at hassign
            · -- a labelled argument is for the field that it names
              next n hn =>
              simp only at hassign
              split at hassign
              · next field hfield =>
                cases hassign
                have hfound := List.find?_some
                  (p := fun g : Field => g.name == String.ofList n.name) hfield
                have hne : field.name ≠ name := by
                  rintro rfl
                  rw [hn] at hgiven
                  exact hgiven (by simpa using beq_iff_eq.mp hfound)
                rw [ih hlater (.inl rfl) h, Entries.get?_insert, if_neg hne]
              · cases hassign
            · split at hassign
              · cases hassign
              · next hnamed =>
                split at hassign
                · next field hfield =>
                  cases hassign
                  -- the field at this position is another than the one before it
                  obtain ⟨i, hi, hname⟩ := hposition.resolve_left hnamed
                  have hhere : t.fieldNames[position]? = some field.name := by
                    rw [Table.fieldNames, List.getElem?_map, hfield]
                    rfl
                  have hne : field.name ≠ name := by
                    rintro rfl
                    have heq := (List.getElem?_inj (List.getElem?_eq_some_iff.mp hname).1 hnodup).mp
                      (hname.trans hhere.symm)
                    omega
                  rw [ih hlater (hnext.imp_left fun h => absurd h hnamed) h, Entries.get?_insert,
                    if_neg hne]
                · cases hassign

end ReadRow

/-- A field to which a row gives a token has the value that the token is read as. -/
theorem RowText.exists_value_of_gives (hnodup : t.fieldNames.Nodup) (hwhole : Whole token)
    (hgives : r.Gives t name token) (h : r.read tables t = .ok row) :
    ∃ f reader v, t.field? name = some f ∧ reader.tables = tables ∧
      Reader.readFor reader token f = .ok v ∧ row.get? name = some v := by
  obtain ⟨front, lead, later, hstands, hleads, hlater⟩ := hgives
  obtain ⟨hplain, hlast⟩ := hleads.plain
  obtain ⟨gap, hgap, hpieces⟩ := hstands.exists_pieces_eq hwhole hplain hlast
  obtain ⟨fields, hread, rfl⟩ := map_eq_ok_iff.mp h
  have hsplit : (splitTop ',' r.text).map Prod.snd = front ++ (lead ++ (token ++ gap)) :: later := by
    rw [map_snd_splitTop, hpieces]
  obtain ⟨before, rest, hparts, rfl, hrest⟩ := List.map_eq_append_iff.mp hsplit
  obtain ⟨⟨offset, _⟩, after, rfl, rfl, rfl⟩ := List.map_eq_cons_iff.mp hrest
  rw [hparts] at hread
  obtain ⟨named, between, hread⟩ := exists_readRow_append hread
  rw [List.length_map] at hleads
  rw [readRow, Nat.zero_add] at hread
  obtain ⟨hempty, hargument⟩ := hleads.argument hnodup hwhole hgap
  simp only [hempty, Bool.false_eq_true, if_false] at hread
  split at hread
  · cases hread
  · next a hassign =>
    obtain ⟨htoken, hfield, hname, hposition⟩ := hargument _ _ _ a hassign
    split at hread
    · cases hread
    · next v hv =>
      rw [htoken] at hv
      refine ⟨a.field, _, v, hfield, rfl, hv, ?_⟩
      have hkept := get?_of_readRow hnodup hlater
        (hposition.imp_right fun h => ⟨before.length, Nat.lt_succ_self _, h⟩) hread
      rw [Entries.get?_insert, if_pos hname] at hkept
      exact hkept

end RowConfig
