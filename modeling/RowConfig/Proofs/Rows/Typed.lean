import RowConfig.Proofs.Passing

/-!
# Rows are typed when they are complete

A row gives values to the fields of its struct as these are declared when the row is complete
(`BuiltAt.accepts`), and fields to which it gives none get their default as it is in the end. Lines
that come later may declare a field of the struct anew; this leaves the rows before them as they
are. The types of a row's values are therefore those that its fields had when the row was read, and
for defaults the types that the fields have in the end (`rowTypes_of_compile`).
-/

namespace RowConfig

open Binding Value

/-! ## What a row gives -/

section Given

variable {tables : Entries Table} {t : Table} {r : RowText} {name : String} {v : Value}

/-- Reading a row collects values that are read for their fields. -/
theorem origin_of_readRow {count position : Nat} {named : Bool} {fields fields' : Entries Value}
    {pieces : List (Nat × List Char)}
    (h : readRow tables t r count position named fields pieces = .ok fields') :
    ∀ e ∈ fields', e ∈ fields ∨ ∃ g ∈ t.fields, g.name = e.1 ∧
      ∃ (reader : Reader) (token : List Char), reader.readFor token g = .ok e.2 := by
  induction pieces generalizing position named fields with
  | nil =>
      cases h
      intro e he
      exact .inl he
  | cons piece pieces ih =>
      obtain ⟨offset, piece⟩ := piece
      rw [readRow] at h
      simp only at h
      split at h
      · exact ih h
      · split at h
        · cases h
        · next a hassign =>
          split at h
          · cases h
          · next v hread =>
            intro e he
            rcases ih h e he with he | hgiven
            · rcases Entries.eq_or_mem_of_mem_insert he with rfl | he
              · exact .inr ⟨a.field, mem_fields_of_assignArgument hassign, rfl, _, _, hread⟩
              · exact .inl he
            · exact .inr hgiven

/-- Every value in a row is read for the field that it is for. -/
theorem RowText.origin_of_read {row : Instance} (h : r.read tables t = .ok row) :
    ∀ e ∈ row.fields, ∃ g ∈ t.fields, g.name = e.1 ∧
      ∃ (reader : Reader) (token : List Char), reader.readFor token g = .ok e.2 := by
  obtain ⟨fields, hread, rfl⟩ := map_eq_ok_iff.mp h
  intro e he
  rcases origin_of_readRow hread e he with hin | hgiven
  · cases hin
  · exact hgiven

/-- Every value that a row gives is accepted by the field that it is for. -/
theorem RowText.accepts_of_read {row : Instance} (h : r.read tables t = .ok row)
    (hv : row.get? name = some v) : ∃ g ∈ t.fields, g.name = name ∧ g.Accepts v := by
  obtain ⟨g, hg, hname, reader, token, hread⟩ :=
    RowText.origin_of_read h _ (Entries.mem_of_get? hv)
  exact ⟨g, hg, hname, Reader.accepts_of_readFor hread⟩

/-- What a row gives a field is accepted by the field as it is when the row is complete. -/
theorem BuiltAt.accepts {lines : List LogicalLine} {i : Nat} {struct : String} {row : Instance}
    (h : BuiltAt lines i row) (hi : i ∈ rowPositions lines struct) (hv : row.get? name = some v) :
    ∃ g, fieldAfter? lines (rowEnd lines i) struct name = some g ∧ g.Accepts v := by
  obtain ⟨r, b, t, hr, hrun, ht, hread⟩ := h
  obtain ⟨g, hg, rfl, haccepts⟩ := RowText.accepts_of_read hread hv
  have hstruct : r.struct = struct := by
    have hany := (List.mem_filter.mp hi).2
    rw [hr] at hany
    simpa using hany
  subst hstruct
  refine ⟨g, ?_, haccepts⟩
  have hnodup := Builder.nodup_fieldsOf hrun r.struct
  rw [fieldAfter?_of_run hrun, Document.field?]
  rw [Document.fieldsOf_of_table? ht] at hnodup ⊢
  exact Table.find?_of_nodup hnodup hg

end Given

/-! ## What becomes of it -/

namespace Document

variable {lines : List LogicalLine} {d e : Document} {struct : String} {t : Table}

/-- The rows of a struct are built from their lines. -/
theorem built_of_ofLines (h : ofLines lines = .ok d) (ht : d.table? struct = some t) :
    List.Forall₂ (BuiltAt lines) (rowPositions lines struct) t.rows := by
  obtain ⟨b, b', hrun, hflush, rfl⟩ := ofLines_eq_ok_iff.mp h
  have hreads := Builder.reads_of_flush hrun (Builder.reads_or_waits_of_run hrun) hflush
  have hrows := Builder.rows_of_reads hreads struct
  rw [rowsOf, ht] at hrows
  exact hrows

/-- `row` is what becomes of the row of a struct that begins at a position: each field holds what
the passes make of a value that the row gave, which the field accepted as it was then, or of its
default or null. -/
def MadeAt (d : Document) (lines : List LogicalLine) (struct : String) (fields : List Field) (i : Nat)
    (row : Instance) : Prop :=
  ∃ written, BuiltAt lines i written ∧ ∀ f ∈ fields, ∃ v w, d.Resolves v w ∧
    row.get? f.name = some w ∧
      ((written.get? f.name = some v ∧
          ∃ g, fieldAfter? lines (rowEnd lines i) struct f.name = some g ∧ g.Accepts v) ∨
        (written.get? f.name = none ∧ v = f.default.getD .null))

/-- The rows of a resolved document are what becomes of the rows that its lines make. -/
theorem made_of_resolve (h : ofLines lines = .ok d) (he : d.resolve = .ok e)
    (ht : e.table? struct = some t) :
    List.Forall₂ (d.MadeAt lines struct t.fields) (rowPositions lines struct) t.rows := by
  have hd := written_of_ofLines h
  have hdeclared := wellDeclared_of_ofLines h
  obtain ⟨u, hu, hfields, hresolved⟩ := exists_table?_of_resolve he ht
  have hbuilt : List.Forall₂ (fun i row => i ∈ rowPositions lines struct ∧ BuiltAt lines i row)
      (rowPositions lines struct) u.rows :=
    forall₂_imp_of_mem (fun i hi row hbuilt => ⟨hi, hbuilt⟩) (built_of_ofLines h hu)
  have hmade : List.Forall₂ (fun row row' => row ∈ u.rows ∧ d.ResolvesRow row row') u.rows t.rows :=
    forall₂_imp_of_mem (fun row hrow row' hresolves => ⟨hrow, hresolves⟩) hresolved
  refine forall₂_comp hbuilt hmade ?_
  rintro i written row ⟨hi, hbuilt⟩ ⟨hrow, hresolves⟩
  refine ⟨written, hbuilt, ?_⟩
  intro f hf
  have hwritten := (hd.table? hu).rows written hrow
  have hu' : d.table? written.struct = some u := by
    rw [hwritten.struct_eq, (hd.table? hu).name_eq]
    exact hu
  rw [hfields] at hf
  obtain ⟨v, w, hfills, hvw, hw⟩ :=
    exists_fills_of_resolvesRow hu' (hdeclared.nodup _ u hu) hresolves hf
  refine ⟨v, w, hvw, hw, ?_⟩
  cases hfills with
  | present _ hget => exact .inl ⟨hget, hbuilt.accepts hi hget⟩
  | typed hcall _ _ =>
      rw [hwritten.bound] at hcall
      cases hcall
  | absent hnone _ => exact .inr ⟨hnone hwritten.bound, rfl⟩

/-- Each field of the row that begins at a position holds null or a value of the type that the field
had when the row was complete, if the row gave it a value, and else of the type that it has. -/
def TypedAt (lines : List LogicalLine) (struct : String) (fields : List Field) (i : Nat)
    (row : Instance) : Prop :=
  ∃ written, BuiltAt lines i written ∧ ∀ f ∈ fields, ∃ v, row.get? f.name = some v ∧
    match written.get? f.name with
    | some _ => ∃ g, fieldAfter? lines (rowEnd lines i) struct f.name = some g ∧ v.Conforms g.type
    | none => v.Conforms f.type

/-- Rows are given values of the types that their fields have at that time, and defaults have the
types that the fields have in the end. -/
theorem typed_of_resolve (hd : ofLines lines = .ok d) (he : d.resolve = .ok e)
    (ht : e.table? struct = some t) :
    List.Forall₂ (TypedAt lines struct t.fields) (rowPositions lines struct) t.rows := by
  obtain ⟨u, hu, heq, -⟩ := exists_table?_of_resolve he ht
  refine (made_of_resolve hd he ht).imp ?_
  rintro i row ⟨written, hbuilt, hfields⟩
  refine ⟨written, hbuilt, ?_⟩
  intro f hf
  obtain ⟨v, w, hvw, hw, ⟨hgiven, g, hg, haccepts⟩ | ⟨hnone, rfl⟩⟩ := hfields f hf
  · refine ⟨w, hw, ?_⟩
    rw [hgiven]
    exact ⟨g, hg, hvw.conforms haccepts.conforms⟩
  · refine ⟨w, hw, ?_⟩
    rw [hnone]
    apply hvw.conforms
    rw [heq] at hf
    cases hdefault : f.default with
    | none => exact .null f.type
    | some v => exact (wellDeclared_of_ofLines hd).sound struct u hu f hf v hdefault

end Document

/-- In every row of a compiled document, a value that the row gave has the type that its field had
when the row was complete, and every other value has the type that the field has in the end. -/
theorem rowTypes_of_compile {s : Sources} {input : Input} {e : Document}
    (h : compile s input = .ok e) :
    ∃ physical lines, input.lines s = .ok physical ∧ assemble physical = .ok lines ∧
      ∀ struct t, e.table? struct = some t →
        List.Forall₂ (Document.TypedAt lines struct t.fields) (rowPositions lines struct) t.rows := by
  obtain ⟨physical, lines, d, hphysical, hlines, hd, he⟩ := exists_lines_of_compile h
  refine ⟨physical, lines, hphysical, hlines, ?_⟩
  intro struct t ht
  exact Document.typed_of_resolve hd he ht

/-- Every row conforms to the types that its fields have in the end. -/
def Document.RowsConform (d : Document) : Prop :=
  ∀ struct t, d.table? struct = some t → ∀ row ∈ t.rows, ∀ f ∈ t.fields,
    ∃ v, row.get? f.name = some v ∧ v.Conforms f.type

/-- A field that gets another type after a row has given it a value. -/
def retypedText : String := "Host:\n  *str name:\n  int port:\n  - a, 80\n  str port:\n"

/-- The row of `retypedText`. -/
def retypedRow : Instance := .ofFields "Host" [("name", .text (.plain "a")), ("port", .int 80)]

/-- The struct of `retypedText`. -/
def retypedTable : Table :=
  ⟨"Host", [{ Field.ofType "name" ⟨.str, false⟩ with isKey := true },
    Field.ofType "port" ⟨.str, false⟩], some "name", [retypedRow], [("a", 0)]⟩

theorem compile_retypedText :
    compile .empty (.text "/" retypedText) = .ok ⟨[], [("Host", retypedTable)]⟩ := by
  decide +kernel

theorem rowTypes_of_compile_retyped :
    compile .empty (.text "/" retypedText) = .ok ⟨[], [("Host", retypedTable)]⟩ ∧
      ∃ physical lines, (Input.text "/" retypedText).lines .empty = .ok physical ∧
        assemble physical = .ok lines ∧
          List.Forall₂ (Document.TypedAt lines "Host" retypedTable.fields)
            (rowPositions lines "Host") [retypedRow] := by
  obtain ⟨physical, lines, hphysical, hlines, hrows⟩ := rowTypes_of_compile compile_retypedText
  exact ⟨compile_retypedText, physical, lines, hphysical, hlines, hrows "Host" retypedTable rfl⟩

/-- The number that the row gave stays a number. -/
theorem not_rowsConform_retyped :
    compile .empty (.text "/" retypedText) = .ok ⟨[], [("Host", retypedTable)]⟩ ∧
      ¬ Document.RowsConform ⟨[], [("Host", retypedTable)]⟩ := by
  refine ⟨compile_retypedText, ?_⟩
  intro hconform
  have hport : Field.ofType "port" ⟨.str, false⟩ ∈ retypedTable.fields :=
    List.mem_cons_of_mem _ List.mem_cons_self
  obtain ⟨v, hv, hv'⟩ := hconform "Host" retypedTable rfl retypedRow List.mem_cons_self _ hport
  cases hv
  cases hv' with
  | single h => cases h

end RowConfig
