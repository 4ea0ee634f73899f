import RowConfig.Proofs.Extending
import RowConfig.Proofs.Keys.Given
import RowConfig.Proofs.Keys.Indexed
import RowConfig.Proofs.Rows.Typed

/-!
# Keys and references among lines

The lines of a document write keys in the rows of a struct (`WritesKey`) and references to these
rows in its globals and in other rows (`WritesReference`). In the document that is read from the
lines the rows have exactly these keys (`Document.keyed_of_ofLines`), and the references stand where
they were written (`Document.exists_at?_of_ofLines`).
-/

namespace RowConfig

open Chars

/-- What is declared of a struct once the first `n` lines have been read. -/
def tableAfter? (lines : List LogicalLine) (n : Nat) (struct : String) : Option Table :=
  match Builder.start.run (lines.take n) with
  | .ok b => b.document.table? struct
  | .error _ => none

/-- The row that begins at a position gives its key, then a field of strings, the string as a
literal. -/
def WritesKey (lines : List LogicalLine) (struct key : String) (i : Nat) (k : String) : Prop :=
  ∃ r t f, rowAt? lines i = some r ∧ tableAfter? lines (rowEnd lines i) struct = some t ∧
    t.field? key = some f ∧ f.type = ⟨.str, false⟩ ∧ r.Gives t key (quoted k)

/-- A reference with the string as a literal is written for a spot, as its value or as an element of
an array. The struct that is referred to has a key at that point. -/
inductive WritesReference (lines : List LogicalLine) (struct k : String) (element : Option Nat) :
    Spot → Prop
  /-- It is the value of a global that is not declared again. -/
  | global {i : Nat} {l : LogicalLine} {f : FieldLine} {u : Table} :
      lines[i]? = some l → LineKind.ofLine? l.text.toList = some (.field f) → f.isGlobal →
      Builder.typeOf f = ⟨.struct struct, element.isSome⟩ →
      Cites (referenceText struct k) element f.value.text →
      tableAfter? lines i struct = some u → u.key.isSome →
      (∀ l' ∈ lines.drop (i + 1), l'.global? ≠ some (String.ofList f.name.text)) →
      WritesReference lines struct k element (.global (String.ofList f.name.text))
  /-- A row gives it to a field. -/
  | field {other name : String} {j i : Nat} {r : RowText} {t u : Table} {f : Field}
      {token : List Char} :
      (rowPositions lines other)[j]? = some i → rowAt? lines i = some r →
      tableAfter? lines (rowEnd lines i) other = some t → t.field? name = some f →
      f.type = ⟨.struct struct, element.isSome⟩ → Cites (referenceText struct k) element token →
      r.Gives t name token →
      tableAfter? lines (rowEnd lines i) struct = some u → u.key.isSome →
      WritesReference lines struct k element (.field other j name)

section Lines

variable {lines : List LogicalLine} {struct name key k : String} {n i : Nat} {t : Table} {b : Builder}

theorem tableAfter?_of_run (h : Builder.start.run (lines.take n) = .ok b) :
    tableAfter? lines n struct = b.document.table? struct := by
  rw [tableAfter?, h]

theorem struct_eq_of_mem_rowPositions {r : RowText} (hi : i ∈ rowPositions lines struct)
    (hr : rowAt? lines i = some r) : r.struct = struct := by
  have hany := (List.mem_filter.mp hi).2
  rw [hr] at hany
  simpa using hany

/-- A header opens a struct under an identifier. -/
theorem isIdentifier_of_header? {l : LogicalLine} (h : l.header? = some struct) :
    isIdentifier struct.toList := by
  unfold LogicalLine.header? at h
  split at h
  · next name hkind =>
    cases h
    rw [String.toList_ofList]
    exact LineKind.isIdentifier_of_header? (LineKind.header?_of_ofLine? hkind)
  · cases h

/-- The name of a struct that is declared is an identifier. -/
theorem isIdentifier_of_tableAfter? (h : tableAfter? lines n struct = some t) :
    isIdentifier struct.toList := by
  unfold tableAfter? at h
  split at h
  · next b hrun =>
    have hnames := Builder.namesOf_of_run hrun
    rw [Document.namesOf, Prod.mk.injEq] at hnames
    have hin : struct ∈ b.document.structNames := Entries.exists_get?_iff.mp ⟨t, h⟩
    rw [hnames.2, List.mem_eraseDups] at hin
    obtain ⟨l, -, hl⟩ := List.mem_filterMap.mp hin
    exact isIdentifier_of_header? hl
  · cases h

/-! ## Rows -/

/-- What a row gives a field is read when the row is complete, against what is declared then. -/
theorem BuiltAt.exists_value_of_gives {row : Instance} {r : RowText} {f : Field} {token : List Char}
    (h : BuiltAt lines i row) (hi : i ∈ rowPositions lines struct) (hr : rowAt? lines i = some r)
    (ht : tableAfter? lines (rowEnd lines i) struct = some t) (hf : t.field? name = some f)
    (hwhole : Whole token) (hgives : r.Gives t name token) :
    ∃ b reader v, Builder.start.run (lines.take (rowEnd lines i)) = .ok b ∧
      reader.tables = b.document.tables ∧ Reader.readFor reader token f = .ok v ∧
      row.get? name = some v := by
  obtain ⟨r', b, t', hr', hrun, ht', hread⟩ := h
  rw [hr] at hr'
  cases hr'
  rw [struct_eq_of_mem_rowPositions hi hr] at ht'
  rw [tableAfter?_of_run hrun, ht'] at ht
  cases ht
  have hnodup := Builder.nodup_fieldsOf hrun struct
  rw [Document.fieldsOf_of_table? ht'] at hnodup
  obtain ⟨f', reader, v, hf', htables, hv, hrow⟩ :=
    RowText.exists_value_of_gives hnodup hwhole hgives hread
  rw [hf] at hf'
  cases hf'
  exact ⟨b, reader, v, hrun, htables, hv, hrow⟩

/-- A row whose only argument is a literal gives it to the first field. -/
theorem writesKey_of_first {pad : List Char} {f : Field} (hpad : ∀ c ∈ pad, isBlank c)
    (hr : (rowAt? lines i).map RowText.text = some (pad ++ quoted k))
    (hf : (tableAfter? lines (rowEnd lines i) struct).bind (·.fields.head?) = some f)
    (htype : f.type = ⟨.str, false⟩) : WritesKey lines struct f.name i k := by
  obtain ⟨r, hr, htext⟩ := Option.map_eq_some_iff.mp hr
  obtain ⟨t, ht, hfirst⟩ := Option.bind_eq_some_iff.mp hf
  obtain ⟨more, hfields⟩ := List.head?_eq_some_iff.mp hfirst
  have hpieces : Scan.start.pieces ',' (pad ++ []) = [pad] := Later.none.pieces_top none hpad
  rw [List.append_nil] at hpieces
  refine ⟨r, t, f, hr, ht, ?_, htype, [], pad, [], ?_, .position ?_ hpad, List.not_mem_nil⟩
  · simp [Table.field?, hfields]
  · exact ⟨pad, [], [], by simpa using htext, hpieces, List.forall_mem_nil _, .none⟩
  · simp [Table.fieldNames, hfields]

end Lines

/-! ## Globals -/

namespace Builder

variable {b b' : Builder} {lines : List LogicalLine} {struct : String} {t : Table}

/-- Completing a row keeps the key of every struct. -/
theorem exists_table?_of_flush (h : b.flush = .ok b') (ht : b.document.table? struct = some t) :
    ∃ t', b'.document.table? struct = some t' ∧ t'.key = t.key := by
  unfold flush at h
  split at h
  · cases h
    exact ⟨t, ht, rfl⟩
  · obtain ⟨u, row, -, -, rfl⟩ := addRow_eq_ok_iff.mp h
    show ∃ t', Entries.get? (Entries.modify _ _ b.document.tables) struct = some t' ∧ _
    rw [Entries.get?_modify, show Entries.get? b.document.tables struct = some t from ht]
    split
    · exact ⟨t.addRow row, rfl, rfl⟩
    · exact ⟨t, rfl, rfl⟩

/-- A global that is not declared again has the value that is read on its line. -/
theorem exists_global_of_feedAll {l : LogicalLine} {f : FieldLine} {d : Document}
    (hkind : LineKind.ofLine? l.text.toList = some (.field f)) (hglobal : f.isGlobal)
    (hvalue : f.value.text.isEmpty = false)
    (hlater : ∀ l' ∈ lines, l'.global? ≠ some (String.ofList f.name.text))
    (h : b.feedAll (l :: lines) = .ok d) :
    ∃ flushed reader v, b.flush = .ok flushed ∧ reader.tables = flushed.document.tables ∧
      Reader.read reader f.value.text (typeOf f) = .ok v ∧
      d.global? (String.ofList f.name.text) = some v := by
  rw [feedAll] at h
  split at h
  · cases h
  · next b' hfeed =>
    have hfeed : (b.flush.bind fun b => b.declare l (.field f)) = .ok b' := by
      rw [← hfeed, feed, hkind]
    obtain ⟨flushed, hflush, hdeclare⟩ := bind_eq_ok_iff.mp hfeed
    cases declares_of_declare hdeclare with
    | field hfield _ _ =>
        rw [hfield] at hglobal
        cases hglobal
    | @global _ v _ hv =>
        rw [hvalue, if_neg Bool.false_ne_true] at hv
        refine ⟨flushed, flushed.reader l f.value, v, hflush, rfl, hv, ?_⟩
        have hkept := (extends_of_feedAll h).kept (String.ofList f.name.text) (by
          intro hin
          obtain ⟨l', hl', hname⟩ := List.mem_filterMap.mp hin
          exact hlater l' hl' hname)
        rw [hkept, Document.global?, Document.setGlobal, Entries.get?_insert, if_pos rfl]

end Builder

namespace Document

variable {d : Document} {lines : List LogicalLine} {struct key k : String} {keys : List String}
  {t : Table} {spot : Spot} {element : Option Nat}

/-- The rows of a struct have the keys that their lines write. -/
theorem keyed_of_ofLines (h : ofLines lines = .ok d) (ht : d.table? struct = some t)
    (hkey : t.key = some key)
    (hwrites : List.Forall₂ (WritesKey lines struct key) (rowPositions lines struct) keys) :
    t.Keyed key keys := by
  refine ⟨hkey, ?_⟩
  have hbuilt : List.Forall₂ (fun i row => i ∈ rowPositions lines struct ∧ BuiltAt lines i row)
      (rowPositions lines struct) t.rows :=
    forall₂_imp_of_mem (fun i hi row hrow => ⟨hi, hrow⟩) (built_of_ofLines h ht)
  refine forall₂_comp hbuilt.flip hwrites ?_
  rintro row i k ⟨hi, hrow⟩ ⟨r, u, f, hr, hu, hf, htype, hgives⟩
  obtain ⟨b, reader, v, -, -, hread, hv⟩ :=
    hrow.exists_value_of_gives hi hr hu hf (whole_quoted k) hgives
  rw [Reader.eq_text_of_readFor htype hread] at hv
  exact hv

/-- A row that begins at a position stands among the rows of its struct. -/
theorem exists_row_of_ofLines (h : ofLines lines = .ok d) {i j : Nat}
    (hj : (rowPositions lines struct)[j]? = some i) :
    ∃ t row, d.table? struct = some t ∧ t.rows[j]? = some row ∧ BuiltAt lines i row := by
  obtain ⟨b, b', hrun, hflush, rfl⟩ := ofLines_eq_ok_iff.mp h
  have hreads := Builder.reads_of_flush hrun (Builder.reads_or_waits_of_run hrun) hflush
  obtain ⟨row, hrow, hbuilt⟩ := exists_getElem?_right (Builder.rows_of_reads hreads struct) hj
  unfold rowsOf at hrow
  split at hrow
  · next t ht => exact ⟨t, row, ht, hrow, hbuilt⟩
  · cases hrow

/-- A reference stands, with no row yet, in the spot for which lines write it. -/
theorem exists_at?_of_ofLines (h : ofLines lines = .ok d)
    (hwrites : WritesReference lines struct k element spot) :
    ∃ v, d.at? spot = some v ∧ v.element? element = some (.reference struct k none) := by
  cases hwrites with
  | @global i l f u hl hkind hglobal htype hcites hu hkey hlater =>
      have hname := isIdentifier_of_tableAfter? hu
      have hwhole := hcites.whole (whole_referenceText hname k)
      have hsplit : lines = lines.take i ++ l :: lines.drop (i + 1) := by
        obtain ⟨hi, rfl⟩ := List.getElem?_eq_some_iff.mp hl
        rw [List.cons_getElem_drop_succ, List.take_append_drop]
      rw [hsplit, ofLines, Builder.feedAll_eq, Builder.run_append] at h
      obtain ⟨b, hrun, hfeed⟩ := bind_eq_ok_iff.mp h
      obtain ⟨start, hrun, hrest⟩ := bind_eq_ok_iff.mp hrun
      have hall : start.feedAll (l :: lines.drop (i + 1)) = .ok d := by
        rw [Builder.feedAll_eq, hrest]
        exact hfeed
      obtain ⟨flushed, reader, v, hflush, htables, hread, hv⟩ :=
        Builder.exists_global_of_feedAll hkind hglobal hwhole.solid.isEmpty_eq hlater hall
      rw [tableAfter?_of_run hrun] at hu
      obtain ⟨u', hu', hkey'⟩ := Builder.exists_table?_of_flush hflush hu
      rw [Document.table?, ← htables] at hu'
      rw [← hkey'] at hkey
      rw [htype] at hread
      exact ⟨v, hv, Reader.element?_of_read hname hu' hkey hcites hread⟩
  | @field other name j i r t u f token hj hr ht hf htype hcites hgives hu hkey =>
      obtain ⟨t', row, ht', hrow, hbuilt⟩ := exists_row_of_ofLines h hj
      have hname := isIdentifier_of_tableAfter? hu
      obtain ⟨b, reader, v, hrun, htables, hread, hv⟩ := hbuilt.exists_value_of_gives
        (List.mem_of_getElem? hj) hr ht hf (hcites.whole (whole_referenceText hname k)) hgives
      rw [tableAfter?_of_run hrun, Document.table?, ← htables] at hu
      refine ⟨v, ?_, ?_⟩
      · rw [at?, ht', Option.bind_some, hrow, Option.bind_some, hv]
      · have hread := Reader.read_of_readFor hread
        rw [htype] at hread
        exact Reader.element?_of_read hname hu hkey hcites hread

end Document

end RowConfig
