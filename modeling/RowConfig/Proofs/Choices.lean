import RowConfig.Proofs.Rows.Typed

/-!
# Choices are checked when a value is given

A field with choices holds null or what becomes of a value that was among the choices when it was
given: the argument of a call is checked against the choices as they are in the end, the argument of
a row against those that the field had when the row was complete, and a default against those that
the field had when a line gave the default (`choices_of_compile`). Lines that come later do not
check it again, nor does rendering a template.
-/

namespace RowConfig

open Binding Value

/-! ## Defaults -/

/-- What a field holds where nothing else is given: null, or its default, which it accepted when a
line gave it. -/
inductive DefaultOf (lines : List LogicalLine) (struct : String) (f : Field) : Value → Prop
  | null : DefaultOf lines struct f .null
  | given {k : Nat} {g : Field} {v : Value} : f.default = some v → g.name = f.name →
      DefaultSince lines k struct g v → DefaultOf lines struct f v

namespace Document

variable {lines : List LogicalLine} {d : Document} {struct : String} {t : Table} {f : Field}

/-- The defaults of a document were given by its lines. -/
theorem defaultOf_of_ofLines (h : ofLines lines = .ok d) (ht : d.table? struct = some t)
    (hf : f ∈ t.fields) {v : Value} (hv : f.default = some v) : DefaultOf lines struct f v := by
  obtain ⟨b, hrun, hfields⟩ := exists_run_of_ofLines h
  have hfound : b.document.field? struct f.name = some f := by
    rw [field?, ← hfields, fieldsOf_of_table? ht]
    exact Table.find?_of_nodup ((wellDeclared_of_ofLines h).nodup struct t ht) hf
  obtain ⟨k, g, hname, hsince⟩ := Builder.defaultSince_of_run hrun hfound hv
  exact .given hv hname hsince

theorem defaultOf_getD (h : ofLines lines = .ok d) (ht : d.table? struct = some t)
    (hf : f ∈ t.fields) : DefaultOf lines struct f (f.default.getD .null) := by
  cases hdefault : f.default with
  | none => exact .null
  | some v => exact defaultOf_of_ofLines h ht hf hdefault

/-- Each field of the row that begins at a position holds what becomes of a value that the row gave,
which the field accepted as it was when the row was complete, or of its default. -/
def ChosenAt (lines : List LogicalLine) (struct : String) (fields : List Field) (i : Nat)
    (row : Instance) : Prop :=
  ∃ written, BuiltAt lines i written ∧ ∀ f ∈ fields, ∃ v w, v.Becomes w ∧
    row.get? f.name = some w ∧
      ((written.get? f.name = some v ∧
          ∃ g, fieldAfter? lines (rowEnd lines i) struct f.name = some g ∧ g.Accepts v) ∨
        (written.get? f.name = none ∧ DefaultOf lines struct f v))

/-- Each field holds what becomes of a value that the field accepts as it is in the end, or of its
default. -/
def ChosenInline (lines : List LogicalLine) (fields : List Field) (row : Instance) : Prop :=
  ∀ f ∈ fields, ∃ v w, v.Becomes w ∧ row.get? f.name = some w ∧
    (f.Accepts v ∨ DefaultOf lines row.struct f v)

/-- Rows are given values that their fields accept at that time. -/
theorem chosen_of_resolve {e : Document} (hd : ofLines lines = .ok d) (he : d.resolve = .ok e)
    (ht : e.table? struct = some t) :
    List.Forall₂ (ChosenAt lines struct t.fields) (rowPositions lines struct) t.rows := by
  obtain ⟨u, hu, heq, -⟩ := exists_table?_of_resolve he ht
  refine (made_of_resolve hd he ht).imp ?_
  rintro i row ⟨written, hbuilt, hfields⟩
  refine ⟨written, hbuilt, ?_⟩
  intro f hf
  obtain ⟨v, w, hvw, hw, hgiven | ⟨hnone, rfl⟩⟩ := hfields f hf
  · exact ⟨v, w, hvw.becomes, hw, .inl hgiven⟩
  · rw [heq] at hf
    exact ⟨_, w, hvw.becomes, hw, .inr ⟨hnone, defaultOf_getD hd hu hf⟩⟩

/-- Calls are given values that their fields accept in the end. -/
theorem chosenInline_of_shows {e : Document} (hd : ofLines lines = .ok d) (he : d.resolve = .ok e)
    {row : Instance} (hrow : e.Shows (.instance row)) :
    ∃ t, e.table? row.struct = some t ∧ ChosenInline lines t.fields row := by
  obtain ⟨t, ht, hfields⟩ :=
    origin_of_shows (written_of_ofLines hd) (wellDeclared_of_ofLines hd) he hrow
  refine ⟨t, ht, ?_⟩
  intro f hf
  obtain ⟨v, w, hvw, hw, haccepts | hdefault | rfl⟩ := hfields f hf
  · exact ⟨v, w, hvw.becomes, hw, .inl haccepts⟩
  · obtain ⟨u, hu, heq, -⟩ := exists_table?_of_resolve he ht
    rw [heq] at hf
    exact ⟨v, w, hvw.becomes, hw, .inr (defaultOf_of_ofLines hd hu hf hdefault)⟩
  · exact ⟨.null, w, hvw.becomes, hw, .inr .null⟩

/-- The text of each value of the row is that of one of the field's choices, or the value is
null. -/
def ChoicesHold (d : Document) : Prop :=
  ∀ row, d.ShowsRow row → ∀ t, d.table? row.struct = some t → ∀ f ∈ t.fields, ∀ choices,
    f.choices = some choices → ∀ v, row.get? f.name = some v → Field.allows choices v

end Document

/-- In a compiled document, rows and inline rows have in each field what becomes of a value that the
field accepted, as it was when the value was given. -/
theorem choices_of_compile {s : Sources} {input : Input} {e : Document}
    (h : compile s input = .ok e) :
    ∃ physical lines, input.lines s = .ok physical ∧ assemble physical = .ok lines ∧
      (∀ struct t, e.table? struct = some t →
        List.Forall₂ (Document.ChosenAt lines struct t.fields) (rowPositions lines struct) t.rows) ∧
      ∀ row, e.Shows (.instance row) →
        ∃ t, e.table? row.struct = some t ∧ Document.ChosenInline lines t.fields row := by
  obtain ⟨physical, lines, d, hphysical, hlines, hd, he⟩ := exists_lines_of_compile h
  refine ⟨physical, lines, hphysical, hlines, ?_, ?_⟩
  · intro struct t ht
    exact Document.chosen_of_resolve hd he ht
  · intro row hrow
    exact Document.chosenInline_of_shows hd he hrow

/-- Choices that come after a row and after a default, and a choice that is a template. -/
def lateText : String :=
  "str x: l\nH:\n *str k:\n str t:\n str d: b\n str n: (a, {x})\n - a, b, , {x}\n t: (c)\n d: (c)\n"

/-- The row of `lateText`. -/
def lateRow : Instance :=
  .ofFields "H" [("k", .text (.plain "a")), ("t", .text (.plain "b")), ("d", .text (.plain "b")),
    ("n", .text (.plain "l"))]

/-- The field that gets its choices after the row has given it a value. -/
def lateField : Field :=
  { Field.ofType "t" ⟨.str, false⟩ with choices := some [.text (.plain "c")] }

/-- The struct of `lateText`. -/
def lateTable : Table :=
  ⟨"H", [{ Field.ofType "k" ⟨.str, false⟩ with isKey := true }, lateField,
    { Field.ofType "d" ⟨.str, false⟩ with
      default := some (.text (.plain "b")), choices := some [.text (.plain "c")] },
    { Field.ofType "n" ⟨.str, false⟩ with
      choices := some [.text (.plain "a"), .text (.template "{x}" false)] }],
    some "k", [lateRow], [("a", 0)]⟩

/-- What `lateText` compiles to. -/
def lateDocument : Document := ⟨[("x", .text (.plain "l"))], [("H", lateTable)]⟩

theorem compile_lateText : compile .empty (.text "/" lateText) = .ok lateDocument := by
  decide +kernel

theorem choices_of_compile_late :
    compile .empty (.text "/" lateText) = .ok lateDocument ∧
      ∃ physical lines, (Input.text "/" lateText).lines .empty = .ok physical ∧
        assemble physical = .ok lines ∧
          List.Forall₂ (Document.ChosenAt lines "H" lateTable.fields)
            (rowPositions lines "H") [lateRow] := by
  obtain ⟨physical, lines, hphysical, hlines, hrows, -⟩ := choices_of_compile compile_lateText
  exact ⟨compile_lateText, physical, lines, hphysical, hlines, hrows "H" lateTable rfl⟩

/-- None of the three fields of the row that have choices holds one of them. -/
theorem not_choicesHold_late :
    compile .empty (.text "/" lateText) = .ok lateDocument ∧ ¬ lateDocument.ChoicesHold ∧
      ∀ f ∈ lateTable.fields, ∀ choices, f.choices = some choices →
        ∃ v, lateRow.get? f.name = some v ∧ ¬ Field.allows choices v := by
  have hnone : ∀ f ∈ lateTable.fields, ∀ choices, f.choices = some choices →
      ∃ v, lateRow.get? f.name = some v ∧ ¬ Field.allows choices v := by
    decide
  refine ⟨compile_lateText, ?_, hnone⟩
  intro hold
  have hshown : lateDocument.ShowsRow lateRow :=
    .inl ⟨("H", lateTable), List.mem_cons_self, List.mem_cons_self⟩
  have hfield : lateField ∈ lateTable.fields := List.mem_cons_of_mem _ List.mem_cons_self
  obtain ⟨v, hv, hout⟩ := hnone lateField hfield _ rfl
  exact hout (hold lateRow hshown lateTable rfl lateField hfield _ rfl v hv)

end RowConfig
