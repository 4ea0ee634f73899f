import RowConfig.Proofs.Binding.Exact
import RowConfig.Proofs.Declaring
import RowConfig.Proofs.Resolution

/-!
# Inline rows are typed

Every inline row of a bound document was a call, however deep it stands and whether it was written
as an argument or as a default (`Document.fromCall_of_bind`). Its fields are therefore filled as
those of a call are: with an argument that was read at the field, with the default, or with null.
Arguments conform to the field's type because they are read against the structs as they are in the
end, and defaults because no line leaves a field with a default of another type
(`conforming_of_bind`).
-/

namespace RowConfig

open Binding Value

namespace Binding

variable {tables : Entries Table} {t : Table} {row row' : Instance} {f : Field} {v : Value}

/-! ## What stands in a field -/

theorem get?_arrange {fields : List Field} {present : Entries Value}
    (hfields : (fields.map Field.name).Nodup) (hf : f ∈ fields) :
    Entries.get? (arrange fields present) f.name = some (fillFrom present f) := by
  induction fields generalizing present with
  | nil => cases hf
  | cons g fields ih =>
      obtain ⟨hg, hfields⟩ := List.nodup_cons.mp hfields
      rw [arrange, Entries.get?]
      rcases List.mem_cons.mp hf with rfl | hf
      · rw [if_pos rfl, fillFrom]
      · have hne : f.name ≠ g.name := by
          intro heq
          exact hg (heq ▸ List.mem_map_of_mem hf)
        rw [if_neg hne.symm, ih hfields hf, fillFrom, Entries.get?_erase_of_ne hne, fillFrom]

/-- Arranging leaves in each field what fills it. -/
theorem exists_fills_of_arrangeInstance (ht : Entries.get? tables row.struct = some t)
    (hfields : t.fieldNames.Nodup) (h : arrangeInstance tables row = .ok row') (hf : f ∈ t.fields) :
    ∃ v, t.Fills tables row f v ∧ row'.get? f.name = some v := by
  obtain ⟨present, rfl, hpresent⟩ := arrangeInstance_cases ht h
  refine ⟨fillFrom present f, ?_, get?_arrange hfields hf⟩
  rcases hpresent with ⟨hcall, rfl⟩ | ⟨place, hcall, htyped⟩
  · exact fills_of_bound hcall f
  · exact fills_of_call hcall hfields htyped hf

/-- Binding leaves in each field what fills it, bound in turn. -/
theorem exists_fills_of_bindWithin {depth : Nat} {path : List String}
    (ht : Entries.get? tables row.struct = some t) (hfields : t.fieldNames.Nodup)
    (h : bindWithin tables depth path row = .ok row') (hf : f ∈ t.fields) :
    ∃ v w, t.Fills tables row f v ∧ Binds tables v w ∧ row'.get? f.name = some w := by
  cases depth with
  | zero => cases h
  | succ depth =>
      obtain ⟨arranged, fields, harranged, hbound, rfl⟩ := bindWithin_succ_eq_ok_iff.mp h
      obtain ⟨v, hfills, hv⟩ := exists_fills_of_arrangeInstance ht hfields harranged hf
      obtain ⟨w, hw, hvw⟩ := hbound.get?_eq_some_left hv
      exact ⟨v, w, hfills, ⟨depth, _, hvw⟩, hw⟩

/-- A field of a call is filled with an argument that the field accepts, with the default, or with
null. -/
theorem origin_of_fills (hcall : row.call.isSome) (h : t.Fills tables row f v) :
    f.Accepts v ∨ f.default = some v ∨ v = .null := by
  cases h with
  | present hbound _ =>
      rw [hbound] at hcall
      cases hcall
  | typed _ _ hread => exact .inl (Reader.accepts_of_readFor hread)
  | absent _ _ =>
      cases hdefault : f.default with
      | none => exact .inr (.inr rfl)
      | some w => exact .inr (.inl rfl)

/-! ## Calls -/

/-- Binding made the row of a call. -/
def FromCall (tables : Entries Table) (row' : Instance) : Prop :=
  ∃ row depth path, row.call.isSome ∧ row.struct ∈ Entries.names tables ∧
    bindWithin tables depth path row = .ok row'

/-- The inline rows that binding leaves in a row were calls. -/
theorem fromCall_of_bindWithin (htables : Declared tables) {depth : Nat} {path : List String}
    (hrow : Bindable tables row) (h : bindWithin tables depth path row = .ok row') :
    ∀ v ∈ Entries.values row'.fields, ∀ inner, v.Holds (.instance inner) → FromCall tables inner := by
  induction depth generalizing path row row' with
  | zero => cases h
  | succ depth ih =>
      obtain ⟨arranged, fields, harranged, hbound, rfl⟩ := bindWithin_succ_eq_ok_iff.mp h
      obtain ⟨-, hwritten⟩ := complete_of_arrangeInstance htables hrow harranged
      intro w hw
      obtain ⟨v, hv, hvw⟩ := exists_mem_left hbound.values hw
      refine forall_rows_of_mapInstances ?_ (hwritten v hv) hvw
      intro call bound hcall hstruct hbind
      exact ⟨⟨call, depth, _, hcall, hstruct, hbind⟩,
        ih (bindable_of_call htables hcall hstruct) hbind⟩

theorem fromCall_of_bindValue (htables : Declared tables) {w : Value}
    (hv : v.Written (Entries.names tables)) (h : bindValue tables v = .ok w) :
    ∀ inner, w.Holds (.instance inner) → FromCall tables inner := by
  refine forall_rows_of_mapInstances ?_ hv h
  intro call bound hcall hstruct hbind
  exact ⟨⟨call, _, _, hcall, hstruct, hbind⟩,
    fromCall_of_bindWithin htables (bindable_of_call htables hcall hstruct) hbind⟩

/-- A row that was a call has, in each field of its struct, what an accepted argument, the default
or null is once it is bound. -/
theorem FromCall.origin (h : FromCall tables row')
    (hfields : ∀ struct t, Entries.get? tables struct = some t → t.fieldNames.Nodup) :
    ∃ t, Entries.get? tables row'.struct = some t ∧ ∀ f ∈ t.fields, ∃ v w, Binds tables v w ∧
      row'.get? f.name = some w ∧ (f.Accepts v ∨ f.default = some v ∨ v = .null) := by
  obtain ⟨row, depth, path, hcall, hstruct, hbind⟩ := h
  obtain ⟨t, ht⟩ := Entries.exists_get?_iff.mpr hstruct
  refine ⟨t, ?_, ?_⟩
  · rw [struct_of_bindWithin hbind]
    exact ht
  · intro f hf
    obtain ⟨v, w, hfills, hvw, hw⟩ := exists_fills_of_bindWithin ht (hfields _ t ht) hbind hf
    exact ⟨v, w, hvw, hw, origin_of_fills hcall hfills⟩

end Binding

/-! ## Documents -/

namespace Document

variable {d e : Document} {row : Instance}

/-- Every inline row of a bound document was a call. -/
theorem fromCall_of_bind (hd : d.Written) (h : d.bind = .ok e) (hrow : e.Holds (.instance row)) :
    FromCall d.tables row := by
  have hdeclared : Binding.Declared d.tables := fun name t ht => hd.table? ht
  obtain ⟨hglobals, htables⟩ := pointwise_of_bind h
  obtain ⟨root, hroot, hrow⟩ := hrow
  rcases mem_roots.mp hroot with hroot | ⟨entry', hentry', row', hrow', hroot⟩
  · obtain ⟨v, hv, hbind⟩ := exists_mem_left hglobals.values hroot
    exact fromCall_of_bindValue hdeclared (hd.globals v hv) hbind row hrow
  · obtain ⟨entry, hentry, -, rows, hrows, heq⟩ := exists_mem_left htables hentry'
    rw [← heq] at hrow'
    obtain ⟨written, hin, hbind⟩ := exists_mem_left (bindRows_eq_ok_iff.mp hrows) hrow'
    exact fromCall_of_bindWithin hdeclared (hd.bindable hentry hin) hbind root hroot row hrow

end Document

/-- In every field of its struct, an inline row of a bound document has null or a value of the type
that the field has in the end. -/
theorem conforming_of_bind {s : Sources} {input : Input} {d e : Document}
    (hd : readDocument s input = .ok d) (h : d.bind = .ok e) {row : Instance}
    (hrow : e.Holds (.instance row)) :
    ∃ t, e.table? row.struct = some t ∧
      ∀ f ∈ t.fields, ∃ v, row.get? f.name = some v ∧ v.Conforms f.type := by
  obtain ⟨physical, lines, -, -, hlines⟩ := readDocument_eq_ok_iff.mp hd
  have hdeclared := Document.wellDeclared_of_ofLines hlines
  have hcall := Document.fromCall_of_bind (Document.written_of_ofLines hlines) h hrow
  obtain ⟨t, ht, hfields⟩ := hcall.origin hdeclared.nodup
  obtain ⟨_, hu, rows, -, rfl⟩ := (Document.pointwise_of_bind h).2.get?_eq_some_left ht
  refine ⟨_, hu, ?_⟩
  intro f hf
  obtain ⟨v, w, hvw, hw, horigin⟩ := hfields f hf
  refine ⟨w, hw, (keeps_binds d.tables).conforms ?_ hvw⟩
  rcases horigin with haccepted | hdefault | rfl
  · exact haccepted.conforms
  · exact hdeclared.sound _ t ht f hf v hdefault
  · exact .null f.type

/-- A default with a call inside, written before the field that the call gives gets another type. -/
def pairText : String := "P:\n int x:\nB:\n P[] ps: [P(1)]\nB g: B()\nP:\n str x:"

/-- What `pairText` declares, with the call of the global. -/
def pairs (call : Instance) : Document :=
  let items : List Value :=
    [.instance ⟨"P", [("_arg0", .text (.plain "1"))], some ⟨none, 4, 11, 4, " P[] ps: [P(1)]"⟩⟩]
  let outer : Table := ⟨"B",
    [{ Field.ofType "ps" ⟨.struct "P", true⟩ with default := some (.array items) }], none, [], []⟩
  ⟨[("g", .instance call)],
    [("P", ⟨"P", [Field.ofType "x" ⟨.str, false⟩], none, [], []⟩), ("B", outer)]⟩

/-- The call of the global as it is written. -/
def pairCall : Instance := ⟨"B", [], some ⟨none, 5, 6, 3, "B g: B()"⟩⟩

/-- The row that the call in the default becomes. -/
def pairItem : Instance := .ofFields "P" [("x", .text (.plain "1"))]

/-- The row that the call of the global becomes. -/
def pairRow : Instance := .ofFields "B" [("ps", .array [.instance pairItem])]

theorem readDocument_pairText :
    readDocument .empty (.text "/" pairText) = .ok (pairs pairCall) := by
  decide +kernel

theorem bind_pairs : (pairs pairCall).bind = .ok (pairs pairRow) := by
  decide +kernel

theorem holds_pairItem : (pairs pairRow).Holds (.instance pairItem) := by
  refine ⟨.instance pairRow, List.mem_cons_self, ?_⟩
  refine .of_part (p := .array [.instance pairItem]) List.mem_cons_self ?_
  exact .of_part List.mem_cons_self (.refl _)

theorem conforming_of_bind_pairs :
    readDocument .empty (.text "/" pairText) = .ok (pairs pairCall) ∧
      (pairs pairCall).bind = .ok (pairs pairRow) ∧
      (pairs pairRow).Holds (.instance pairItem) ∧
      ∃ t, (pairs pairRow).table? "P" = some t ∧
        ∀ f ∈ t.fields, ∃ v, pairItem.get? f.name = some v ∧ v.Conforms f.type :=
  ⟨readDocument_pairText, bind_pairs, holds_pairItem,
    conforming_of_bind readDocument_pairText bind_pairs holds_pairItem⟩

end RowConfig
