import RowConfig.Proofs.Binding.Typed
import RowConfig.Proofs.Rows.Exported

/-!
# Values through the passes

A field of a resolved row holds what the passes make (`Document.Resolves`) of the value that filled
the field when the row was bound. They keep its type, and they keep its text unless it is a template
(`Value.Becomes`). This is so for rows of structs (`Document.exists_fills_of_resolvesRow`) and for
inline rows, wherever they are reached (`Document.origin_of_shows`).
-/

namespace RowConfig

open Binding Linking Value

/-- What the passes make of a value, so far as its text goes: null stays null, templates are
rendered, and any other value keeps its text. -/
inductive Value.Becomes : Value → Value → Prop
  | text (t : Text) (s : Scope) : Becomes (.text t) (.text (t.rendered s))
  | other {v w : Value} : (∀ t, v ≠ .text t) → w.isNull = v.isNull → w.render = v.render →
      Becomes v w

/-- What the passes over a document make of a value that fills a field of a row. -/
def Document.Resolves (d : Document) (v w : Value) : Prop :=
  ∃ bound linked boundValue linkedValue, d.bind = .ok bound ∧
    bound.buildIndexes.link = .ok linked ∧ Binds d.tables v boundValue ∧
    mapReferences (follow bound.buildIndexes []) boundValue = .ok linkedValue ∧
    RendersTo linked.globals linkedValue w

/-! ## Values -/

namespace Document.Resolves

variable {d : Document} {v w : Value}

/-- The passes keep types. -/
theorem conforms (h : d.Resolves v w) {type : FieldType} (hv : v.Conforms type) :
    w.Conforms type := by
  obtain ⟨bound, linked, boundValue, linkedValue, -, -, hbinds, hlink, hrender⟩ := h
  have hbound := (keeps_binds d.tables).conforms hv hbinds
  have hlinked := (keeps_mapReferences _).conforms hbound hlink
  exact (keeps_rendersTo linked.globals).conforms hlinked hrender

theorem becomes (h : d.Resolves v w) : v.Becomes w := by
  obtain ⟨bound, linked, boundValue, linkedValue, -, -, ⟨depth, path, hbind⟩, hlink, ⟨s, -, rfl⟩⟩ := h
  cases v with
  | text t =>
      cases hbind
      cases hlink
      exact .text t s
  | array items =>
      obtain ⟨items', -, rfl⟩ := map_eq_ok_iff.mp hbind
      obtain ⟨items'', -, rfl⟩ := map_eq_ok_iff.mp hlink
      exact .other (by simp) rfl rfl
  | «instance» row =>
      obtain ⟨row', -, rfl⟩ := map_eq_ok_iff.mp hbind
      obtain ⟨row'', -, rfl⟩ := map_eq_ok_iff.mp hlink
      exact .other (by simp) rfl rfl
  | reference struct key target =>
      cases hbind
      obtain ⟨row, -, rfl⟩ := mapReferences_reference_eq_ok_iff.mp hlink
      exact .other (by simp) rfl rfl
  | _ =>
      cases hbind
      cases hlink
      exact .other (by simp) rfl rfl

end Document.Resolves

namespace Document

variable {d e bound linked : Document} {row row' : Instance} {t : Table} {f : Field}

/-! ## Rows -/

/-- Linking and rendering a row changes its values one by one. -/
theorem exists_get?_renderedRow {follow : RowName → Except Fault Instance} {name : String} {v : Value}
    (hv : row.get? name = some v) (h : mapRow follow row = .ok row') (globals : Entries Value) :
    ∃ u w, mapReferences follow v = .ok u ∧ RendersTo globals u w ∧
      (renderedRow globals row').get? name = some w := by
  have hlinked := mapFields_eq_ok_iff.mp (mapRow_eq_ok_iff.mp h).2.1
  obtain ⟨u, hu, hvu⟩ := hlinked.get?_eq_some_left hv
  obtain ⟨w, hw, huw⟩ := (pointwise_renderedRow globals row').get?_eq_some_left hu
  exact ⟨u, w, hvu, huw, hw⟩

/-- A field of a resolved row holds what the passes make of the value that filled it. -/
theorem exists_fills_of_resolvesRow (ht : d.table? row.struct = some t) (hfields : t.fieldNames.Nodup)
    (h : d.ResolvesRow row row') (hf : f ∈ t.fields) :
    ∃ v w, t.Fills d.tables row f v ∧ d.Resolves v w ∧ row'.get? f.name = some w := by
  obtain ⟨bound, linked, boundRow, linkedRow, hbound, hlinked, hbind, hlink, rfl⟩ := h
  obtain ⟨v, b, hfills, hbinds, hb⟩ := exists_fills_of_bindWithin ht hfields hbind hf
  obtain ⟨u, w, hbu, huw, hw⟩ := exists_get?_renderedRow hb hlink linked.globals
  exact ⟨v, w, hfills, ⟨bound, linked, b, u, hbound, hlinked, hbinds, hbu, huw⟩, hw⟩

/-- Every table of a resolved document was one of the document, with the same fields and the rows
from which its own were made. -/
theorem exists_table?_of_resolve (h : d.resolve = .ok e) {struct : String} {u : Table}
    (hu : e.table? struct = some u) :
    ∃ t, d.table? struct = some t ∧ u.fields = t.fields ∧
      List.Forall₂ d.ResolvesRow t.rows u.rows := by
  have hname : struct ∈ e.structNames := Entries.exists_get?_iff.mp ⟨u, hu⟩
  rw [structNames_resolve h] at hname
  obtain ⟨t, ht⟩ := Entries.exists_get?_iff.mpr hname
  obtain ⟨u', hu', hfields, -, hrows⟩ := resolved_table? h ht
  rw [hu] at hu'
  cases hu'
  exact ⟨t, ht, hfields, hrows⟩

/-! ## Inline rows -/

theorem roots_buildIndexes (d : Document) : d.buildIndexes.roots = d.roots := by
  unfold roots buildIndexes
  simp only [Entries.mapValues, List.flatMap_map]
  rfl

/-- In each field of its struct, an inline row that a resolved document shows holds what the passes
make of an argument that the field accepts, of the field's default, or of null. -/
theorem origin_of_shows (hd : d.Written) (hdeclared : d.WellDeclared) (h : d.resolve = .ok e)
    (hrow : e.Shows (.instance row')) :
    ∃ t, e.table? row'.struct = some t ∧ ∀ f ∈ t.fields, ∃ v w, d.Resolves v w ∧
      row'.get? f.name = some w ∧ (f.Accepts v ∨ f.default = some v ∨ v = .null) := by
  obtain ⟨bound, linked, hbound, hlinked, rfl⟩ := resolve_eq_ok_iff.mp h
  obtain ⟨_, hshown, hrendered⟩ := render_origin hrow
  obtain ⟨linkedRow, rfl, rfl⟩ := hrendered.eq_instance
  obtain ⟨_, ⟨root, hroot, hheld⟩, hmapped⟩ := link_origin hlinked hshown
  obtain ⟨boundRow, rfl, hlink⟩ := eq_instance_of_mapReferences hmapped
  rw [roots_buildIndexes] at hroot
  have hcall := fromCall_of_bind hd hbound ⟨root, hroot, hheld⟩
  obtain ⟨t, ht, horigin⟩ := hcall.origin hdeclared.nodup
  obtain ⟨u, hu, hfields, -, -⟩ := resolved_table? h ht
  refine ⟨u, ?_, ?_⟩
  · rw [struct_renderedRow, ← (mapRow_eq_ok_iff.mp hlink).1]
    exact hu
  · intro f hf
    rw [hfields] at hf
    obtain ⟨v, b, hbinds, hb, hv⟩ := horigin f hf
    obtain ⟨u, w, hbu, huw, hw⟩ := exists_get?_renderedRow hb hlink linked.globals
    exact ⟨v, w, ⟨bound, linked, b, u, hbound, hlinked, hbinds, hbu, huw⟩, hw, hv⟩

end Document

end RowConfig
