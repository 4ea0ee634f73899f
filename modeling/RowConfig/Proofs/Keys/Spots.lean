import RowConfig.Proofs.Keys.References
import RowConfig.Proofs.Passing

/-!
# Values through the passes, spot by spot

A value stands in a global or in a field of a row (`Spot`). Each pass keeps the spot and changes
what stands there; a reference stays a reference by the same key, alone or as an element of an array
(`Document.exists_reference_of_resolve`), and in the end holds the row that the key finds.
-/

namespace RowConfig

open Binding Linking Value

/-- A place for a value: a global, or a field of the row at a position among those of a struct. -/
inductive Spot where
  | global (name : String)
  | field (struct : String) (row : Nat) (name : String)

/-- The value that stands in a spot. -/
def Document.at? (d : Document) : Spot → Option Value
  | .global name => d.global? name
  | .field struct i name => (d.table? struct).bind fun t => t.rows[i]?.bind (·.get? name)

/-! ## Elements -/

namespace Value

variable {v w : Value} {element : Option Nat} {struct key : String} {target : Option Instance}

theorem holds_of_element? (h : v.element? element = some w) : v.Holds w := by
  cases element with
  | none =>
      cases h
      exact .refl v
  | some i =>
      cases v with
      | array items => exact .of_part (List.mem_of_getElem? h) (.refl w)
      | _ => cases h

/-- Binding keeps references. -/
theorem element?_of_binds {tables : Entries Table} (h : Binds tables v w)
    (hr : v.element? element = some (.reference struct key target)) :
    w.element? element = some (.reference struct key target) := by
  obtain ⟨depth, path, h⟩ := h
  cases element with
  | none =>
      cases hr
      cases h
      rfl
  | some i =>
      cases v with
      | array items =>
          obtain ⟨items', hitems, rfl⟩ := map_eq_ok_iff.mp h
          obtain ⟨w, hw, hbind⟩ := exists_getElem?_right (mapInstances_items.mp hitems) hr
          cases hbind
          exact hw
      | _ => cases hr

/-- Linking gives references the rows that are followed. -/
theorem exists_element?_of_mapReferences {follow : RowName → Except Fault Instance}
    (h : mapReferences follow v = .ok w)
    (hr : v.element? element = some (.reference struct key target)) :
    ∃ row, w.element? element = some (.reference struct key (some row)) := by
  have hreference : ∀ {w}, mapReferences follow (.reference struct key target) = .ok w →
      ∃ row, w = .reference struct key (some row) := by
    intro w hw
    obtain ⟨row, -, heq⟩ := mapReferences_reference_eq_ok_iff.mp hw
    exact ⟨row, heq⟩
  cases element with
  | none =>
      cases hr
      obtain ⟨row, rfl⟩ := hreference h
      exact ⟨row, rfl⟩
  | some i =>
      cases v with
      | array items =>
          obtain ⟨items', hitems, rfl⟩ := map_eq_ok_iff.mp h
          obtain ⟨u, hu, hlink⟩ := exists_getElem?_right (Linking.mapItems_eq_ok_iff.mp hitems) hr
          obtain ⟨row, rfl⟩ := hreference hlink
          exact ⟨row, hu⟩
      | _ => cases hr

/-- Rendering keeps references and renders the rows that they hold. -/
theorem exists_element?_of_rendersTo {globals : Entries Value} {row : Instance}
    (h : RendersTo globals v w) (hr : v.element? element = some (.reference struct key (some row))) :
    ∃ row, w.element? element = some (.reference struct key (some row)) := by
  obtain ⟨s, -, rfl⟩ := h
  cases element with
  | none =>
      cases hr
      exact ⟨_, rfl⟩
  | some i =>
      cases v with
      | array items =>
          rw [rendered, renderedItems_eq_map]
          refine ⟨renderedRow s.globals row, ?_⟩
          show (items.map (rendered s))[i]? = _
          rw [List.getElem?_map, show items[i]? = _ from hr]
          rfl
      | _ => cases hr

end Value

/-! ## Spots -/

namespace Document

variable {d e bound : Document} {spot : Spot} {v : Value}

theorem mem_roots_of_at? (h : d.at? spot = some v) : v ∈ d.roots := by
  cases spot with
  | global name => exact mem_roots.mpr (.inl (Entries.mem_values_of_mem (Entries.mem_of_get? h)))
  | field struct i name =>
      obtain ⟨t, ht, h⟩ := Option.bind_eq_some_iff.mp h
      obtain ⟨row, hrow, hv⟩ := Option.bind_eq_some_iff.mp h
      exact mem_roots.mpr (.inr ⟨(struct, t), Entries.mem_of_get? ht, row, List.mem_of_getElem? hrow,
        Entries.mem_values_of_mem (Entries.mem_of_get? hv)⟩)

theorem at?_buildIndexes (d : Document) (spot : Spot) : d.buildIndexes.at? spot = d.at? spot := by
  cases spot with
  | global name => rfl
  | field struct i name =>
      have htable : d.buildIndexes.table? struct = (d.table? struct).map Table.buildIndex :=
        Entries.get?_mapValues Table.buildIndex d.tables struct
      rw [at?, at?, htable]
      cases d.table? struct <;> rfl

/-- A value that a row gives a field stays in the field, bound. -/
theorem exists_get?_of_bindInstance (hd : d.Written) (hdeclared : d.WellDeclared)
    {struct name : String}
    {t : Table} (ht : d.table? struct = some t) {row row' : Instance} (hrow : row ∈ t.rows)
    (hbind : bindInstance d.tables row = .ok row') (hv : row.get? name = some v) :
    ∃ w, row'.get? name = some w ∧ Binds d.tables v w := by
  have hwritten := (hd.table? ht).rows row hrow
  have ht' : d.table? row.struct = some t := by
    rw [hwritten.struct_eq, (hd.table? ht).name_eq]
    exact ht
  have hname : name ∈ t.fieldNames :=
    hwritten.subset (Entries.mem_names_of_mem (Entries.mem_of_get? hv))
  obtain ⟨f, hf, rfl⟩ := List.mem_map.mp hname
  obtain ⟨u, w, hfills, hbinds, hw⟩ :=
    exists_fills_of_bindWithin ht' (hdeclared.nodup _ t ht) hbind hf
  cases hfills with
  | present _ hget =>
      rw [hv] at hget
      cases hget
      exact ⟨w, hw, hbinds⟩
  | typed hcall _ _ =>
      rw [hwritten.bound] at hcall
      cases hcall
  | absent hnone _ =>
      rw [hnone hwritten.bound] at hv
      cases hv

theorem exists_at?_of_bind (hd : d.Written) (hdeclared : d.WellDeclared) (hbind : d.bind = .ok bound)
    (hv : d.at? spot = some v) : ∃ w, bound.at? spot = some w ∧ Binds d.tables v w := by
  obtain ⟨hglobals, htables⟩ := pointwise_of_bind hbind
  cases spot with
  | global name =>
      obtain ⟨w, hw, hvw⟩ := hglobals.get?_eq_some_left hv
      exact ⟨w, hw, maxDepth, [], hvw⟩
  | field struct i name =>
      obtain ⟨t, ht, hv⟩ := Option.bind_eq_some_iff.mp hv
      obtain ⟨row, hrow, hv⟩ := Option.bind_eq_some_iff.mp hv
      obtain ⟨_, ht', rows, hrows, rfl⟩ := htables.get?_eq_some_left ht
      obtain ⟨row', hrow', hbound⟩ := exists_getElem?_right (bindRows_eq_ok_iff.mp hrows) hrow
      obtain ⟨w, hw, hvw⟩ :=
        exists_get?_of_bindInstance hd hdeclared ht (List.mem_of_getElem? hrow) hbound hv
      refine ⟨w, ?_, hvw⟩
      rw [at?, Document.table?, ht', Option.bind_some, hrow', Option.bind_some, hw]

theorem exists_at?_of_link (h : d.link = .ok e) (hv : d.at? spot = some v) :
    ∃ w, e.at? spot = some w ∧ mapReferences (follow d []) v = .ok w := by
  obtain ⟨hglobals, htables⟩ := link_eq_ok_iff.mp h
  cases spot with
  | global name => exact hglobals.get?_eq_some_left hv
  | field struct i name =>
      obtain ⟨t, ht, hv⟩ := Option.bind_eq_some_iff.mp hv
      obtain ⟨row, hrow, hv⟩ := Option.bind_eq_some_iff.mp hv
      obtain ⟨_, ht', rows, hrows, rfl⟩ := htables.get?_eq_some_left ht
      obtain ⟨row', hrow', hlinked⟩ := exists_getElem?_right (linkRows_eq_ok_iff.mp hrows) hrow
      have hfields := mapFields_eq_ok_iff.mp (mapRow_eq_ok_iff.mp hlinked).2.1
      obtain ⟨w, hw, hvw⟩ := hfields.get?_eq_some_left hv
      refine ⟨w, ?_, hvw⟩
      rw [at?, Document.table?, ht', Option.bind_some, hrow', Option.bind_some]
      exact hw

theorem exists_at?_render (hv : d.at? spot = some v) :
    ∃ w, d.render.at? spot = some w ∧ RendersTo d.globals v w := by
  cases spot with
  | global name =>
      obtain ⟨w, hw, rfl⟩ := (Entries.pointwise_mapValues _ d.globals).get?_eq_some_left hv
      exact ⟨_, hw, _, rfl, rfl⟩
  | field struct i name =>
      obtain ⟨t, ht, hv⟩ := Option.bind_eq_some_iff.mp hv
      obtain ⟨row, hrow, hv⟩ := Option.bind_eq_some_iff.mp hv
      obtain ⟨w, hw, hvw⟩ := (pointwise_renderedRow d.globals row).get?_eq_some_left hv
      refine ⟨w, ?_, hvw⟩
      rw [at?, table?_render, ht, Option.map_some, Option.bind_some, Table.rendered,
        List.getElem?_map, hrow, Option.map_some, Option.bind_some]
      exact hw

/-- A reference in a spot stays there, and holds the row that its key finds in the end. -/
theorem exists_reference_of_resolve (hd : d.Written) (hdeclared : d.WellDeclared)
    (h : d.resolve = .ok e) (hv : d.at? spot = some v) {element : Option Nat} {struct key : String}
    {target : Option Instance} (hr : v.element? element = some (.reference struct key target)) :
    ∃ w row, e.at? spot = some w ∧ w.element? element = some (.reference struct key (some row)) ∧
      findRow e (struct, key) = .ok row := by
  obtain ⟨bound, linked, hbound, hlinked, rfl⟩ := resolve_eq_ok_iff.mp h
  obtain ⟨b, hb, hvb⟩ := exists_at?_of_bind hd hdeclared hbound hv
  rw [← at?_buildIndexes] at hb
  obtain ⟨l, hl, hbl⟩ := exists_at?_of_link hlinked hb
  obtain ⟨w, hw, hlw⟩ := exists_at?_render hl
  obtain ⟨_, hlr⟩ := exists_element?_of_mapReferences hbl (element?_of_binds hvb hr)
  obtain ⟨row, hwr⟩ := exists_element?_of_rendersTo hlw hlr
  refine ⟨w, row, hw, hwr, ?_⟩
  -- what the linked document showed before was the row that it finds
  have hshown : linked.render.Shows (.reference struct key (some row)) :=
    ⟨w, mem_roots_of_at? hw, (holds_of_element? hwr).shows⟩
  obtain ⟨u, hu, hrendered⟩ := render_origin hshown
  obtain ⟨old, rfl, heq⟩ := hrendered.eq_reference
  obtain ⟨found, hfound, rfl⟩ := target_of_link hlinked hu
  cases heq
  exact findRow_render hfound

end Document

end RowConfig
