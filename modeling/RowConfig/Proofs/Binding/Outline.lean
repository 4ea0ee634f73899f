import RowConfig.Proofs.Binding.Exact
import RowConfig.Proofs.Linking.Unlinked
import RowConfig.Proofs.Rendering

/-!
# What binding looks at

Once a value is bound, binding looks only at its outline: at arrays, at instances and at the names
of their fields, but neither at texts nor at the rows that references hold. Linking and rendering
keep outlines, so a document that was bound stays as it is when it is bound again after them
(`Document.bind_of_outline`).
-/

namespace RowConfig

open Binding

namespace Value

mutual

/-- The arrays and instances of a value, everything else in it left out. -/
def outline : Value → Value
  | .array items => .array (outlineItems items)
  | .instance row => .instance (outlineRow row)
  | .null | .bool _ | .int _ | .float _ | .text _ | .date _ | .time _ | .dateTime _
  | .reference _ _ _ => .null

def outlineItems : List Value → List Value
  | [] => []
  | v :: vs => outline v :: outlineItems vs

def outlineRow : Record Value → Record Value
  | ⟨struct, fields, call⟩ => ⟨struct, outlineFields fields, call⟩

def outlineFields : List (String × Value) → List (String × Value)
  | [] => []
  | (name, v) :: more => (name, outline v) :: outlineFields more

end

theorem outlineItems_eq_map (items : List Value) : outlineItems items = items.map outline := by
  induction items with
  | nil => rfl
  | cons v vs ih => rw [outlineItems, ih, List.map_cons]

theorem outlineFields_eq_mapValues (fields : Entries Value) :
    outlineFields fields = Entries.mapValues outline fields := by
  induction fields with
  | nil => rfl
  | cons field fields ih =>
      obtain ⟨name, v⟩ := field
      rw [outlineFields, ih]
      rfl

end Value

open Value

/-- Lists that are mapped to the same list have pairwise the same images. -/
theorem forall₂_of_map_eq {α β γ : Type} {f : α → γ} {g : β → γ} {as : List α} {bs : List β}
    (h : as.map f = bs.map g) : List.Forall₂ (fun a b => f a = g b) as bs := by
  rw [← List.forall₂_eq_eq_eq, List.forall₂_map_left_iff, List.forall₂_map_right_iff] at h
  exact h

theorem Entries.pointwise_of_mapValues_eq {α β γ : Type} {f : α → γ} {g : β → γ} {es : Entries α}
    {fs : Entries β} (h : mapValues f es = mapValues g fs) :
    Pointwise (fun v w => f v = g w) es fs :=
  (forall₂_of_map_eq h).imp fun _ _ heq => Prod.ext_iff.mp heq

/-- Rows of the same outline have the same struct, the same call, and fields of the same names whose
values have the same outlines. -/
theorem pointwise_of_outlineRow {row row' : Instance} (h : outlineRow row' = outlineRow row) :
    row'.struct = row.struct ∧ row'.call = row.call ∧
      Entries.Pointwise (fun v w => v.outline = w.outline) row.fields row'.fields := by
  obtain ⟨struct, fields, call⟩ := row
  obtain ⟨struct', fields', call'⟩ := row'
  rw [outlineRow, outlineRow, outlineFields_eq_mapValues, outlineFields_eq_mapValues,
    Record.mk.injEq] at h
  exact ⟨h.1, h.2.2, Entries.pointwise_of_mapValues_eq h.2.1.symm⟩

/-! ## Linking and rendering keep outlines -/

namespace Value

mutual

/-- The outline has no targets. -/
theorem outline_unlinked : ∀ v : Value, v.unlinked.outline = v.outline
  | .array items => by rw [unlinked, outline, outline, outlineItems_unlinkedItems items]
  | .instance row => by rw [unlinked, outline, outline, outlineRow_unlinkedRow row]
  | .null | .bool _ | .int _ | .float _ | .text _ | .date _ | .time _ | .dateTime _
  | .reference _ _ _ => rfl

theorem outlineItems_unlinkedItems : ∀ items : List Value,
    outlineItems (unlinkedItems items) = outlineItems items
  | [] => rfl
  | v :: vs => by
      rw [unlinkedItems, outlineItems, outlineItems, outline_unlinked v,
        outlineItems_unlinkedItems vs]

theorem outlineRow_unlinkedRow : ∀ row : Record Value, outlineRow (unlinkedRow row) = outlineRow row
  | ⟨struct, fields, call⟩ => by
      rw [unlinkedRow, outlineRow, outlineRow, outlineFields_unlinkedFields fields]

theorem outlineFields_unlinkedFields : ∀ fields : List (String × Value),
    outlineFields (unlinkedFields fields) = outlineFields fields
  | [] => rfl
  | (name, v) :: more => by
      rw [unlinkedFields, outlineFields, outlineFields, outline_unlinked v,
        outlineFields_unlinkedFields more]

end

end Value

theorem outline_rendered (s : Scope) (v : Value) : (v.rendered s).outline = v.outline := by
  induction v using Value.contents_induction generalizing s with
  | step v ih =>
      cases v with
      | array items =>
          rw [rendered, outline, outline, renderedItems_eq_map, outlineItems_eq_map,
            outlineItems_eq_map, List.map_map]
          congr 1
          exact List.map_congr_left fun p hp => ih p hp s
      | «instance» row =>
          obtain ⟨struct, fields, call⟩ := row
          have hfields := pointwise_renderedRow s.globals ⟨struct, fields, call⟩
          rw [rendered, outline, outline, renderedRow, outlineRow, outlineRow,
            outlineFields_eq_mapValues, outlineFields_eq_mapValues]
          congr 2
          refine (hfields.mapValues_eq ?_).symm
          rintro p hp _ ⟨s', -, rfl⟩
          exact (ih p hp s').symm
      | _ => rfl

theorem outlineRow_renderedRow (globals : Entries Value) (row : Instance) :
    outlineRow (renderedRow globals row) = outlineRow row := by
  have hinstance := outline_rendered ⟨none, globals⟩ (.instance row)
  exact Value.instance.inj hinstance

/-! ## Bound rows stay -/

namespace Binding

variable {tables tables' : Entries Table} {row row' : Instance}

theorem mapInstances_of_outline {bind bind' : Instance → Except Fault Instance}
    (hbind : ∀ row bound again, bind row = .ok bound → outlineRow again = outlineRow bound →
      bind' again = .ok again)
    {v w again : Value} (h : mapInstances bind v = .ok w) (houtline : again.outline = w.outline) :
    mapInstances bind' again = .ok again := by
  induction v using Value.contents_induction generalizing w again with
  | step v ih =>
      cases v with
      | array items =>
          obtain ⟨items', hitems, rfl⟩ := map_eq_ok_iff.mp h
          cases again with
          | array agains =>
              rw [outline, outline, outlineItems_eq_map, outlineItems_eq_map,
                Value.array.injEq] at houtline
              refine map_eq_ok_iff.mpr ⟨agains, mapInstances_items.mpr ?_, rfl⟩
              rw [List.forall₂_same]
              intro q hq
              obtain ⟨p', hp', houtline⟩ := exists_mem_left (forall₂_of_map_eq houtline.symm) hq
              obtain ⟨p, hp, hpp'⟩ := exists_mem_left (mapInstances_items.mp hitems) hp'
              exact ih p hp hpp' houtline.symm
          | _ => cases houtline
      | «instance» row =>
          obtain ⟨bound, hbound, rfl⟩ := map_eq_ok_iff.mp h
          cases again with
          | «instance» again =>
              refine map_eq_ok_iff.mpr ⟨again, ?_, rfl⟩
              exact hbind row bound again hbound (Value.instance.inj houtline)
          | _ => cases houtline
      | _ =>
          -- nothing is bound where neither is an array or an instance
          cases h
          cases again with
          | array _ => cases houtline
          | «instance» _ => cases houtline
          | _ => rfl

/-- What has the outline of a bound instance stays as it is when it is bound. -/
theorem bindWithin_of_outline (hsame : SameDeclared tables tables') {depth : Nat}
    {path : List String} (path' : List String) {again : Instance}
    (h : bindWithin tables depth path row = .ok row')
    (houtline : outlineRow again = outlineRow row') :
    bindWithin tables' depth path' again = .ok again := by
  induction depth generalizing path path' row row' again with
  | zero => cases h
  | succ depth ih =>
      obtain ⟨mid, fields, harranged, hbound, rfl⟩ := bindWithin_succ_eq_ok_iff.mp h
      obtain ⟨hstruct, hcall, hfields⟩ := pointwise_of_outlineRow houtline
      have hagain : again = { mid with fields := again.fields } := by
        obtain ⟨struct, values, call⟩ := again
        exact congrArg₂ (fun struct call => Record.mk struct values call) hstruct hcall
      have hnames : Entries.names again.fields = Entries.names mid.fields :=
        hfields.names_eq.symm.trans hbound.names_eq.symm
      refine bindWithin_succ_eq_ok_iff.mpr ⟨again, again.fields, ?_, ?_, rfl⟩
      · rw [hagain]
        exact arrangeInstance_of_arrangeInstance hsame harranged hnames
      · refine List.forall₂_same.mpr fun e he => ⟨rfl, ?_⟩
        obtain ⟨w, hw, houtline⟩ := exists_mem_left hfields.values (Entries.mem_values_of_mem he)
        obtain ⟨v, -, hv⟩ := exists_mem_left hbound.values hw
        exact mapInstances_of_outline (fun _ _ _ hbind houtline => ih _ hbind houtline) hv
          houtline.symm

end Binding

/-! ## Bound documents stay -/

def Table.outline (t : Table) : Table := { t with rows := t.rows.map outlineRow, index := [] }

namespace Document

variable {d e c : Document}

/-- What binding looks at in a document that is bound. -/
def outline (d : Document) : Document :=
  ⟨Entries.mapValues Value.outline d.globals, Entries.mapValues Table.outline d.tables⟩

theorem outline_buildIndexes (d : Document) : d.buildIndexes.outline = d.outline := by
  unfold outline buildIndexes
  congr 1
  rw [Entries.mapValues, Entries.mapValues, List.map_map]
  rfl

theorem outline_unlinked (d : Document) : d.unlinked.outline = d.outline := by
  unfold outline unlinked
  simp only [Entries.mapValues, List.map_map, Function.comp_def, Value.outline_unlinked,
    Table.unlinked, Table.outline, outlineRow_unlinkedRow]

/-- Linking changes nothing but targets. -/
theorem outline_of_link (h : d.link = .ok e) : e.outline = d.outline := by
  rw [← outline_unlinked e, unlinked_of_link h, outline_unlinked d]

theorem outline_render (d : Document) : d.render.outline = d.outline := by
  unfold outline render
  simp only [Entries.mapValues, List.map_map, Function.comp_def, outline_rendered, Table.rendered,
    Table.outline, outlineRow_renderedRow]

theorem sameDeclared_of_outline (h : e.outline = d.outline) : SameDeclared d.tables e.tables := by
  have htables := Entries.pointwise_of_mapValues_eq (congrArg Document.tables h)
  intro name
  have hrel := htables.get?_rel name
  cases ht : Entries.get? e.tables name with
  | none =>
      cases hu : Entries.get? d.tables name with
      | none => rfl
      | some u =>
          rw [ht, hu] at hrel
          cases hrel
  | some t =>
      cases hu : Entries.get? d.tables name with
      | none =>
          rw [ht, hu] at hrel
          cases hrel
      | some u =>
          rw [ht, hu] at hrel
          cases hrel with
          | some heq =>
              have hfields : t.outline.fields = u.outline.fields := congrArg Table.fields heq
              exact congrArg some hfields

/-- What has the outline of a bound document is bound already. -/
theorem bind_of_outline (h : d.bind = .ok e) (houtline : c.outline = e.outline) : c.bind = .ok c := by
  obtain ⟨hglobals, htables⟩ := pointwise_of_bind h
  have hsame : SameDeclared d.tables c.tables := fun name =>
    (sameDeclared_of_outline houtline name).trans (sameDeclared_of_bind h name)
  have hagain : ∀ row bound again, bindInstance d.tables row = .ok bound →
      outlineRow again = outlineRow bound → bindInstance c.tables again = .ok again :=
    fun _ _ _ hbind houtline => bindWithin_of_outline hsame [] hbind houtline
  have hglobals' : Entries.tryMapValues (bindValue c.tables) c.globals = .ok c.globals := by
    refine Entries.tryMapValues_eq_ok_iff.mpr (List.forall₂_same.mpr fun entry hentry => ⟨rfl, ?_⟩)
    obtain ⟨w, hw, heq⟩ := exists_mem_left
      (Entries.pointwise_of_mapValues_eq (congrArg Document.globals houtline.symm)).values
      (Entries.mem_values_of_mem hentry)
    obtain ⟨v, -, hv⟩ := exists_mem_left hglobals.values hw
    exact mapInstances_of_outline hagain hv heq.symm
  unfold bind
  rw [hglobals']
  refine map_eq_ok_iff.mpr ⟨c.tables, Entries.tryMapValues_eq_ok_iff.mpr ?_, rfl⟩
  refine List.forall₂_same.mpr fun entry hentry => ⟨rfl, map_eq_ok_iff.mpr ⟨entry.2.rows, ?_, rfl⟩⟩
  obtain ⟨u, hu, heq⟩ := exists_mem_left
    (Entries.pointwise_of_mapValues_eq (congrArg Document.tables houtline.symm)).values
    (Entries.mem_values_of_mem hentry)
  obtain ⟨t, -, rows, hrows, rfl⟩ := exists_mem_left htables.values hu
  refine bindRows_eq_ok_iff.mpr (List.forall₂_same.mpr fun again hagainrow => ?_)
  obtain ⟨bound, hbound, heq⟩ :=
    exists_mem_left (forall₂_of_map_eq (congrArg Table.rows heq)) hagainrow
  obtain ⟨row, -, hrow⟩ := exists_mem_left (bindRows_eq_ok_iff.mp hrows) hbound
  exact hagain row bound again hrow heq.symm

end Document

end RowConfig
