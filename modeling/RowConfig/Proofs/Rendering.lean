import RowConfig.Rendering
import RowConfig.Proofs.Contents

/-!
# What rendering does

Rendering changes texts and nothing else. Fields are rendered one after another in scopes that
differ in the fields rendered so far, but all of these scopes have the same globals; so whatever a
rendered document shows is the rendered form of something that it showed before, in some scope over
its globals (`Document.render_origin`). Rows render alike wherever they stand.
-/

namespace RowConfig

namespace Value

/-- `w` is `v`, rendered in some scope over the given globals. -/
def RendersTo (globals : Entries Value) (v w : Value) : Prop :=
  ∃ s : Scope, s.globals = globals ∧ rendered s v = w

theorem renderedItems_eq_map (s : Scope) (items : List Value) :
    renderedItems s items = items.map (rendered s) := by
  induction items with
  | nil => rfl
  | cons v vs ih => rw [renderedItems, ih, List.map_cons]

/-- Rendering fields keeps what is done and renders each further field over the same globals. -/
theorem renderedFields_eq (globals done fields : Entries Value) :
    ∃ fields', renderedFields globals done fields = done ++ fields' ∧
      Entries.Pointwise (RendersTo globals) fields fields' := by
  induction fields generalizing done with
  | nil => exact ⟨[], by simp [renderedFields], .nil⟩
  | cons field fields ih =>
      obtain ⟨name, v⟩ := field
      let scope : Scope := ⟨some (done ++ (name, v) :: fields), globals⟩
      obtain ⟨fields', heq, hfields⟩ := ih (done ++ [(name, rendered scope v)])
      refine ⟨(name, rendered scope v) :: fields', ?_, .cons ⟨rfl, scope, rfl, rfl⟩ hfields⟩
      rw [renderedFields, heq, List.append_assoc]
      rfl

/-- The fields of a rendered row are the rendered fields of the row. -/
theorem pointwise_renderedRow (globals : Entries Value) (row : Instance) :
    Entries.Pointwise (RendersTo globals) row.fields (renderedRow globals row).fields := by
  obtain ⟨struct, fields, call⟩ := row
  obtain ⟨fields', heq, hfields⟩ := renderedFields_eq globals [] fields
  rw [renderedRow, heq]
  exact hfields

@[simp] theorem struct_renderedRow (globals : Entries Value) (row : Instance) :
    (renderedRow globals row).struct = row.struct := by
  cases row
  rfl

@[simp] theorem call_renderedRow (globals : Entries Value) (row : Instance) :
    (renderedRow globals row).call = row.call := by
  cases row
  rfl

@[simp] theorem names_renderedRow (globals : Entries Value) (row : Instance) :
    Entries.names (renderedRow globals row).fields = Entries.names row.fields :=
  (pointwise_renderedRow globals row).names_eq.symm

theorem renderedTarget_eq_map (globals : Entries Value) (target : Option Instance) :
    renderedTarget globals target = target.map (renderedRow globals) := by
  cases target <;> rfl

/-- What a rendered value shows one step further in is what the value showed, rendered. -/
theorem contents_rendered (s : Scope) (v : Value) :
    List.Forall₂ (RendersTo s.globals) v.contents (rendered s v).contents := by
  cases v with
  | array items =>
      rw [rendered, renderedItems_eq_map]
      show List.Forall₂ _ items (items.map (rendered s))
      rw [List.forall₂_map_right_iff]
      exact List.forall₂_same.mpr fun _ _ => ⟨s, rfl, rfl⟩
  | «instance» row => exact (pointwise_renderedRow s.globals row).values
  | reference struct key target =>
      cases target with
      | none => exact .nil
      | some row => exact (pointwise_renderedRow s.globals row).values
  | _ => exact .nil

namespace RendersTo

variable {globals : Entries Value} {v : Value}

/-- Only a reference renders to a reference; the row that it holds is rendered by itself. -/
theorem eq_reference {struct key : String} {target : Option Instance}
    (h : RendersTo globals v (.reference struct key target)) :
    ∃ old, v = .reference struct key old ∧ target = old.map (renderedRow globals) := by
  obtain ⟨s, rfl, h⟩ := h
  cases v with
  | reference struct' key' old =>
      rw [rendered, renderedTarget_eq_map] at h
      cases h
      exact ⟨old, rfl, rfl⟩
  | _ => simp [rendered] at h

/-- Only an instance renders to an instance. -/
theorem eq_instance {row' : Instance} (h : RendersTo globals v (.instance row')) :
    ∃ row, v = .instance row ∧ row' = renderedRow globals row := by
  obtain ⟨s, rfl, h⟩ := h
  cases v with
  | «instance» row =>
      rw [rendered] at h
      cases h
      exact ⟨row, rfl, rfl⟩
  | _ => simp [rendered] at h

/-- A rendered text is finished. -/
theorem eq_plain {t : Text} (h : RendersTo globals v (.text t)) : ∃ content, t = .plain content := by
  obtain ⟨s, rfl, h⟩ := h
  cases v with
  | text t' =>
      rw [rendered] at h
      cases h
      cases t' with
      | plain content => exact ⟨content, rfl⟩
      | template source escapes => exact ⟨_, rfl⟩
  | _ => simp [rendered] at h

end RendersTo

end Value

open Value

/-- A row that a table finds is found rendered in the rendered table. -/
theorem Table.find?_rendered (globals : Entries Value) (t : Table) (key : String) :
    (t.rendered globals).find? key = (t.find? key).map (renderedRow globals) := by
  simp only [find?, rendered, List.getElem?_map]
  cases Entries.get? t.index key <;> rfl

namespace Document

theorem table?_render (d : Document) (name : String) :
    d.render.table? name = (d.table? name).map (Table.rendered d.globals) :=
  Entries.get?_mapValues (Table.rendered d.globals) d.tables name

/-- Every root of a rendered document is a rendered root. -/
theorem exists_root_of_render {d : Document} {w : Value} (hw : w ∈ d.render.roots) :
    ∃ v ∈ d.roots, RendersTo d.globals v w := by
  rcases mem_roots.mp hw with hw | ⟨entry', hentry', row', hrow', hw⟩
  · obtain ⟨v, hv, heq⟩ := exists_mem_left (Entries.pointwise_mapValues _ d.globals).values hw
    exact ⟨v, mem_roots.mpr (.inl hv), ⟨_, rfl, heq⟩⟩
  · obtain ⟨entry, hentry, -, heq⟩ := exists_mem_left (Entries.pointwise_mapValues _ d.tables) hentry'
    rw [← heq] at hrow'
    obtain ⟨row, hrow, rfl⟩ := List.mem_map.mp hrow'
    obtain ⟨v, hv, hrendered⟩ := exists_mem_left (pointwise_renderedRow d.globals row).values hw
    exact ⟨v, mem_roots.mpr (.inr ⟨entry, hentry, row, hrow, hv⟩), hrendered⟩

/-- Everything that a rendered document shows is the rendered form of something that it showed. -/
theorem render_origin {d : Document} {w : Value} (hw : d.render.Shows w) :
    ∃ v, d.Shows v ∧ RendersTo d.globals v w := by
  obtain ⟨root, hroot, hshows⟩ := hw
  induction hshows with
  | refl =>
      obtain ⟨v, hv, hrendered⟩ := exists_root_of_render hroot
      exact ⟨v, ⟨v, hv, .refl v⟩, hrendered⟩
  | tail _ hstep ih =>
      obtain ⟨v, ⟨root', hroot', hv⟩, s, hs, rfl⟩ := ih
      obtain ⟨v', hv', hrendered⟩ := exists_mem_left (contents_rendered s v) hstep
      rw [hs] at hrendered
      exact ⟨v', ⟨root', hroot', hv.tail hv'⟩, hrendered⟩

end Document

end RowConfig
