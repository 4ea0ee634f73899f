import RowConfig.Proofs.Binding
import RowConfig.Proofs.Resolution

/-!
# Nothing is left to resolve

In a compiled document every instance is complete, every reference has a target and every text is
finished (`resolved_of_compile`), wherever it is reached. Binding completes what is written in the
document; linking copies complete rows; rendering finishes the texts of all of them, copies
included.
-/

namespace RowConfig

open Linking Value

/-- Nothing that the document shows is left to resolve. -/
structure Document.Resolved (d : Document) : Prop where
  /-- Instances and rows are bound, and have the fields of their struct in their order. -/
  complete : ∀ row, d.ShowsRow row →
    row.isBound ∧ ∃ t, d.table? row.struct = some t ∧ Entries.names row.fields = t.fieldNames
  /-- References have targets. -/
  linked : ∀ struct key target, d.Shows (.reference struct key target) → target.isSome
  /-- Texts are no templates. -/
  rendered : ∀ t, d.Shows (.text t) → ∃ content, t = .plain content

namespace Document

variable {d e : Document}

theorem Bound.buildIndexes (h : d.Bound) : d.buildIndexes.Bound := by
  have hsame : SameFields d.tables d.buildIndexes.tables :=
    sameFields_of_pointwise (Entries.pointwise_mapValues Table.buildIndex d.tables)
      (by rintro t _ rfl; rfl)
  -- the rows stay where they are
  have hrows : ∀ entry ∈ d.buildIndexes.tables, ∃ entry' ∈ d.tables,
      entry.2.rows = entry'.2.rows := by
    intro entry hentry
    obtain ⟨entry', hentry', rfl⟩ := List.mem_map.mp hentry
    exact ⟨entry', hentry', rfl⟩
  constructor
  · intro entry hentry row hrow
    obtain ⟨entry', hentry', heq⟩ := hrows entry hentry
    rw [heq] at hrow
    exact (h.rows entry' hentry' row hrow).of_sameFields hsame
  · intro v hv row hrow
    refine Record.Complete.of_sameFields ?_ hsame
    refine h.roots v (mem_roots.mpr ?_) row hrow
    rcases mem_roots.mp hv with hv | ⟨entry, hentry, row', hrow', hv⟩
    · exact .inl hv
    · obtain ⟨entry', hentry', heq⟩ := hrows entry hentry
      rw [heq] at hrow'
      exact .inr ⟨entry', hentry', row', hrow', hv⟩

theorem sameFields_of_link (h : d.link = .ok e) : SameFields d.tables e.tables := by
  refine sameFields_of_pointwise (link_eq_ok_iff.mp h).2 ?_
  rintro t _ ⟨rows, -, rfl⟩
  rfl

theorem complete_of_mapRow {follow : RowName → Except Fault Instance} {tables : Entries Table}
    {row row' : Instance} (hrow : row.Complete tables) (h : mapRow follow row = .ok row') :
    row'.Complete tables := by
  obtain ⟨hstruct, hfields, hcall⟩ := mapRow_eq_ok_iff.mp h
  obtain ⟨hbound, t, ht, hnames⟩ := hrow
  refine ⟨?_, t, ?_, ?_⟩
  · rw [Record.isBound, ← hcall]
    exact hbound
  · rw [← hstruct]
    exact ht
  · rw [← (mapFields_eq_ok_iff.mp hfields).names_eq]
    exact hnames

/-- Linking shows complete instances only: those that were written and copies of rows. -/
theorem complete_of_link (hd : d.Bound) (h : d.link = .ok e) {row' : Instance}
    (hrow' : e.ShowsRow row') : row'.Complete e.tables := by
  have hsame := sameFields_of_link h
  have hrows : ∀ entry ∈ e.tables, ∀ row ∈ entry.2.rows, row.Complete e.tables := by
    intro entry' hentry' row' hrow'
    obtain ⟨entry, hentry, -, rows, hrows, heq⟩ := exists_mem_left (link_eq_ok_iff.mp h).2 hentry'
    rw [← heq] at hrow'
    obtain ⟨row, hrow, hlinked⟩ := exists_mem_left (linkRows_eq_ok_iff.mp hrows) hrow'
    exact (complete_of_mapRow (hd.rows entry hentry row hrow) hlinked).of_sameFields hsame
  rcases hrow' with ⟨entry, hentry, hrow'⟩ | hshown | ⟨struct, key, hshown⟩
  · exact hrows entry hentry row' hrow'
  · obtain ⟨v, hv, hlinked⟩ := link_origin h hshown
    obtain ⟨row, rfl, hrow⟩ := eq_instance_of_mapReferences hlinked
    exact (complete_of_mapRow (hd.of_holds hv) hrow).of_sameFields hsame
  · obtain ⟨row, hfound, heq⟩ := target_of_link h hshown
    cases heq
    obtain ⟨entry, hentry, hrow⟩ := mem_rows_of_findRow hfound
    exact hrows entry hentry _ hrow

theorem complete_renderedRow (d : Document) {row : Instance} (h : row.Complete d.tables) :
    (renderedRow d.globals row).Complete d.render.tables := by
  have hsame : SameFields d.tables d.render.tables :=
    sameFields_of_pointwise (Entries.pointwise_mapValues (Table.rendered d.globals) d.tables)
      (by rintro t _ rfl; rfl)
  refine Record.Complete.of_sameFields ?_ hsame
  unfold Record.Complete Record.isBound at h ⊢
  simpa using h

/-- What a rendered document shows as a row is the rendered form of a row that it showed. -/
theorem exists_showsRow_of_render {row' : Instance} (h : d.render.ShowsRow row') :
    ∃ row, d.ShowsRow row ∧ row' = renderedRow d.globals row := by
  rcases h with ⟨entry', hentry', hrow'⟩ | hshown | ⟨struct, key, hshown⟩
  · obtain ⟨entry, hentry, rfl⟩ := List.mem_map.mp hentry'
    obtain ⟨row, hrow, rfl⟩ := List.mem_map.mp hrow'
    exact ⟨row, .inl ⟨entry, hentry, hrow⟩, rfl⟩
  · obtain ⟨v, hv, hrendered⟩ := render_origin hshown
    obtain ⟨row, rfl, rfl⟩ := hrendered.eq_instance
    exact ⟨row, .inr (.inl hv), rfl⟩
  · obtain ⟨v, hv, hrendered⟩ := render_origin hshown
    obtain ⟨old, rfl, htarget⟩ := hrendered.eq_reference
    obtain ⟨row, rfl, rfl⟩ := Option.map_eq_some_iff.mp htarget.symm
    exact ⟨row, .inr (.inr ⟨struct, key, hv⟩), rfl⟩

end Document

theorem written_of_readDocument {s : Sources} {input : Input} {d : Document}
    (h : readDocument s input = .ok d) : d.Written := by
  unfold readDocument Document.ofSource at h
  split at h
  · cases h
  · split at h
    · cases h
    · exact Document.written_of_ofLines h

/-- A compiled document is resolved. -/
theorem resolved_of_compile {s : Sources} {input : Input} {d : Document}
    (h : compile s input = .ok d) : d.Resolved := by
  obtain ⟨written, bound, linked, hread, hbind, hlink, rfl⟩ := compile_eq_ok_iff.mp h
  have hbound : bound.buildIndexes.Bound :=
    (Document.bound_of_bind (written_of_readDocument hread) hbind).buildIndexes
  constructor
  case complete =>
    intro row' hrow'
    obtain ⟨row, hrow, rfl⟩ := Document.exists_showsRow_of_render hrow'
    exact Document.complete_renderedRow linked (Document.complete_of_link hbound hlink hrow)
  case linked =>
    intro struct key target hr
    obtain ⟨v, hv, hrendered⟩ := Document.render_origin hr
    obtain ⟨old, rfl, rfl⟩ := hrendered.eq_reference
    obtain ⟨row, -, rfl⟩ := Document.target_of_link hlink hv
    rfl
  case rendered =>
    intro t ht
    obtain ⟨v, -, hrendered⟩ := Document.render_origin ht
    exact hrendered.eq_plain

/-- An inline row with a positional argument and a default that is a template. -/
def inlineText : String := "P:\n str x:\n str y: {x}!\nP[] g: [P(a)]"

/-- What `inlineText` compiles to. -/
def inlineDocument : Document :=
  let row : Instance := .ofFields "P" [("x", .text (.plain "a")), ("y", .text (.plain "a!"))]
  let struct : Table :=
    ⟨"P", [Field.ofType "x" ⟨.str, false⟩,
      { Field.ofType "y" ⟨.str, false⟩ with default := some (.text (.template "{x}!" false)) }],
      none, [], []⟩
  ⟨[("g", .array [.instance row])], [("P", struct)]⟩

theorem compile_inlineText : compile .empty (.text "/" inlineText) = .ok inlineDocument := by
  decide +kernel

theorem resolved_of_compile_inline :
    compile .empty (.text "/" inlineText) = .ok inlineDocument ∧ inlineDocument.Resolved :=
  ⟨compile_inlineText, resolved_of_compile compile_inlineText⟩

end RowConfig
