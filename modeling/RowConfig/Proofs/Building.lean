import RowConfig.Builder
import RowConfig.Proofs.Reading

/-!
# What building leaves behind

While lines are read the document keeps its shape (`Document.Written`): the rows of a struct name
some of its fields, no field twice, and every inline row in a global, a row or a default is a call
of a declared struct. Each line preserves this (`Builder.written_of_feed`), hence so do all of them.
-/

namespace RowConfig

open Value

/-- A row that was read for the fields of a struct. Its values may hold calls. -/
structure Table.WrittenRow (structs : List String) (t : Table) (row : Instance) : Prop where
  struct_eq : row.struct = t.name
  bound : row.call = none
  nodup : (Entries.names row.fields).Nodup
  subset : Entries.names row.fields ⊆ t.fieldNames
  values : ∀ v ∈ Entries.values row.fields, v.Written structs

/-- A struct as it is written under a name: its own name is that name, and its defaults and rows are
written. -/
structure Table.Written (structs : List String) (name : String) (t : Table) : Prop where
  name_eq : t.name = name
  defaults : ∀ f ∈ t.fields, ∀ v, f.default = some v → v.Written structs
  rows : ∀ row ∈ t.rows, t.WrittenRow structs row

/-- A document as it is written, before anything is bound. -/
structure Document.Written (d : Document) : Prop where
  nodup : d.structNames.Nodup
  globals : ∀ v ∈ Entries.values d.globals, v.Written d.structNames
  tables : ∀ entry ∈ d.tables, entry.2.Written d.structNames entry.1

/-! ## Structs -/

namespace Table

variable {structs structs' : List String} {name : String} {t : Table}

theorem WrittenRow.mono {row : Instance} (h : t.WrittenRow structs row) (hsub : structs ⊆ structs') :
    t.WrittenRow structs' row :=
  { h with values := fun v hv => (h.values v hv).mono hsub }

/-- A row stays written when fields are added to its struct. -/
theorem WrittenRow.of_fieldNames {u : Table} {row : Instance} (h : t.WrittenRow structs row)
    (hname : t.name = u.name) (hsub : t.fieldNames ⊆ u.fieldNames) : u.WrittenRow structs row :=
  { h with
    struct_eq := h.struct_eq.trans hname
    subset := List.Subset.trans h.subset hsub }

/-- A written row stays written when one of the struct's fields is given a written value. -/
theorem WrittenRow.insert {struct : String} {fields : Entries Value}
    (h : t.WrittenRow structs (.ofFields struct fields)) {f : Field} (hf : f ∈ t.fields) {v : Value}
    (hv : v.Written structs) :
    t.WrittenRow structs (.ofFields struct (Entries.insert f.name v fields)) := by
  refine ⟨h.struct_eq, rfl, Entries.nodup_names_insert h.nodup, ?_, ?_⟩
  · show Entries.names (Entries.insert f.name v fields) ⊆ t.fieldNames
    rw [Entries.names_insert]
    split
    · exact h.subset
    · refine List.append_subset.mpr ⟨h.subset, fun name hname => ?_⟩
      rw [List.mem_singleton.mp hname]
      exact List.mem_map_of_mem hf
  · intro w hw
    obtain ⟨entry, hentry, rfl⟩ := List.mem_map.mp hw
    rcases Entries.eq_or_mem_of_mem_insert hentry with rfl | hentry
    · exact hv
    · exact h.values _ (Entries.mem_values_of_mem hentry)

theorem writtenRow_nil (structs : List String) (t : Table) :
    t.WrittenRow structs (.ofFields t.name []) :=
  ⟨rfl, rfl, List.nodup_nil, List.nil_subset _, fun v hv => by cases hv⟩

theorem Written.mono (h : t.Written structs name) (hsub : structs ⊆ structs') :
    t.Written structs' name :=
  { name_eq := h.name_eq
    defaults := fun f hf v hv => (h.defaults f hf v hv).mono hsub
    rows := fun row hrow => (h.rows row hrow).mono hsub }

theorem written_empty (structs : List String) (name : String) :
    (Table.empty name).Written structs name :=
  { name_eq := rfl
    defaults := fun f hf => by cases hf
    rows := fun row hrow => by cases hrow }

theorem eq_or_mem_of_mem_placeField {f g : Field} {fields : List Field}
    (h : g ∈ placeField f fields) : g = f ∨ g ∈ fields := by
  induction fields with
  | nil => exact .inl (List.mem_singleton.mp h)
  | cons f' fields ih =>
      rw [placeField] at h
      split at h
      · rcases List.mem_cons.mp h with rfl | h
        · exact .inl rfl
        · exact .inr (List.mem_cons_of_mem _ h)
      · rcases List.mem_cons.mp h with rfl | h
        · exact .inr List.mem_cons_self
        · rcases ih h with rfl | h
          · exact .inl rfl
          · exact .inr (List.mem_cons_of_mem _ h)

/-- Placing a field forgets no field name. -/
theorem map_name_subset_placeField (f : Field) (fields : List Field) :
    fields.map Field.name ⊆ (placeField f fields).map Field.name := by
  induction fields with
  | nil => exact List.nil_subset _
  | cons g fields ih =>
      rw [placeField]
      split
      · next hname =>
        rw [List.map_cons, List.map_cons, hname]
        exact List.Subset.refl _
      · rw [List.map_cons, List.map_cons]
        exact List.cons_subset_cons _ ih

theorem Written.addField (h : t.Written structs name) {f : Field}
    (hf : ∀ v, f.default = some v → v.Written structs) : (t.addField f).Written structs name :=
  { name_eq := h.name_eq
    defaults := by
      intro g hg v hv
      rcases eq_or_mem_of_mem_placeField hg with rfl | hg
      · exact hf v hv
      · exact h.defaults g hg v hv
    rows := fun row hrow =>
      (h.rows row hrow).of_fieldNames rfl (map_name_subset_placeField f t.fields) }

theorem mem_or_eq_of_mem_changeFirst {field : String} {change : Field → Field} {g : Field}
    {fields : List Field} (h : g ∈ changeFirst field change fields) :
    g ∈ fields ∨ ∃ f ∈ fields, g = change f := by
  induction fields with
  | nil => cases h
  | cons f fields ih =>
      rw [changeFirst] at h
      split at h
      · rcases List.mem_cons.mp h with rfl | h
        · exact .inr ⟨f, List.mem_cons_self, rfl⟩
        · exact .inl (List.mem_cons_of_mem _ h)
      · rcases List.mem_cons.mp h with rfl | h
        · exact .inl List.mem_cons_self
        · rcases ih h with h | ⟨f', hf', heq⟩
          · exact .inl (List.mem_cons_of_mem _ h)
          · exact .inr ⟨f', List.mem_cons_of_mem _ hf', heq⟩

theorem map_name_changeFirst (field : String) {change : Field → Field}
    (hchange : ∀ f, (change f).name = f.name) (fields : List Field) :
    (changeFirst field change fields).map Field.name = fields.map Field.name := by
  induction fields with
  | nil => rfl
  | cons f fields ih =>
      rw [changeFirst]
      split
      · rw [List.map_cons, List.map_cons, hchange]
      · rw [List.map_cons, List.map_cons, ih]

/-- Changing a field but not its name keeps a struct written if the new default is. -/
theorem Written.changeField (h : t.Written structs name) {field : String} {change : Field → Field}
    {u : Table} (hname : ∀ f, (change f).name = f.name)
    (hdefault : ∀ f ∈ t.fields, ∀ v, (change f).default = some v → v.Written structs)
    (hu : t.changeField field change = .ok u) : u.Written structs name := by
  unfold Table.changeField at hu
  split at hu
  · cases hu
  · cases hu
    refine ⟨h.name_eq, fun g hg v hv => ?_, fun row hrow => ?_⟩
    · rcases mem_or_eq_of_mem_changeFirst hg with hg | ⟨f, hf, rfl⟩
      · exact h.defaults g hg v hv
      · exact hdefault f hf v hv
    · refine (h.rows row hrow).of_fieldNames rfl ?_
      show t.fields.map Field.name ⊆ (changeFirst field change t.fields).map Field.name
      rw [map_name_changeFirst field hname]
      exact List.Subset.refl _

theorem Written.setDefault (h : t.Written structs name) {field : String} {default : Option Value}
    {u : Table} (hdefault : ∀ v, default = some v → v.Written structs)
    (hu : t.setDefault field default = .ok u) : u.Written structs name := by
  unfold Table.setDefault at hu
  refine h.changeField ?_ ?_ hu
  · exact fun f => rfl
  · exact fun f _ v hv => hdefault v hv

theorem Written.setChoices (h : t.Written structs name) {field : String}
    {choices : Option (List Value)} {u : Table} (hu : t.setChoices field choices = .ok u) :
    u.Written structs name := by
  unfold Table.setChoices at hu
  refine h.changeField ?_ ?_ hu
  · exact fun f => rfl
  · exact h.defaults

theorem Written.addRow (h : t.Written structs name) {row : Instance}
    (hrow : t.WrittenRow structs row) : (t.addRow row).Written structs name := by
  refine ⟨h.name_eq, h.defaults, fun row' hrow' => ?_⟩
  have hwritten : t.WrittenRow structs row' := by
    rcases List.mem_append.mp hrow' with hrow' | hrow'
    · exact h.rows row' hrow'
    · rw [List.mem_singleton.mp hrow']
      exact hrow
  exact hwritten.of_fieldNames rfl (List.Subset.refl _)

end Table

/-! ## Documents -/

namespace Document.Written

variable {d : Document}

/-- The struct that a name finds has that name. -/
theorem table? (h : d.Written) {name : String} {t : Table} (ht : d.table? name = some t) :
    t.Written d.structNames name :=
  h.tables (name, t) (Entries.mem_of_get? ht)

theorem setGlobal (h : d.Written) (name : String) {v : Value} (hv : v.Written d.structNames) :
    (d.setGlobal name v).Written := by
  refine ⟨h.nodup, fun w hw => ?_, h.tables⟩
  obtain ⟨entry, hentry, rfl⟩ := List.mem_map.mp hw
  rcases Entries.eq_or_mem_of_mem_insert hentry with rfl | hentry
  · exact hv
  · exact h.globals _ (Entries.mem_values_of_mem hentry)

theorem modifyTable (h : d.Written) {name : String} {change : Table → Table}
    (hchange : ∀ t, d.table? name = some t → (change t).Written d.structNames name) :
    (d.modifyTable name change).Written := by
  have hnames : (d.modifyTable name change).structNames = d.structNames :=
    Entries.names_modify d.tables name change
  refine ⟨?_, ?_, ?_⟩
  · rw [hnames]
    exact h.nodup
  · rw [hnames]
    exact h.globals
  · rw [hnames]
    intro entry hentry
    rcases Entries.mem_or_eq_of_mem_modify hentry with hentry | ⟨t, ht, rfl⟩
    · exact h.tables entry hentry
    · exact hchange t (Entries.get?_of_mem h.nodup ht)

/-- Declaring a struct keeps what was written with fewer structs. -/
theorem declare (h : d.Written) (name : String) :
    (Document.mk d.globals (Entries.insert name (.empty name) d.tables)).Written := by
  have hsub : d.structNames ⊆ Entries.names (Entries.insert name (Table.empty name) d.tables) := by
    rw [Entries.names_insert]
    split
    · exact List.Subset.refl _
    · exact List.subset_append_left _ _
  refine ⟨Entries.nodup_names_insert h.nodup, fun v hv => (h.globals v hv).mono hsub, ?_⟩
  intro entry hentry
  rcases Entries.eq_or_mem_of_mem_insert hentry with rfl | hentry
  · exact Table.written_empty _ _
  · exact (h.tables entry hentry).mono hsub

end Document.Written

/-! ## Rows -/

/-- The argument of a row is for one of the struct's fields. -/
theorem mem_fields_of_assignArgument {t : Table} {count position start : Nat} {named : Bool}
    {argument : List Char} {a : RowArgument}
    (h : assignArgument t count position start named argument = .ok a) : a.field ∈ t.fields := by
  unfold assignArgument at h
  split at h
  · simp only at h
    split at h
    · next hfield =>
      cases h
      exact List.mem_of_find?_eq_some hfield
    · cases h
  · split at h
    · cases h
    · split at h
      · next hfield =>
        cases h
        exact List.mem_of_getElem? hfield
      · cases h

/-- Reading a row collects values for fields of the struct, and none twice. -/
theorem writtenRow_of_readRow {tables : Entries Table} {t : Table} {r : RowText}
    {count position : Nat} {named : Bool} {fields fields' : Entries Value}
    {pieces : List (Nat × List Char)}
    (hrow : t.WrittenRow (Entries.names tables) (.ofFields t.name fields))
    (h : readRow tables t r count position named fields pieces = .ok fields') :
    t.WrittenRow (Entries.names tables) (.ofFields t.name fields') := by
  induction pieces generalizing position named fields with
  | nil =>
      cases h
      exact hrow
  | cons piece pieces ih =>
      obtain ⟨offset, piece⟩ := piece
      rw [readRow] at h
      simp only at h
      split at h
      · exact ih hrow h
      · split at h
        · cases h
        · next a hassign =>
          split at h
          · cases h
          · next v hread =>
            have hfield := mem_fields_of_assignArgument hassign
            exact ih (hrow.insert hfield (Reader.written_of_readFor hread)) h

/-! ## Lines -/

namespace Builder

variable {b b' : Builder} {l : LogicalLine}

theorem written_of_addRow (hb : b.document.Written) {r : RowText} (h : b.addRow r = .ok b') :
    b'.document.Written := by
  unfold addRow at h
  split at h
  · cases h
  · next t ht =>
    obtain ⟨fields, hread, rfl⟩ := map_eq_ok_iff.mp h
    refine hb.modifyTable fun t' ht' => ?_
    -- the struct that the row was read for is the one that gets it
    rw [ht] at ht'
    cases ht'
    exact (hb.table? ht).addRow (writtenRow_of_readRow (Table.writtenRow_nil _ t) hread)

theorem written_of_flush (hb : b.document.Written) (h : b.flush = .ok b') :
    b'.document.Written := by
  unfold flush at h
  split at h
  · cases h
    exact hb
  · exact written_of_addRow hb h

theorem written_header (hb : b.document.Written) (name : String) :
    (b.header name).document.Written := by
  unfold header
  simp only
  split
  · exact hb
  · exact hb.declare name

theorem written_of_global (hb : b.document.Written) {f : FieldLine}
    (h : b.global l f = .ok b') : b'.document.Written := by
  unfold global at h
  simp only at h
  split at h
  · cases h
  · split at h
    · cases h
    · obtain ⟨v, hv, rfl⟩ := map_eq_ok_iff.mp h
      refine hb.setGlobal _ ?_
      split at hv
      · cases hv
        exact written_of_scalar rfl fun row heq => by cases heq
      · exact Reader.written_of_read hv

/-- A field line declares a field with a written default. -/
theorem written_of_fieldOf {f : FieldLine} {field : Field} (h : b.fieldOf l f = .ok field) :
    ∀ v, field.default = some v → v.Written b.document.structNames := by
  unfold fieldOf at h
  simp only at h
  intro v hv
  split at h
  · cases h
    cases hv
  · split at h
    · obtain ⟨choices, -, rfl⟩ := map_eq_ok_iff.mp h
      cases hv
    · obtain ⟨w, hread, rfl⟩ := map_eq_ok_iff.mp h
      cases hv
      exact Reader.written_of_read hread

theorem written_of_field (hb : b.document.Written) {f : FieldLine} (h : b.field l f = .ok b') :
    b'.document.Written := by
  unfold field at h
  split at h
  · cases h
  · obtain ⟨field, hfield, rfl⟩ := map_eq_ok_iff.mp h
    exact hb.modifyTable fun t ht => (hb.table? ht).addField (written_of_fieldOf hfield)

theorem written_of_overridden {t u : Table} {name : String} {field : Field} {value : Part}
    (ht : t.Written b.document.structNames name) (h : b.overridden l t field value = .ok u) :
    u.Written b.document.structNames name := by
  unfold overridden at h
  split at h
  · split at h
    · cases h
    · next t' ht' => exact (ht.setDefault (fun v hv => by cases hv) ht').setChoices h
  · split at h
    · split at h
      · cases h
      · exact ht.setChoices h
    · split at h
      · cases h
      · next v hread =>
        refine ht.setDefault ?_ h
        rintro w hw
        cases hw
        exact Reader.written_of_readFor hread

theorem written_of_override (hb : b.document.Written) {name value : Part}
    (h : b.override l name value = .ok b') : b'.document.Written := by
  unfold override at h
  split at h
  · cases h
  · split at h
    · cases h
      exact hb
    · next t ht =>
      simp only at h
      split at h
      · cases h
      · obtain ⟨u, hu, rfl⟩ := map_eq_ok_iff.mp h
        exact hb.modifyTable fun _ _ => written_of_overridden (hb.table? ht) hu

theorem written_of_continueRow (hb : b.document.Written) {text : Part}
    (h : b.continueRow l text = .ok b') : b'.document.Written := by
  unfold continueRow at h
  split at h
  · cases h
  · cases h
    exact hb

theorem written_of_declare (hb : b.document.Written) {kind : LineKind}
    (h : b.declare l kind = .ok b') : b'.document.Written := by
  cases kind with
  | header name =>
      cases h
      exact written_header hb _
  | field f =>
      rw [declare] at h
      split at h
      · exact written_of_global hb h
      · exact written_of_field hb h
  | override name value => exact written_of_override hb h
  | row arguments =>
      obtain ⟨struct, -, rfl⟩ := map_eq_ok_iff.mp h
      exact hb
  | continuation text => exact written_of_continueRow hb h

/-- Reading a line keeps the document written. -/
theorem written_of_feed (hb : b.document.Written) (h : b.feed l = .ok b') :
    b'.document.Written := by
  unfold feed at h
  split at h
  · cases h
  · exact written_of_continueRow hb h
  · cases hflush : b.flush with
    | error e =>
        rw [hflush] at h
        cases h
    | ok flushed =>
        rw [hflush] at h
        exact written_of_declare (written_of_flush hb hflush) h

theorem written_of_feedAll {lines : List LogicalLine} {d : Document} (hb : b.document.Written)
    (h : b.feedAll lines = .ok d) : d.Written := by
  induction lines generalizing b with
  | nil =>
      obtain ⟨flushed, hflush, rfl⟩ := map_eq_ok_iff.mp h
      exact written_of_flush hb hflush
  | cons l lines ih =>
      rw [feedAll] at h
      split at h
      · cases h
      · next hfeed => exact ih (written_of_feed hb hfeed) h

end Builder

theorem Document.written_empty : Document.empty.Written :=
  { nodup := List.nodup_nil
    globals := fun v hv => by cases hv
    tables := fun entry hentry => by cases hentry }

/-- Whatever lines declare is a written document. -/
theorem Document.written_of_ofLines {lines : List LogicalLine} {d : Document}
    (h : Document.ofLines lines = .ok d) : d.Written :=
  Builder.written_of_feedAll Document.written_empty h

end RowConfig
