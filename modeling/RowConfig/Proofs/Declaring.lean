import RowConfig.Proofs.Building
import RowConfig.Proofs.Conforming
import RowConfig.Proofs.Rows

/-!
# The fields that lines declare

A line changes at most one field of a struct, the one that it names: it declares the field anew, or
overrides its default or its choices (`Builder.redeclares_of_feed`). What no such change breaks
therefore holds of the fields of every struct while a document is read
(`Builder.fieldsOf_induction`). In this way no two fields of a struct have one name, and every
default conforms to the type that its field has at the time. A default was accepted by its field, as
this was when a line gave the default, and it is the field's default ever since
(`Builder.defaultSince_of_run`).
-/

namespace RowConfig

/-- The fields of a struct, none if it is not declared. -/
def Document.fieldsOf (d : Document) (struct : String) : List Field :=
  match d.table? struct with
  | some t => t.fields
  | none => []

/-- The declaration of a field. -/
def Document.field? (d : Document) (struct name : String) : Option Field :=
  (d.fieldsOf struct).find? (·.name == name)

/-- The name of the field that a line declares or overrides. -/
def LogicalLine.fieldName? (l : LogicalLine) : Option String :=
  match LineKind.ofLine? l.text.toList with
  | some (.field f) => some (String.ofList f.name.text)
  | some (.override name _) => some (String.ofList name.text)
  | _ => none

namespace Field

/-- The field has neither a default nor choices. -/
def Bare (f : Field) : Prop := f.default = none ∧ f.choices = none

/-- What a line makes of a field, `old` being what its name stood for before. -/
inductive Drafted (old : Option Field) : Field → Prop
  /-- The field is declared without a value, or overridden by an empty one. -/
  | bare {f : Field} : f.Bare → Drafted old f
  /-- The field gets a default that was read for it. -/
  | default (f : Field) {r : Reader} {token : List Char} {v : Value} :
      f.Bare ∨ old = some f → r.readFor token f = .ok v →
      Drafted old { f with default := some v }
  /-- The field gets choices that were read for it. -/
  | choices (f : Field) {r : Reader} {token : List Char} {choices : List Value} :
      f.Bare ∨ old = some f → r.readChoices token f = .ok choices →
      Drafted old { f with choices := some choices }

/-- The default, if there is one, conforms to the type. -/
def Sound (f : Field) : Prop := ∀ v, f.default = some v → v.Conforms f.type

theorem Bare.sound {f : Field} (h : f.Bare) : f.Sound := by
  intro v hv
  rw [h.1] at hv
  cases hv

/-- A line makes a sound field of a sound one. -/
theorem Drafted.sound {old : Option Field} {g : Field} (h : Drafted old g)
    (hold : ∀ f, old = some f → f.Sound) : g.Sound := by
  intro v hv
  cases h with
  | bare hbare => exact hbare.sound v hv
  | default _ _ hread =>
      cases hv
      exact (Reader.accepts_of_readFor hread).conforms
  | choices _ hbase _ =>
      rcases hbase with hbare | hf
      · exact hbare.sound v hv
      · exact hold _ hf v hv

end Field

/-! ## Changing one field -/

namespace Table

variable {f g : Field} {fields : List Field} {name : String}

theorem map_name_placeField (g : Field) (fields : List Field) :
    (placeField g fields).map Field.name = withName (fields.map Field.name) g.name := by
  unfold withName
  induction fields with
  | nil => rfl
  | cons f fields ih =>
      rw [placeField]
      by_cases hname : f.name = g.name
      · simp [hname]
      · have hne : g.name ≠ f.name := Ne.symm hname
        rw [if_neg hname, List.map_cons, ih, List.map_cons]
        by_cases hin : g.name ∈ fields.map Field.name
        · rw [if_pos hin, if_pos (List.mem_cons_of_mem _ hin)]
        · have hout : g.name ∉ f.name :: fields.map Field.name := by
            simp only [List.mem_cons, not_or]
            exact ⟨hne, hin⟩
          rw [if_neg hin, if_neg hout]
          rfl

/-- Placing a field repeats no name. -/
theorem nodup_placeField (h : (fields.map Field.name).Nodup) :
    ((placeField g fields).map Field.name).Nodup := by
  rw [map_name_placeField]
  exact nodup_withName h g.name

theorem find?_placeField (g : Field) (fields : List Field) (name : String) :
    (placeField g fields).find? (·.name == name) =
      if g.name = name then some g else fields.find? (·.name == name) := by
  induction fields with
  | nil => simp [placeField, List.find?_singleton]
  | cons f fields ih =>
      rw [placeField]
      by_cases hf : f.name = g.name
      · by_cases hname : g.name = name <;> simp [hf, hname]
      · by_cases hname : f.name = name
        · subst hname
          simp [hf, Ne.symm hf]
        · simp [hf, hname, ih]

theorem find?_of_nodup {fields : List Field} {g : Field} (hnodup : (fields.map Field.name).Nodup)
    (hg : g ∈ fields) : fields.find? (·.name == g.name) = some g := by
  induction fields with
  | nil => cases hg
  | cons f fields ih =>
      obtain ⟨hf, hnodup⟩ := List.nodup_cons.mp hnodup
      rcases List.mem_cons.mp hg with rfl | hg
      · simp
      · have hne : f.name ≠ g.name := by
          intro heq
          exact hf (heq ▸ List.mem_map_of_mem hg)
        rw [List.find?_cons_of_neg (by simpa using hne), ih hnodup hg]

theorem placeField_placeField (h : f.name = g.name) :
    placeField g (placeField f fields) = placeField g fields := by
  induction fields with
  | nil => simp [placeField, h]
  | cons f' fields ih =>
      rw [placeField, placeField]
      by_cases hname : f'.name = g.name
      · simp [h, hname, placeField]
      · simp [h, hname, placeField, ih]

/-- Changing a field puts the changed field in its place. -/
theorem changeFirst_eq_placeField {change : Field → Field} (hname : ∀ f, (change f).name = f.name)
    (hf : fields.find? (·.name == name) = some f) :
    changeFirst name change fields = placeField (change f) fields := by
  induction fields with
  | nil => cases hf
  | cons f' fields ih =>
      rw [changeFirst, placeField, hname]
      by_cases heq : f'.name = name
      · rw [List.find?_cons_of_pos (by simpa using heq)] at hf
        cases hf
        rw [if_pos heq, if_pos rfl]
      · rw [List.find?_cons_of_neg (by simpa using heq)] at hf
        have hfound : f.name = name := by simpa using List.find?_some hf
        rw [if_neg heq, if_neg (hfound ▸ heq), ih hf]

theorem placed_of_changeField {t u : Table} (change : Field → Field)
    (hname : ∀ f, (change f).name = f.name) (hf : t.field? name = some f)
    (h : t.changeField name change = .ok u) : u.fields = placeField (change f) t.fields := by
  unfold changeField at h
  rw [hf] at h
  cases h
  exact changeFirst_eq_placeField hname hf

/-- The fields are left as they are, or a line that names one of them makes something of it. -/
def Redeclares (l : LogicalLine) (fields fields' : List Field) : Prop :=
  fields' = fields ∨ ∃ g, l.fieldName? = some g.name ∧
    Field.Drafted (fields.find? (·.name == g.name)) g ∧ fields' = placeField g fields

theorem Redeclares.refl (l : LogicalLine) (fields : List Field) : Redeclares l fields fields :=
  .inl rfl

end Table

open Table

/-! ## Lines -/

theorem Reader.readFor_of_bare {r : Reader} {token : List Char} {f : Field} {v : Value}
    (hf : f.Bare) (h : r.read token f.type = .ok v) : r.readFor token f = .ok v := by
  unfold readFor Field.checkChoice
  rw [h, hf.2]
  rfl

namespace Document

variable {d : Document} {l : LogicalLine} {struct : String} {t : Table}

theorem fieldsOf_of_table? (ht : d.table? struct = some t) : d.fieldsOf struct = t.fields := by
  rw [fieldsOf, ht]

/-- Changing the fields of one struct changes no others. -/
theorem redeclares_modifyTable {name : String} {change : Table → Table}
    (h : ∀ t, d.table? name = some t → Redeclares l t.fields (change t).fields) (struct : String) :
    Redeclares l (d.fieldsOf struct) ((d.modifyTable name change).fieldsOf struct) := by
  rw [fieldsOf, fieldsOf, table?_modifyTable]
  cases ht : d.table? struct with
  | none => exact .refl l []
  | some t =>
      by_cases heq : struct = name
      · subst heq
        simpa using h t ht
      · simpa [heq] using Redeclares.refl l t.fields

end Document

namespace Builder

variable {b b' : Builder} {l : LogicalLine} {struct : String}

/-- Completing a row leaves all fields as they are. -/
theorem fieldsOf_of_flush (h : b.flush = .ok b') (struct : String) :
    b'.document.fieldsOf struct = b.document.fieldsOf struct := by
  unfold flush at h
  split at h
  · cases h
    rfl
  · obtain ⟨t, row, ht, -, rfl⟩ := addRow_eq_ok_iff.mp h
    show (b.document.modifyTable _ _).fieldsOf struct = _
    rw [Document.fieldsOf, Document.table?_modifyTable, Document.fieldsOf]
    cases b.document.table? struct with
    | none => rfl
    | some t =>
        show (if _ then t.addRow row else t).fields = t.fields
        split <;> rfl

theorem fieldsOf_header (b : Builder) (name struct : String) :
    (b.header name).document.fieldsOf struct = b.document.fieldsOf struct := by
  unfold header
  simp only
  split
  · rfl
  · next hnone =>
    unfold Document.table? at hnone
    unfold Document.fieldsOf Document.table?
    simp only [Entries.get?_insert]
    by_cases heq : name = struct
    · -- the new struct has no fields
      subst heq
      rw [hnone, if_pos rfl]
      rfl
    · rw [if_neg heq]

/-- A field line declares a field with at most a default or choices, read for it. -/
theorem drafted_of_fieldOf {f : FieldLine} {g : Field} (h : b.fieldOf l f = .ok g) :
    g.name = String.ofList f.name.text ∧ ∀ old, g.Drafted old := by
  unfold fieldOf at h
  simp only at h
  have hbare : Field.Bare { Field.ofType (String.ofList f.name.text) (typeOf f) with
      isKey := f.isKey, nullable := f.nullable } := ⟨rfl, rfl⟩
  split at h
  · cases h
    exact ⟨rfl, fun _ => .bare hbare⟩
  · split at h
    · obtain ⟨choices, hread, rfl⟩ := map_eq_ok_iff.mp h
      exact ⟨rfl, fun _ => .choices _ (.inl hbare) hread⟩
    · obtain ⟨v, hread, rfl⟩ := map_eq_ok_iff.mp h
      exact ⟨rfl, fun _ => .default _ (.inl hbare) (Reader.readFor_of_bare hbare hread)⟩

/-- An override changes the one field that it names. -/
theorem placed_of_overridden {t u : Table} {field : Field} {value : Part}
    (hfield : t.field? field.name = some field) (h : b.overridden l t field value = .ok u) :
    ∃ g, g.name = field.name ∧ Field.Drafted (t.fields.find? (·.name == g.name)) g ∧
      u.fields = placeField g t.fields := by
  have hold : t.fields.find? (·.name == field.name) = some field := hfield
  unfold overridden at h
  split at h
  · -- the default is taken away and then the choices
    split at h
    · cases h
    · next t' hdefault =>
      have hplaced := placed_of_changeField ({ · with default := none }) (fun _ => rfl) hfield
        hdefault
      have hfield' : t'.field? field.name = some { field with default := none } := by
        rw [field?, hplaced, find?_placeField, if_pos rfl]
      have hplaced' := placed_of_changeField ({ · with choices := none }) (fun _ => rfl) hfield' h
      refine ⟨{ field with default := none, choices := none }, rfl, .bare ⟨rfl, rfl⟩, ?_⟩
      rw [hplaced', hplaced]
      exact placeField_placeField rfl
  · split at h
    · split at h
      · cases h
      · next choices hread =>
        have hplaced := placed_of_changeField ({ · with choices := some choices }) (fun _ => rfl)
          hfield h
        refine ⟨{ field with choices := some choices }, rfl, ?_, hplaced⟩
        exact .choices field (.inr hold) hread
    · split at h
      · cases h
      · next v hread =>
        have hplaced := placed_of_changeField ({ · with default := some v }) (fun _ => rfl) hfield h
        refine ⟨{ field with default := some v }, rfl, ?_, hplaced⟩
        exact .default field (.inr hold) hread

theorem redeclares_of_declare {kind : LineKind} (hkind : LineKind.ofLine? l.text.toList = some kind)
    (h : b.declare l kind = .ok b') (struct : String) :
    Redeclares l (b.document.fieldsOf struct) (b'.document.fieldsOf struct) := by
  cases declares_of_declare h with
  | header name => exact .inl (fieldsOf_header b _ struct)
  | global _ _ => exact .refl l _
  | @field f _ g _ _ hg =>
      apply Document.redeclares_modifyTable
      intro t _
      obtain ⟨hname, hdrafted⟩ := drafted_of_fieldOf hg
      refine .inr ⟨g, ?_, hdrafted _, rfl⟩
      rw [LogicalLine.fieldName?, hkind, hname]
  | undeclared _ _ => exact .refl l _
  | @override name _ _ t _ field _ ht hfield hu =>
      have hname : field.name = String.ofList name.text := by simpa using List.find?_some hfield
      obtain ⟨g, hg, hdrafted, hplaced⟩ := placed_of_overridden (hname ▸ hfield) hu
      apply Document.redeclares_modifyTable
      intro t' ht'
      rw [ht] at ht'
      cases ht'
      refine .inr ⟨g, ?_, hdrafted, hplaced⟩
      rw [LogicalLine.fieldName?, hkind, hg, hname]
  | row _ => exact .refl l _
  | continuation _ => exact .refl l _

/-- A line changes at most one field of a struct, the one that it names. -/
theorem redeclares_of_feed (h : b.feed l = .ok b') (struct : String) :
    Redeclares l (b.document.fieldsOf struct) (b'.document.fieldsOf struct) := by
  rcases feed_cases h with ⟨part, r, -, -, rfl⟩ | ⟨head, struct', flushed, -, hflush, -, rfl⟩ |
    ⟨kind, flushed, hkind, -, -, hflush, hdeclare⟩
  · exact .refl l _
  · exact .inl (fieldsOf_of_flush hflush struct)
  · rw [← fieldsOf_of_flush hflush struct]
    exact redeclares_of_declare hkind hdeclare struct

/-- What holds of no fields and of whatever a line makes of fields of which it holds, holds of the
fields of every struct. -/
theorem fieldsOf_induction {P : List Field → Prop} (hnil : P [])
    (hstep : ∀ fields g, P fields → Field.Drafted (fields.find? (·.name == g.name)) g →
      P (placeField g fields))
    {lines : List LogicalLine} (h : start.run lines = .ok b) (struct : String) :
    P (b.document.fieldsOf struct) := by
  induction lines using List.reverseRecOn generalizing b with
  | nil =>
      cases h
      exact hnil
  | append_singleton lines l ih =>
      obtain ⟨before, hbefore, hfeed⟩ := run_snoc_eq_ok_iff.mp h
      rcases redeclares_of_feed hfeed struct with heq | ⟨g, -, hg, heq⟩
      · rw [heq]
        exact ih hbefore
      · rw [heq]
        exact hstep _ g (ih hbefore) hg

/-- No two fields of a struct have one name. -/
theorem nodup_fieldsOf {lines : List LogicalLine} (h : start.run lines = .ok b) (struct : String) :
    ((b.document.fieldsOf struct).map Field.name).Nodup :=
  fieldsOf_induction (P := fun fields => (fields.map Field.name).Nodup) List.nodup_nil
    (fun _ _ hfields _ => nodup_placeField hfields) h struct

/-- Every default conforms to the type that its field has. -/
theorem sound_fieldsOf {lines : List LogicalLine} (h : start.run lines = .ok b) (struct : String) :
    ∀ f ∈ b.document.fieldsOf struct, f.Sound := by
  refine fieldsOf_induction (P := fun fields => ∀ f ∈ fields, f.Sound) ?_ ?_ h struct
  · intro f hf
    cases hf
  · intro fields g hfields hg f hf
    rcases eq_or_mem_of_mem_placeField hf with rfl | hf
    · apply hg.sound
      intro f' hf'
      exact hfields f' (List.mem_of_find?_eq_some hf')
    · exact hfields f hf

end Builder

/-! ## Defaults -/

/-- The declaration of a field once the first `n` lines have been read. -/
def fieldAfter? (lines : List LogicalLine) (n : Nat) (struct name : String) : Option Field :=
  match Builder.start.run (lines.take n) with
  | .ok b => b.document.field? struct name
  | .error _ => none

/-- The line at a position, which names the field, leaves it as `g`, which accepts the value; this
is the field's default from then on. -/
structure DefaultSince (lines : List LogicalLine) (k : Nat) (struct : String) (g : Field)
    (v : Value) :
    Prop where
  line : lines[k]?.bind LogicalLine.fieldName? = some g.name
  field : fieldAfter? lines (k + 1) struct g.name = some g
  accepts : g.Accepts v
  stays : ∀ n, k < n → n ≤ lines.length →
    ∃ f, fieldAfter? lines n struct g.name = some f ∧ f.default = some v

section Defaults

variable {lines : List LogicalLine} {l : LogicalLine} {b : Builder} {struct name : String}
  {f g : Field} {v : Value}

theorem fieldAfter?_append {n : Nat} (h : n ≤ lines.length) (more : List LogicalLine) :
    fieldAfter? (lines ++ more) n struct name = fieldAfter? lines n struct name := by
  unfold fieldAfter?
  rw [List.take_append_of_le_length h]

theorem fieldAfter?_of_run {n : Nat} (h : Builder.start.run (lines.take n) = .ok b) :
    fieldAfter? lines n struct name = b.document.field? struct name := by
  rw [fieldAfter?, h]

/-- After the last line the fields are those of the state that is reached. -/
theorem fieldAfter?_snoc (h : Builder.start.run (lines ++ [l]) = .ok b) {n : Nat}
    (hn : lines.length < n) :
    fieldAfter? (lines ++ [l]) n struct name = b.document.field? struct name := by
  apply fieldAfter?_of_run
  rw [List.take_of_length_le]
  · exact h
  · rw [List.length_append, List.length_singleton]
    exact hn

/-- A default stays through one more line if the field has it afterwards. -/
theorem DefaultSince.snoc {k : Nat} (h : DefaultSince lines k struct g v)
    (hrun : Builder.start.run (lines ++ [l]) = .ok b)
    (hf : b.document.field? struct g.name = some f) (hv : f.default = some v) :
    DefaultSince (lines ++ [l]) k struct g v := by
  have hk : k < lines.length := by
    obtain ⟨line, hline, -⟩ := Option.bind_eq_some_iff.mp h.line
    exact (List.getElem?_eq_some_iff.mp hline).1
  constructor
  case line =>
    rw [List.getElem?_append_left hk]
    exact h.line
  case field =>
    rw [fieldAfter?_append hk]
    exact h.field
  case accepts => exact h.accepts
  case stays =>
    intro n hn hle
    rcases Nat.lt_or_ge lines.length n with hlast | hbefore
    · rw [fieldAfter?_snoc hrun hlast]
      exact ⟨f, hf, hv⟩
    · rw [fieldAfter?_append hbefore]
      exact h.stays n hn hbefore

/-- The line that gives the default is the last one. -/
theorem defaultSince_last (hname : l.fieldName? = some g.name)
    (hrun : Builder.start.run (lines ++ [l]) = .ok b)
    (hg : b.document.field? struct g.name = some g) (hv : g.default = some v) (hgv : g.Accepts v) :
    DefaultSince (lines ++ [l]) lines.length struct g v := by
  have hafter : ∀ n, lines.length < n → fieldAfter? (lines ++ [l]) n struct g.name = some g := by
    intro n hn
    rw [fieldAfter?_snoc hrun hn]
    exact hg
  constructor
  case line => simpa using hname
  case field => exact hafter _ (Nat.lt_succ_self _)
  case accepts => exact hgv
  case stays =>
    intro n hn _
    exact ⟨g, hafter n hn, hv⟩

/-- A default was given by some line, whose field accepted it, and stays since then. -/
theorem Builder.defaultSince_of_run (hrun : start.run lines = .ok b)
    (hf : b.document.field? struct name = some f) (hv : f.default = some v) :
    ∃ k g, g.name = name ∧ DefaultSince lines k struct g v := by
  induction lines using List.reverseRecOn generalizing b f with
  | nil =>
      cases hrun
      cases hf
  | append_singleton lines l ih =>
      obtain ⟨before, hbefore, hfeed⟩ := run_snoc_eq_ok_iff.mp hrun
      -- a default that the field had before stays
      have hold : ∀ f', before.document.field? struct name = some f' → f'.default = some v →
          ∃ k g, g.name = name ∧ DefaultSince (lines ++ [l]) k struct g v := by
        intro f' hf' hv'
        obtain ⟨k, g, rfl, hsince⟩ := ih hbefore hf' hv'
        exact ⟨k, g, rfl, hsince.snoc hrun hf hv⟩
      rcases redeclares_of_feed hfeed struct with heq | ⟨g, hline, hg, heq⟩
      · rw [Document.field?, heq] at hf
        exact hold f hf hv
      · have hfound := hf
        rw [Document.field?, heq, find?_placeField] at hf
        split at hf
        · next hname =>
          subst hname
          cases hf
          cases hg with
          | bare hbare =>
              rw [hbare.1] at hv
              cases hv
          | default f' _ hread =>
              cases hv
              exact ⟨lines.length, _, rfl,
                defaultSince_last hline hrun hfound rfl (Reader.accepts_of_readFor hread)⟩
          | choices f' hbase _ =>
              -- choices leave the default as it was
              have hv : f'.default = some v := hv
              rcases hbase with hbare | hf'
              · rw [hbare.1] at hv
                cases hv
              · exact hold f' hf' hv
        · exact hold f hf hv

end Defaults

namespace Document

variable {d : Document} {lines : List LogicalLine}

/-- The fields of a document are those declared when its last line has been read. -/
theorem exists_run_of_ofLines (h : ofLines lines = .ok d) :
    ∃ b, Builder.start.run lines = .ok b ∧
      ∀ struct, d.fieldsOf struct = b.document.fieldsOf struct := by
  obtain ⟨b, b', hrun, hflush, rfl⟩ := ofLines_eq_ok_iff.mp h
  exact ⟨b, hrun, Builder.fieldsOf_of_flush hflush⟩

/-- No two fields of a struct have one name, and every default conforms to its field's type. -/
structure WellDeclared (d : Document) : Prop where
  nodup : ∀ struct t, d.table? struct = some t → t.fieldNames.Nodup
  sound : ∀ struct t, d.table? struct = some t → ∀ f ∈ t.fields, f.Sound

theorem wellDeclared_of_ofLines (h : ofLines lines = .ok d) : d.WellDeclared := by
  obtain ⟨b, hrun, hfields⟩ := exists_run_of_ofLines h
  constructor
  · intro struct t ht
    have hnodup := Builder.nodup_fieldsOf hrun struct
    rw [← hfields, fieldsOf_of_table? ht] at hnodup
    exact hnodup
  · intro struct t ht
    have hsound := Builder.sound_fieldsOf hrun struct
    rw [← hfields, fieldsOf_of_table? ht] at hsound
    exact hsound

end Document

end RowConfig
