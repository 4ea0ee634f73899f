import RowConfig.Binding
import RowConfig.Proofs.Building

/-!
# What binding leaves behind

A bound instance has the fields of its struct, all of them, once and in order. Arguments are typed
for fields of the struct only, so that nothing is left over when the fields are arranged; what a
field holds, be it an argument or a default, is written and is bound in turn. The induction is on
the levels that are left to go.
-/

namespace RowConfig

open Binding Value

/-- The instance is bound and has exactly the fields of its struct, in their order. -/
def Record.Complete (tables : Entries Table) (row : Instance) : Prop :=
  row.isBound ∧ ∃ t, Entries.get? tables row.struct = some t ∧
    Entries.names row.fields = t.fieldNames

/-- Every inline row in the value is complete. -/
def Value.Bound (tables : Entries Table) (v : Value) : Prop :=
  ∀ row, v.Holds (.instance row) → row.Complete tables

namespace Binding

variable {tables : Entries Table} {structs : List String}

/-! ## Arranging fields -/

/-- Where values are present for fields only, none twice, the arranged names are those of the
fields. -/
theorem names_arrange {fields : List Field} {present : Entries Value}
    (hnodup : (Entries.names present).Nodup)
    (hsub : Entries.names present ⊆ fields.map Field.name) :
    Entries.names (arrange fields present) = fields.map Field.name := by
  induction fields generalizing present with
  | nil =>
      have hnil : Entries.names present = [] := List.subset_nil.mp hsub
      exact hnil
  | cons f fields ih =>
      show f.name :: Entries.names (arrange fields (Entries.erase f.name present)) = _
      -- what is left after this field is for the fields that follow
      rw [List.map_cons, ih (Entries.nodup_names_erase hnodup)
        (Entries.names_erase_subset hnodup hsub)]

/-- An arranged value is present, a default, or null. -/
theorem forall_mem_arrange {P : Value → Prop} {fields : List Field} {present : Entries Value}
    (hpresent : ∀ v ∈ Entries.values present, P v)
    (hdefaults : ∀ f ∈ fields, ∀ v, f.default = some v → P v) (hnull : P .null) :
    ∀ v ∈ Entries.values (arrange fields present), P v := by
  induction fields generalizing present with
  | nil => exact hpresent
  | cons f fields ih =>
      intro v hv
      rcases List.mem_cons.mp hv with rfl | hv
      · show P (((Entries.get? present f.name).orElse fun _ => f.default).getD .null)
        cases hget : Entries.get? present f.name with
        | some w => exact hpresent w (Entries.mem_values_of_mem (Entries.mem_of_get? hget))
        | none =>
            cases hdefault : f.default with
            | some w => exact hdefaults f List.mem_cons_self w hdefault
            | none => exact hnull
      · refine ih (fun w hw => hpresent w ?_) (fun g hg => hdefaults g (List.mem_cons_of_mem _ hg))
          v hv
        exact ((Entries.erase_sublist present f.name).map Prod.snd).subset hw

/-- An arranged entry is present, or its field is filled in. -/
theorem mem_of_mem_arrange {fields : List Field} {present : Entries Value} {e : String × Value}
    (h : e ∈ arrange fields present) :
    e ∈ present ∨ ∃ f ∈ fields, f.name = e.1 ∧ e.2 = f.default.getD .null := by
  induction fields generalizing present with
  | nil => exact .inl h
  | cons f fields ih =>
      rcases List.mem_cons.mp h with rfl | h
      · show (f.name, ((Entries.get? present f.name).orElse fun _ => f.default).getD .null) ∈ _ ∨ _
        cases hget : Entries.get? present f.name with
        | some v => exact .inl (Entries.mem_of_get? hget)
        | none => exact .inr ⟨f, List.mem_cons_self, rfl, rfl⟩
      · rcases ih h with h | ⟨g, hg, hfilled⟩
        · exact .inl ((Entries.erase_sublist present f.name).subset h)
        · exact .inr ⟨g, List.mem_cons_of_mem _ hg, hfilled⟩

/-- Entries for all fields of a struct are put into the order of the fields. -/
theorem arrange_of_perm {fields : List Field} {present es : Entries Value}
    (hnames : Entries.names es = fields.map Field.name) (hnodup : (Entries.names es).Nodup)
    (hperm : present.Perm es) : arrange fields present = es := by
  induction fields generalizing present es with
  | nil =>
      rw [Entries.names, List.map_nil, List.map_eq_nil_iff] at hnames
      rw [hnames] at hperm ⊢
      exact hperm.eq_nil
  | cons f fields ih =>
      cases es with
      | nil => cases hnames
      | cons e es =>
          obtain ⟨name, v⟩ := e
          have hname : name = f.name := (List.cons.inj hnames).1
          subst hname
          have hpresent : (Entries.names present).Nodup :=
            ((hperm.map Prod.fst).nodup_iff).mpr hnodup
          have hin : (f.name, v) ∈ present := hperm.mem_iff.mpr List.mem_cons_self
          have hrest : (Entries.erase f.name present).Perm es :=
            ((Entries.perm_cons_erase hpresent hin).symm.trans hperm).cons_inv
          have harrange : arrange fields (Entries.erase f.name present) = es :=
            ih (List.cons.inj hnames).2 (List.nodup_cons.mp hnodup).2 hrest
          rw [arrange, harrange, Entries.get?_of_mem hpresent hin]
          rfl

/-- The field of an argument is one of the struct's. -/
theorem mem_fields_of_fieldFor {t : Table} {count : Nat} {name : String} {field : Field}
    (h : fieldFor t count name = .ok field) : field ∈ t.fields := by
  unfold fieldFor at h
  split at h
  · split at h
    · next hfield =>
      cases h
      exact List.mem_of_getElem? hfield
    · cases h
  · split at h
    · next hfield =>
      cases h
      exact List.mem_of_find?_eq_some hfield
    · cases h

/-- Every typed value is read from an argument that leads to its field. -/
theorem origin_of_typeArguments {r : Reader} {t : Table} {count : Nat}
    {typed typed' arguments : Entries Value}
    (h : typeArguments r t count typed arguments = .ok typed') :
    ∀ e ∈ typed', e ∈ typed ∨ ∃ argument ∈ arguments, ∃ field,
      fieldFor t count argument.1 = .ok field ∧ field.name = e.1 ∧
        r.readFor argument.2.render.toList field = .ok e.2 := by
  induction arguments generalizing typed with
  | nil =>
      cases h
      exact fun e he => .inl he
  | cons argument arguments ih =>
      intro e he
      rw [typeArguments] at h
      split at h
      · cases h
      · next field hfield =>
        split at h
        · cases h
        · next v hread =>
          rcases ih h e he with he | ⟨argument', hin, horigin⟩
          · rcases Entries.eq_or_mem_of_mem_insert he with rfl | he
            · exact .inr ⟨argument, List.mem_cons_self, field, hfield, rfl, hread⟩
            · exact .inl he
          · exact .inr ⟨argument', List.mem_cons_of_mem _ hin, horigin⟩

/-- Typing arguments collects values for fields of the struct, and none twice. -/
theorem writtenRow_of_typeArguments {r : Reader} {t : Table} {count : Nat}
    {typed typed' arguments : Entries Value}
    (hrow : t.WrittenRow (Entries.names r.tables) (.ofFields t.name typed))
    (h : typeArguments r t count typed arguments = .ok typed') :
    t.WrittenRow (Entries.names r.tables) (.ofFields t.name typed') := by
  induction arguments generalizing typed with
  | nil =>
      cases h
      exact hrow
  | cons argument arguments ih =>
      obtain ⟨name, token⟩ := argument
      rw [typeArguments] at h
      split at h
      · cases h
      · next field hfield =>
        split at h
        · cases h
        · next v hread =>
          exact ih (hrow.insert (mem_fields_of_fieldFor hfield) (Reader.written_of_readFor hread)) h

/-- A call is typed if its positions can be counted, and then its arguments are. -/
theorem typeCall_eq_ok_iff {r : Reader} {t : Table} {arguments typed : Entries Value} :
    typeCall r t arguments = .ok typed ↔ ∃ count,
      countPositions (Entries.names arguments) = .ok count ∧
        typeArguments r t count [] arguments = .ok typed := by
  unfold typeCall
  cases countPositions (Entries.names arguments) <;> simp

theorem typeCall_eq_error_iff {r : Reader} {t : Table} {arguments : Entries Value} {fault : Fault} :
    typeCall r t arguments = .error fault ↔
      countPositions (Entries.names arguments) = .error fault ∨
        ∃ count, countPositions (Entries.names arguments) = .ok count ∧
          typeArguments r t count [] arguments = .error fault := by
  unfold typeCall
  cases countPositions (Entries.names arguments) <;> simp

theorem origin_of_typeCall {r : Reader} {t : Table} {arguments typed : Entries Value}
    (h : typeCall r t arguments = .ok typed) :
    ∀ e ∈ typed, ∃ argument ∈ arguments, ∃ field count,
      fieldFor t count argument.1 = .ok field ∧ field.name = e.1 ∧
        r.readFor argument.2.render.toList field = .ok e.2 := by
  obtain ⟨count, -, htyped⟩ := typeCall_eq_ok_iff.mp h
  intro e he
  rcases origin_of_typeArguments htyped e he with he | ⟨argument, hin, field, horigin⟩
  · cases he
  · exact ⟨argument, hin, field, count, horigin⟩

theorem writtenRow_of_typeCall {r : Reader} {t : Table} {arguments typed : Entries Value}
    (h : typeCall r t arguments = .ok typed) :
    t.WrittenRow (Entries.names r.tables) (.ofFields t.name typed) := by
  obtain ⟨count, -, htyped⟩ := typeCall_eq_ok_iff.mp h
  exact writtenRow_of_typeArguments (Table.writtenRow_nil _ t) htyped

/-! ## Instances -/

/-- An instance that can be bound: the call of a declared struct, or a row written for one. -/
def Bindable (tables : Entries Table) (row : Instance) : Prop :=
  ∃ t, Entries.get? tables row.struct = some t ∧ t.name = row.struct ∧
    (row.call.isSome ∨ t.WrittenRow (Entries.names tables) row)

/-- The defaults of every struct are written, and it has the name under which it is declared. -/
def Declared (tables : Entries Table) : Prop :=
  ∀ name t, Entries.get? tables name = some t → t.Written (Entries.names tables) name

/-- The call of a declared struct can be bound. -/
theorem bindable_of_call (htables : Declared tables) {row : Instance} (hcall : row.call.isSome)
    (hstruct : row.struct ∈ Entries.names tables) : Bindable tables row := by
  obtain ⟨t, ht⟩ := Entries.exists_get?_iff.mpr hstruct
  exact ⟨t, ht, (htables row.struct t ht).name_eq, .inl hcall⟩

theorem arrangeInstance_of_undeclared {row : Instance}
    (ht : Entries.get? tables row.struct = none) : arrangeInstance tables row = .ok row := by
  rw [arrangeInstance, ht]

theorem arrangeInstance_of_bound {row : Instance} {t : Table}
    (ht : Entries.get? tables row.struct = some t) (hcall : row.call = none) :
    arrangeInstance tables row = .ok (.ofFields row.struct (arrange t.fields row.fields)) := by
  rw [arrangeInstance, ht]
  simp only [hcall]
  rfl

theorem arrangeInstance_of_call {row : Instance} {t : Table} {place : Location}
    (ht : Entries.get? tables row.struct = some t) (hcall : row.call = some place) :
    arrangeInstance tables row =
      (typeCall ⟨tables, place⟩ t row.fields).map fun fields =>
        .ofFields row.struct (arrange t.fields fields) := by
  rw [arrangeInstance, ht]
  simp only [hcall]

/-- Arranging puts into order what an instance of a declared struct holds, or the typed arguments if
it is a call. -/
theorem arrangeInstance_cases {row row' : Instance} {t : Table}
    (ht : Entries.get? tables row.struct = some t) (h : arrangeInstance tables row = .ok row') :
    ∃ present, row' = .ofFields row.struct (arrange t.fields present) ∧
      ((row.call = none ∧ present = row.fields) ∨
        ∃ place, row.call = some place ∧
          typeCall ⟨tables, place⟩ t row.fields = .ok present) := by
  cases hcall : row.call with
  | none =>
      rw [arrangeInstance_of_bound ht hcall] at h
      cases h
      exact ⟨_, rfl, .inl ⟨rfl, rfl⟩⟩
  | some place =>
      rw [arrangeInstance_of_call ht hcall] at h
      obtain ⟨present, hpresent, rfl⟩ := map_eq_ok_iff.mp h
      exact ⟨present, rfl, .inr ⟨place, rfl, hpresent⟩⟩

theorem complete_of_arrangeInstance (htables : Declared tables) {row row' : Instance}
    (hrow : Bindable tables row) (h : arrangeInstance tables row = .ok row') :
    row'.Complete tables ∧ ∀ v ∈ Entries.values row'.fields, v.Written (Entries.names tables) := by
  obtain ⟨t, ht, hname, hrow⟩ := hrow
  obtain ⟨present, rfl, hpresent⟩ := arrangeInstance_cases ht h
  have hwritten : t.WrittenRow (Entries.names tables) (.ofFields t.name present) := by
    rcases hpresent with ⟨hcall, rfl⟩ | ⟨location, -, htyped⟩
    · rcases hrow with hsome | hrow
      · rw [hcall] at hsome
        cases hsome
      · exact { hrow with struct_eq := rfl, bound := rfl }
    · exact writtenRow_of_typeCall htyped
  refine ⟨⟨rfl, t, ht, names_arrange hwritten.nodup hwritten.subset⟩, ?_⟩
  exact forall_mem_arrange hwritten.values (htables row.struct t ht).defaults
    (written_of_scalar rfl fun row heq => by cases heq)

theorem mapInstances_items {bind : Instance → Except Fault Instance} {items items' : List Value} :
    mapItems bind items = .ok items' ↔
      List.Forall₂ (fun v w => mapInstances bind v = .ok w) items items' :=
  pass_eq_ok_iff (mapInstances bind) (mapItems bind) rfl fun v vs => by
    rw [mapItems]
    cases mapInstances bind v <;> rfl

/-- What holds of every row that binding makes of a call, and of all rows in it, holds of every row
in what a written value becomes. -/
theorem forall_rows_of_mapInstances {P : Instance → Prop}
    {bind : Instance → Except Fault Instance}
    (hbind : ∀ row row', row.call.isSome → row.struct ∈ Entries.names tables →
      bind row = .ok row' →
      P row' ∧ ∀ v ∈ Entries.values row'.fields, ∀ inner, v.Holds (.instance inner) → P inner)
    {v w : Value} (hv : v.Written (Entries.names tables)) (h : mapInstances bind v = .ok w) :
    ∀ row, w.Holds (.instance row) → P row := by
  induction v using Value.contents_induction generalizing w with
  | step v ih =>
      intro row hrow
      cases v with
      | array items =>
          obtain ⟨items', hitems, rfl⟩ := map_eq_ok_iff.mp h
          rcases holds_iff.mp hrow with heq | ⟨q, hq, hrow⟩
          · cases heq
          · obtain ⟨p, hp, hpq⟩ := exists_mem_left (mapInstances_items.mp hitems) hq
            exact ih p hp (hv.part hp) hpq row hrow
      | «instance» call =>
          obtain ⟨bound, hbound, rfl⟩ := map_eq_ok_iff.mp h
          obtain ⟨hcall, hstruct⟩ := hv call (.refl _)
          obtain ⟨hself, hfields⟩ := hbind call bound hcall hstruct hbound
          rcases holds_iff.mp hrow with heq | ⟨q, hq, hrow⟩
          · cases heq
            exact hself
          · exact hfields q hq row hrow
      | _ =>
          -- nothing else holds an instance
          cases h
          rcases holds_iff.mp hrow with heq | ⟨q, hq, -⟩
          · cases heq
          · cases hq

/-- An instance is arranged, and what its fields then hold is bound with one level less to go. -/
theorem bindWithin_succ_eq_ok_iff {depth : Nat} {path : List String} {row row' : Instance} :
    bindWithin tables (depth + 1) path row = .ok row' ↔
      ∃ arranged fields, arrangeInstance tables row = .ok arranged ∧
        Entries.Pointwise
          (fun v w => mapInstances (bindWithin tables depth (path ++ [arranged.struct])) v = .ok w)
          arranged.fields fields ∧ row' = { arranged with fields := fields } := by
  rw [bindWithin]
  cases arrangeInstance tables row with
  | error e => simp
  | ok arranged =>
      simp only [map_eq_ok_iff, Entries.tryMapValues_eq_ok_iff]
      constructor
      · rintro ⟨fields, hfields, rfl⟩
        exact ⟨arranged, fields, rfl, hfields, rfl⟩
      · rintro ⟨_, fields, ⟨⟩, hfields, rfl⟩
        exact ⟨fields, hfields, rfl⟩

/-- Binding makes an instance complete, with bound fields. -/
theorem complete_of_bindWithin (htables : Declared tables) {depth : Nat} {path : List String}
    {row row' : Instance} (hrow : Bindable tables row)
    (h : bindWithin tables depth path row = .ok row') :
    row'.Complete tables ∧ ∀ v ∈ Entries.values row'.fields, v.Bound tables := by
  induction depth generalizing path row row' with
  | zero => cases h
  | succ depth ih =>
      obtain ⟨arranged, fields, harranged, hfields, rfl⟩ := bindWithin_succ_eq_ok_iff.mp h
      obtain ⟨⟨hbound, t, ht, hnames⟩, hvalues⟩ :=
        complete_of_arrangeInstance htables hrow harranged
      refine ⟨⟨hbound, t, ht, hfields.names_eq.symm.trans hnames⟩, fun w hw => ?_⟩
      obtain ⟨v, hv, hvw⟩ := exists_mem_left hfields.values hw
      refine forall_rows_of_mapInstances ?_ (hvalues v hv) hvw
      -- a call inside is bound with one level less
      intro call call' hcall hstruct hbind
      exact ih (bindable_of_call htables hcall hstruct) hbind

end Binding

/-! ## Documents -/

theorem bound_of_bindValue {tables : Entries Table} (htables : Declared tables) {v w : Value}
    (hv : v.Written (Entries.names tables)) (h : bindValue tables v = .ok w) : w.Bound tables := by
  refine forall_rows_of_mapInstances ?_ hv h
  intro call call' hcall hstruct hbind
  exact complete_of_bindWithin htables (bindable_of_call htables hcall hstruct) hbind

theorem bindRows_eq_ok_iff {tables : Entries Table} {rows rows' : List Instance} :
    bindRows tables rows = .ok rows' ↔
      List.Forall₂ (fun row row' => bindInstance tables row = .ok row') rows rows' :=
  pass_eq_ok_iff (bindInstance tables) (bindRows tables) rfl fun row rows => by
    rw [bindRows]
    cases bindInstance tables row <;> rfl

/-- A table whose rows are bound is otherwise the table. -/
def BoundTable (tables : Entries Table) (t u : Table) : Prop :=
  ∃ rows, bindRows tables t.rows = .ok rows ∧ { t with rows := rows } = u

namespace Document

variable {d e : Document}

theorem pointwise_of_bind (h : d.bind = .ok e) :
    Entries.Pointwise (fun v w => bindValue d.tables v = .ok w) d.globals e.globals ∧
      Entries.Pointwise (BoundTable d.tables) d.tables e.tables := by
  unfold bind at h
  split at h
  · cases h
  · next globals hglobals =>
    obtain ⟨tables, htables, rfl⟩ := map_eq_ok_iff.mp h
    refine ⟨Entries.tryMapValues_eq_ok_iff.mp hglobals, ?_⟩
    rw [Entries.tryMapValues_eq_ok_iff] at htables
    simp only [map_eq_ok_iff] at htables
    exact htables

end Document

/-- Every struct of the one list is declared in the other with the same fields. -/
def SameFields (tables tables' : Entries Table) : Prop :=
  ∀ name t, Entries.get? tables name = some t →
    ∃ u, Entries.get? tables' name = some u ∧ u.fieldNames = t.fieldNames

theorem sameFields_of_pointwise {R : Table → Table → Prop} {tables tables' : Entries Table}
    (h : Entries.Pointwise R tables tables') (hR : ∀ t u, R t u → u.fields = t.fields) :
    SameFields tables tables' := by
  intro name t ht
  obtain ⟨u, hu, htu⟩ := h.get?_eq_some_left ht
  refine ⟨u, hu, ?_⟩
  rw [Table.fieldNames, hR t u htu]
  rfl

theorem Record.Complete.of_sameFields {tables tables' : Entries Table} {row : Instance}
    (h : row.Complete tables) (hsame : SameFields tables tables') : row.Complete tables' := by
  obtain ⟨hbound, t, ht, hnames⟩ := h
  obtain ⟨u, hu, hfields⟩ := hsame row.struct t ht
  exact ⟨hbound, u, hu, hnames.trans hfields.symm⟩

/-- A document all of whose instances are complete. -/
structure Document.Bound (d : Document) : Prop where
  rows : ∀ entry ∈ d.tables, ∀ row ∈ entry.2.rows, row.Complete d.tables
  roots : ∀ v ∈ d.roots, v.Bound d.tables

namespace Document

variable {d e : Document}

theorem Bound.of_holds (h : d.Bound) {row : Instance} (hrow : d.Holds (.instance row)) :
    row.Complete d.tables := by
  obtain ⟨root, hroot, hrow⟩ := hrow
  exact h.roots root hroot row hrow

/-- The rows of a written document can be bound. -/
theorem Written.bindable (hd : d.Written) {entry : String × Table} (hentry : entry ∈ d.tables)
    {row : Instance} (hrow : row ∈ entry.2.rows) : Bindable d.tables row := by
  have hwritten := (hd.tables entry hentry).rows row hrow
  refine ⟨entry.2, ?_, hwritten.struct_eq.symm, .inr hwritten⟩
  rw [hwritten.struct_eq, (hd.tables entry hentry).name_eq]
  exact Entries.get?_of_mem hd.nodup hentry

/-- Binding a written document leaves no instance incomplete. -/
theorem bound_of_bind (hd : d.Written) (h : d.bind = .ok e) : e.Bound := by
  obtain ⟨hglobals, htables⟩ := pointwise_of_bind h
  have hdeclared : Declared d.tables := fun name t ht => hd.table? ht
  have hsame : SameFields d.tables e.tables := by
    refine sameFields_of_pointwise htables ?_
    rintro t _ ⟨rows, -, rfl⟩
    rfl
  -- a row of the bound document was bound from a row of the same struct
  have hrows : ∀ entry ∈ e.tables, ∀ row ∈ entry.2.rows,
      row.Complete d.tables ∧ ∀ v ∈ Entries.values row.fields, v.Bound d.tables := by
    intro entry' hentry' row' hrow'
    obtain ⟨entry, hentry, -, rows, hbind, heq⟩ := exists_mem_left htables hentry'
    rw [← heq] at hrow'
    obtain ⟨row, hrow, hbound⟩ := exists_mem_left (bindRows_eq_ok_iff.mp hbind) hrow'
    exact complete_of_bindWithin hdeclared (hd.bindable hentry hrow) hbound
  refine ⟨fun entry hentry row hrow => (hrows entry hentry row hrow).1.of_sameFields hsame, ?_⟩
  intro w hw row hrow
  refine Record.Complete.of_sameFields ?_ hsame
  rcases mem_roots.mp hw with hw | ⟨entry, hentry, row', hrow', hw⟩
  · obtain ⟨v, hv, hvw⟩ := exists_mem_left hglobals.values hw
    exact bound_of_bindValue hdeclared (hd.globals v hv) hvw row hrow
  · exact (hrows entry hentry row' hrow').2 w hw row hrow

end Document

end RowConfig
