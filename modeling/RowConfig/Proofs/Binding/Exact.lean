import Mathlib
import RowConfig.Proofs.Agreement
import RowConfig.Proofs.Binding

/-!
# What binding makes of a document

`BindsTo` says, level by level, what binding makes of a value: a row gets the fields of its struct
in their order, each with the value that the row has for it, with its argument typed at the field,
or with the default, and then the fields that the struct does not declare; all of these are bound in
turn. Binding a document does this to its globals and rows, changes nothing else, and changes
nothing when it is done again (`Document.bind_exact`).
-/

namespace RowConfig

open Binding Value

/-! ## What binding should do -/

namespace Table

/-- The field that an argument of a call is for: the one at the position for which its name stands,
else the one of that name. -/
def argumentField? (t : Table) (argument : String) : Option Field :=
  match position? argument with
  | some position => t.fields[position]?
  | none => t.field? argument

/-- The last of the arguments that are for a field. -/
def argument? (t : Table) (arguments : Entries Value) (field : String) : Option Value :=
  (arguments.reverse.find? fun a => (t.argumentField? a.1).any (·.name == field)).map Prod.snd

/-- What stands in a field of a row before it is itself bound. -/
inductive Fills (tables : Entries Table) (t : Table) (row : Instance) (f : Field) : Value → Prop
  /-- The value that the row has. -/
  | present {v : Value} : row.call = none → row.get? f.name = some v → Fills tables t row f v
  /-- The argument of a call, typed at the field. -/
  | typed {place : Location} {token v : Value} : row.call = some place →
      t.argument? row.fields f.name = some token →
      (Reader.mk tables place).readFor token.render.toList f = .ok v → Fills tables t row f v
  /-- The default or null, where there is neither. -/
  | absent : (row.call = none → row.get? f.name = none) →
      (row.call.isSome → t.argument? row.fields f.name = none) →
      Fills tables t row f (f.default.getD .null)

/-- The fields of a row that its struct does not declare, in their order. A call has none. -/
def undeclared (t : Table) (row : Instance) : Entries Value :=
  if row.isBound then row.fields.filter fun e => e.1 ∉ t.fieldNames else []

end Table

/-- What binding makes of a value. -/
inductive Value.BindsTo (tables : Entries Table) : Value → Value → Prop
  /-- What holds no instance stays. -/
  | leaf {v : Value} : v.IsLeaf → BindsTo tables v v
  | array {items items' : List Value} :
      List.Forall₂ (BindsTo tables) items items' → BindsTo tables (.array items) (.array items')
  /-- An instance of a struct that is not declared stays, its fields bound. -/
  | undeclared {row : Instance} {fields : Entries Value} :
      Entries.get? tables row.struct = none → Entries.names fields = Entries.names row.fields →
      List.Forall₂ (BindsTo tables) (Entries.values row.fields) (Entries.values fields) →
      BindsTo tables (.instance row) (.instance { row with fields := fields })
  /-- An instance of a declared struct gets the struct's fields, in their order, and then its
  further fields, all of them bound. -/
  | declared {row : Instance} {t : Table} {filled : List Value} {fields : Entries Value} :
      Entries.get? tables row.struct = some t →
      List.Forall₂ (t.Fills tables row) t.fields filled →
      Entries.names fields = t.fieldNames ++ Entries.names (t.undeclared row) →
      List.Forall₂ (BindsTo tables) (filled ++ Entries.values (t.undeclared row))
        (Entries.values fields) →
      BindsTo tables (.instance row) (.instance (.ofFields row.struct fields))

/-- No instance in the value has two fields of one name. -/
def Value.Regular (v : Value) : Prop :=
  ∀ row, v.Holds (.instance row) → (Entries.names row.fields).Nodup

/-- The fields of every row and of every instance in the document are maps: no name repeats. -/
structure Document.Regular (d : Document) : Prop where
  globals : ∀ v ∈ Entries.values d.globals, v.Regular
  rows : ∀ entry ∈ d.tables, ∀ row ∈ entry.2.rows, (Value.instance row).Regular
  defaults : ∀ entry ∈ d.tables, ∀ f ∈ entry.2.fields, ∀ v, f.default = some v → v.Regular

/-- The instance is bound and has the fields of the struct in their order, and then others. -/
def Record.Arranged (t : Table) (row : Instance) : Prop :=
  row.isBound ∧ ∃ further, Entries.names row.fields = t.fieldNames ++ further ∧
    ∀ name ∈ further, name ∉ t.fieldNames

/-- `row` is a row of a struct, or an instance written in a global or a row. -/
def Document.HoldsRow (d : Document) (row : Instance) : Prop :=
  (∃ entry ∈ d.tables, row ∈ entry.2.rows) ∨ d.Holds (.instance row)

/-- Binding makes one row of the other. -/
def BindsRow (tables : Entries Table) (row row' : Instance) : Prop :=
  BindsTo tables (.instance row) (.instance row')

/-! ## Regular values -/

namespace Value

variable {v w : Value} {structs : List String}

theorem Regular.part (h : v.Regular) (hw : w ∈ v.parts) : w.Regular :=
  fun row hrow => h row (.of_part hw hrow)

theorem IsLeaf.regular (h : v.IsLeaf) : v.Regular := by
  intro row hrow
  rcases holds_iff.mp hrow with rfl | ⟨p, hp, -⟩
  · exact absurd rfl (h.2 row)
  · rw [h.1] at hp
    cases hp

theorem regular_instance {row : Instance} (hnodup : (Entries.names row.fields).Nodup)
    (hfields : ∀ v ∈ Entries.values row.fields, v.Regular) : (Value.instance row).Regular := by
  intro row' hrow
  rcases holds_iff.mp hrow with heq | ⟨p, hp, hrow⟩
  · cases heq
    exact hnodup
  · exact hfields p hp row' hrow

/-- A value that was read is regular. -/
theorem Alike.regular (h : Alike structs v w) : v.Regular := by
  induction v using Value.contents_induction generalizing w with
  | step v ih =>
      cases h with
      | leaf hv => exact hv.regular
      | call _ hnodup hleaves => exact regular_instance hnodup fun v hv => (hleaves v hv).regular
      | array hitems =>
          intro row hrow
          rcases holds_iff.mp hrow with heq | ⟨p, hp, hrow⟩
          · cases heq
          · obtain ⟨i, hi⟩ := List.mem_iff_getElem?.mp hp
            obtain ⟨q, -, hpq⟩ := exists_getElem?_right hitems hi
            exact ih p hp hpq row hrow

theorem regular_of_readFor {r : Reader} {token : List Char} {f : Field}
    (h : r.readFor token f = .ok v) : v.Regular := by
  obtain ⟨w, -, hvw⟩ := (Reader.agree_readFor r r rfl token f).exists_right h
  exact hvw.regular

end Value

namespace Binding

variable {tables : Entries Table} {t : Table} {row row' mid : Instance}

/-! ## One row -/

/-- The value of a field where these values are present. -/
def fillFrom (present : Entries Value) (f : Field) : Value :=
  ((Entries.get? present f.name).orElse fun _ => f.default).getD .null

/-- Where no name repeats, arranging fills the fields and leaves the other values behind them. -/
theorem arrange_eq {fields : List Field} {present : Entries Value}
    (hfields : (fields.map Field.name).Nodup) (hnodup : (Entries.names present).Nodup) :
    arrange fields present =
      (fields.map fun f => (f.name, fillFrom present f)) ++
        present.filter fun e => e.1 ∉ fields.map Field.name := by
  induction fields generalizing present with
  | nil => simp [arrange]
  | cons f fields ih =>
      obtain ⟨hf, hfields⟩ := List.nodup_cons.mp hfields
      rw [arrange, ih hfields (Entries.nodup_names_erase hnodup), List.map_cons, List.cons_append]
      congr 2
      · -- the other fields do not miss the value that was taken out
        refine List.map_congr_left fun g hg => ?_
        have hne : g.name ≠ f.name := by
          intro heq
          exact hf (heq ▸ List.mem_map_of_mem hg)
        rw [fillFrom, Entries.get?_erase_of_ne hne, fillFrom]
      · rw [Entries.erase_eq_filter hnodup, List.filter_filter]
        refine List.filter_congr fun e _ => ?_
        rw [Bool.eq_iff_iff]
        simp [and_comm]

theorem argument?_cons (t : Table) (argument : String × Value) (arguments : Entries Value)
    (field : String) :
    t.argument? (argument :: arguments) field =
      (t.argument? arguments field).or
        (if (t.argumentField? argument.1).any (·.name == field) then some argument.2 else none) := by
  unfold Table.argument?
  rw [List.reverse_cons, List.find?_append, Option.map_or, List.find?_singleton]
  split <;> rfl

theorem fieldFor_eq_ok_iff {count : Nat} {name : String} {field : Field} :
    fieldFor t count name = .ok field ↔ t.argumentField? name = some field := by
  unfold fieldFor Table.argumentField?
  split <;> split <;> simp_all

/-- A field gets the last of the arguments for it, typed, and otherwise keeps what it had. -/
theorem get?_typeArguments {r : Reader} {count : Nat} {typed typed' arguments : Entries Value}
    (hfields : t.fieldNames.Nodup) (h : typeArguments r t count typed arguments = .ok typed')
    {f : Field} (hf : f ∈ t.fields) :
    (t.argument? arguments f.name = none →
      Entries.get? typed' f.name = Entries.get? typed f.name) ∧
    ∀ token, t.argument? arguments f.name = some token →
      ∃ v, r.readFor token.render.toList f = .ok v ∧ Entries.get? typed' f.name = some v := by
  induction arguments generalizing typed with
  | nil =>
      cases h
      exact ⟨fun _ => rfl, fun token htoken => by cases htoken⟩
  | cons argument arguments ih =>
      obtain ⟨name, token⟩ := argument
      rw [typeArguments] at h
      split at h
      · cases h
      · next field hfield =>
        split at h
        · cases h
        · next v hread =>
          have hargument := fieldFor_eq_ok_iff.mp hfield
          obtain ⟨hnone, hsome⟩ := ih h
          rw [argument?_cons, hargument, Option.any_some]
          cases hlater : t.argument? arguments f.name with
          | some token' =>
              refine ⟨fun hnone => absurd hnone (Option.some_ne_none _), ?_⟩
              rintro _ ⟨⟩
              exact hsome token' hlater
          | none =>
              rw [Option.none_or, hnone hlater, Entries.get?_insert]
              by_cases heq : field.name = f.name
              · -- names do not repeat, so the argument was typed at this very field
                obtain rfl : field = f :=
                  List.inj_on_of_nodup_map hfields (mem_fields_of_fieldFor hfield) hf heq
                simp only [beq_self_eq_true, if_true]
                refine ⟨fun hnone => absurd hnone (Option.some_ne_none _), ?_⟩
                rintro _ ⟨⟩
                exact ⟨v, hread, rfl⟩
              · simp [heq]

/-- The fields of a row that is no call are filled from its values. -/
theorem fills_of_bound (hcall : row.call = none) (f : Field) :
    t.Fills tables row f (fillFrom row.fields f) := by
  unfold fillFrom
  cases hget : Entries.get? row.fields f.name with
  | some v => exact .present hcall hget
  | none =>
      refine .absent (fun _ => hget) fun hsome => ?_
      rw [hcall] at hsome
      cases hsome

/-- The fields of a call are filled from its typed arguments. -/
theorem fills_of_call {place : Location} {typed : Entries Value}
    (hcall : row.call = some place) (hfields : t.fieldNames.Nodup)
    (h : typeCall ⟨tables, place⟩ t row.fields = .ok typed) {f : Field} (hf : f ∈ t.fields) :
    t.Fills tables row f (fillFrom typed f) := by
  obtain ⟨count, -, htyped⟩ := typeCall_eq_ok_iff.mp h
  obtain ⟨hnone, hsome⟩ := get?_typeArguments hfields htyped hf
  unfold fillFrom
  cases hargument : t.argument? row.fields f.name with
  | some token =>
      obtain ⟨v, hread, hget⟩ := hsome token hargument
      rw [hget]
      exact .typed hcall hargument hread
  | none =>
      rw [hnone hargument]
      refine .absent (fun hnocall => ?_) fun _ => hargument
      rw [hcall] at hnocall
      cases hnocall

/-- What arranging leaves of an instance of a declared struct: its fields filled, and the further
fields of the instance. -/
theorem fills_of_arrangeInstance (ht : Entries.get? tables row.struct = some t)
    (hfields : t.fieldNames.Nodup) (hnodup : (Entries.names row.fields).Nodup)
    (h : arrangeInstance tables row = .ok mid) :
    ∃ filled, mid = .ofFields row.struct mid.fields ∧
      List.Forall₂ (t.Fills tables row) t.fields filled ∧
      Entries.names mid.fields = t.fieldNames ++ Entries.names (t.undeclared row) ∧
      Entries.values mid.fields = filled ++ Entries.values (t.undeclared row) := by
  obtain ⟨present, rfl, hpresent⟩ := arrangeInstance_cases ht h
  -- it is enough to know what was present and what of it is for no field
  suffices hsuffices : (Entries.names present).Nodup ∧
      (∀ f ∈ t.fields, t.Fills tables row f (fillFrom present f)) ∧
      (present.filter fun e => e.1 ∉ t.fieldNames) = t.undeclared row by
    obtain ⟨hpresent, hfills, hfurther⟩ := hsuffices
    refine ⟨t.fields.map (fillFrom present), rfl, ?_, ?_, ?_⟩
    · rw [List.forall₂_map_right_iff]
      exact List.forall₂_same.mpr hfills
    · show Entries.names (arrange t.fields present) = _
      rw [arrange_eq hfields hpresent, ← hfurther]
      simp [Entries.names, Table.fieldNames]
    · show Entries.values (arrange t.fields present) = _
      rw [arrange_eq hfields hpresent, ← hfurther]
      simp [Entries.values, Table.fieldNames]
  rcases hpresent with ⟨hcall, rfl⟩ | ⟨place, hcall, htyped⟩
  · refine ⟨hnodup, fun f _ => fills_of_bound hcall f, ?_⟩
    rw [Table.undeclared, Record.isBound, hcall]
    rfl
  · have hwritten := writtenRow_of_typeCall htyped
    refine ⟨hwritten.nodup, fun f hf => fills_of_call hcall hfields htyped hf, ?_⟩
    rw [Table.undeclared, Record.isBound, hcall]
    refine List.filter_eq_nil_iff.mpr fun e he => ?_
    simpa using hwritten.subset (Entries.mem_names_of_mem he)

/-- The values of an arranged instance are regular if its own and the defaults are. -/
theorem regular_of_arrangeInstance (hrow : (Value.instance row).Regular)
    (hdefaults : ∀ name t, Entries.get? tables name = some t →
      ∀ f ∈ t.fields, ∀ v, f.default = some v → v.Regular)
    (h : arrangeInstance tables row = .ok mid) : ∀ v ∈ Entries.values mid.fields, v.Regular := by
  cases ht : Entries.get? tables row.struct with
  | none =>
      rw [arrangeInstance_of_undeclared ht] at h
      cases h
      exact fun v hv => hrow.part hv
  | some t =>
      obtain ⟨present, rfl, hpresent⟩ := arrangeInstance_cases ht h
      refine forall_mem_arrange (fun v hv => ?_) (hdefaults _ t ht) isLeaf_null.regular
      rcases hpresent with ⟨-, rfl⟩ | ⟨place, -, htyped⟩
      · exact hrow.part hv
      · obtain ⟨e, he, rfl⟩ := List.mem_map.mp hv
        obtain ⟨_, -, f, _, -, -, hread⟩ := origin_of_typeCall htyped e he
        exact regular_of_readFor hread

/-! ## Values and whole instances -/

theorem bindsTo_of_mapInstances {bind : Instance → Except Fault Instance}
    (hbind : ∀ row row', (Value.instance row).Regular → bind row = .ok row' →
      BindsTo tables (.instance row) (.instance row'))
    {v w : Value} (hv : v.Regular) (h : mapInstances bind v = .ok w) : BindsTo tables v w := by
  induction v using Value.contents_induction generalizing w with
  | step v ih =>
      cases v with
      | array items =>
          obtain ⟨items', hitems, rfl⟩ := map_eq_ok_iff.mp h
          exact .array (forall₂_imp_of_mem (fun p hp q hpq => ih p hp (hv.part hp) hpq)
            (mapInstances_items.mp hitems))
      | «instance» row =>
          obtain ⟨row', hrow', rfl⟩ := map_eq_ok_iff.mp h
          exact hbind row row' hv hrow'
      | _ =>
          -- nothing else is changed
          cases h
          exact .leaf ⟨rfl, fun _ heq => by cases heq⟩

/-- Binding makes of an instance what it should. The induction is on the levels left to go. -/
theorem bindsTo_of_bindWithin
    (hfields : ∀ name t, Entries.get? tables name = some t → t.fieldNames.Nodup)
    (hdefaults : ∀ name t, Entries.get? tables name = some t →
      ∀ f ∈ t.fields, ∀ v, f.default = some v → v.Regular)
    {depth : Nat} {path : List String} (hrow : (Value.instance row).Regular)
    (h : bindWithin tables depth path row = .ok row') :
    BindsTo tables (.instance row) (.instance row') := by
  induction depth generalizing path row row' with
  | zero => cases h
  | succ depth ih =>
      obtain ⟨mid, fields, harranged, hbound, rfl⟩ := bindWithin_succ_eq_ok_iff.mp h
      have hvalues : List.Forall₂ (BindsTo tables) (Entries.values mid.fields)
          (Entries.values fields) := by
        refine forall₂_imp_of_mem (fun v hv w hvw => ?_) hbound.values
        exact bindsTo_of_mapInstances (fun _ _ hcall hbind => ih hcall hbind)
          (regular_of_arrangeInstance hrow hdefaults harranged v hv) hvw
      cases ht : Entries.get? tables row.struct with
      | none =>
          obtain rfl : row = mid :=
            Except.ok.inj ((arrangeInstance_of_undeclared ht).symm.trans harranged)
          exact .undeclared ht hbound.names_eq.symm hvalues
      | some t =>
          obtain ⟨filled, hmid, hfills, hnames, hfilled⟩ :=
            fills_of_arrangeInstance ht (hfields _ t ht) (hrow row (.refl _)) harranged
          rw [hfilled] at hvalues
          rw [hmid]
          exact .declared ht hfills (hbound.names_eq.symm.trans hnames) hvalues

/-- Every instance of a declared struct in what binding makes of a value is arranged. -/
theorem arranged_of_bindsTo {v w : Value} (h : BindsTo tables v w) (hrow : w.Holds (.instance row))
    (ht : Entries.get? tables row.struct = some t) : row.Arranged t := by
  induction w using Value.contents_induction generalizing v with
  | step w ih =>
      cases h with
      | leaf hv =>
          rcases holds_iff.mp hrow with heq | ⟨p, hp, -⟩
          · exact absurd heq (hv.2 row)
          · rw [hv.1] at hp
            cases hp
      | array hitems =>
          rcases holds_iff.mp hrow with heq | ⟨q, hq, hrow⟩
          · cases heq
          · obtain ⟨p, -, hpq⟩ := exists_mem_left hitems hq
            exact ih q hq hpq hrow
      | undeclared hnone _ hvalues =>
          rcases holds_iff.mp hrow with heq | ⟨q, hq, hrow⟩
          · cases heq
            rw [hnone] at ht
            cases ht
          · obtain ⟨p, -, hpq⟩ := exists_mem_left hvalues hq
            exact ih q hq hpq hrow
      | @declared old u filled fields hu _ hnames hvalues =>
          rcases holds_iff.mp hrow with heq | ⟨q, hq, hrow⟩
          · cases heq
            obtain rfl : u = t := Option.some.inj (hu.symm.trans ht)
            refine ⟨rfl, _, hnames, fun name hname => ?_⟩
            obtain ⟨e, he, rfl⟩ := List.mem_map.mp hname
            unfold Table.undeclared at he
            split at he
            · simpa using (List.mem_filter.mp he).2
            · cases he
          · obtain ⟨p, -, hpq⟩ := exists_mem_left hvalues hq
            exact ih q hq hpq hrow

/-! ## Binding again -/

theorem exists_names_arrange (fields : List Field) (present : Entries Value) :
    ∃ further, Entries.names (arrange fields present) = fields.map Field.name ++ further := by
  induction fields generalizing present with
  | nil => exact ⟨_, rfl⟩
  | cons f fields ih =>
      obtain ⟨further, hfurther⟩ := ih (Entries.erase f.name present)
      exact ⟨further, congrArg (f.name :: ·) hfurther⟩

/-- Entries that begin with the fields in their order are arranged. -/
theorem arrange_of_names {fields : List Field} {es : Entries Value} {further : List String}
    (h : Entries.names es = fields.map Field.name ++ further) : arrange fields es = es := by
  induction fields generalizing es with
  | nil => rfl
  | cons f fields ih =>
      cases es with
      | nil => cases h
      | cons e es =>
          obtain ⟨name, v⟩ := e
          obtain ⟨rfl, hes⟩ := List.cons.inj h
          have herase : Entries.erase f.name ((f.name, v) :: es) = es := if_pos rfl
          have hget : Entries.get? ((f.name, v) :: es) f.name = some v := if_pos rfl
          rw [arrange, herase, hget, ih hes]
          rfl

/-- Both lists declare the same structs, with the same fields. -/
def SameDeclared (tables tables' : Entries Table) : Prop :=
  ∀ name, (Entries.get? tables' name).map Table.fields = (Entries.get? tables name).map Table.fields

variable {tables' : Entries Table}

/-- An arranged instance stays as it is when it is arranged again, whatever its fields hold then. -/
theorem arrangeInstance_of_arrangeInstance (hsame : SameDeclared tables tables')
    (h : arrangeInstance tables row = .ok mid) {fields : Entries Value}
    (hnames : Entries.names fields = Entries.names mid.fields) :
    arrangeInstance tables' { mid with fields := fields } = .ok { mid with fields := fields } := by
  have hdeclared := hsame row.struct
  cases ht : Entries.get? tables row.struct with
  | none =>
      rw [arrangeInstance_of_undeclared ht] at h
      cases h
      rw [ht, Option.map_none, Option.map_eq_none_iff] at hdeclared
      exact arrangeInstance_of_undeclared hdeclared
  | some t =>
      obtain ⟨present, rfl, -⟩ := arrangeInstance_cases ht h
      rw [ht, Option.map_some, Option.map_eq_some_iff] at hdeclared
      obtain ⟨u, hu, hfields⟩ := hdeclared
      obtain ⟨further, hfurther⟩ := exists_names_arrange t.fields present
      have harrange : arrange u.fields fields = fields := by
        rw [hfields]
        exact arrange_of_names (hnames.trans hfurther)
      calc arrangeInstance tables' (.ofFields row.struct fields)
          = .ok (.ofFields row.struct (arrange u.fields fields)) := arrangeInstance_of_bound hu rfl
        _ = .ok (.ofFields row.struct fields) := by rw [harrange]

theorem mapInstances_of_mapInstances {bind bind' : Instance → Except Fault Instance}
    (hbind : ∀ row row', bind row = .ok row' → bind' row' = .ok row')
    {v w : Value} (h : mapInstances bind v = .ok w) : mapInstances bind' w = .ok w := by
  induction v using Value.contents_induction generalizing w with
  | step v ih =>
      cases v with
      | array items =>
          obtain ⟨items', hitems, rfl⟩ := map_eq_ok_iff.mp h
          refine map_eq_ok_iff.mpr ⟨items', mapInstances_items.mpr ?_, rfl⟩
          rw [List.forall₂_same]
          intro q hq
          obtain ⟨p, hp, hpq⟩ := exists_mem_left (mapInstances_items.mp hitems) hq
          exact ih p hp hpq
      | «instance» row =>
          obtain ⟨row', hrow', rfl⟩ := map_eq_ok_iff.mp h
          exact map_eq_ok_iff.mpr ⟨row', hbind row row' hrow', rfl⟩
      | _ =>
          cases h
          rfl

/-- A bound instance stays as it is when it is bound again. -/
theorem bindWithin_of_bindWithin (hsame : SameDeclared tables tables') {depth : Nat}
    {path : List String} (path' : List String) (h : bindWithin tables depth path row = .ok row') :
    bindWithin tables' depth path' row' = .ok row' := by
  induction depth generalizing path path' row row' with
  | zero => cases h
  | succ depth ih =>
      obtain ⟨mid, fields, harranged, hbound, rfl⟩ := bindWithin_succ_eq_ok_iff.mp h
      refine bindWithin_succ_eq_ok_iff.mpr ⟨_, fields,
        arrangeInstance_of_arrangeInstance hsame harranged hbound.names_eq.symm, ?_, rfl⟩
      refine List.forall₂_same.mpr fun e he => ⟨rfl, ?_⟩
      obtain ⟨v, -, hv⟩ := exists_mem_left hbound.values (Entries.mem_values_of_mem he)
      exact mapInstances_of_mapInstances (fun _ _ hcall => ih _ hcall) hv

end Binding

/-! ## Documents -/

namespace Document

variable {d e : Document}

theorem sameDeclared_of_bind (h : d.bind = .ok e) : SameDeclared d.tables e.tables := by
  intro name
  have hrel := (pointwise_of_bind h).2.get?_rel name
  cases ht : Entries.get? d.tables name with
  | none =>
      cases hu : Entries.get? e.tables name with
      | none => rfl
      | some u =>
          rw [ht, hu] at hrel
          cases hrel
  | some t =>
      obtain ⟨u, hu, rows, -, rfl⟩ := (pointwise_of_bind h).2.get?_eq_some_left ht
      rw [hu]
      rfl

/-- Binding a bound document changes nothing. -/
theorem bind_of_bind (h : d.bind = .ok e) : e.bind = .ok e := by
  obtain ⟨hglobals, htables⟩ := pointwise_of_bind h
  have hsame := sameDeclared_of_bind h
  have hagain : ∀ row row', bindInstance d.tables row = .ok row' →
      bindInstance e.tables row' = .ok row' := fun _ _ => bindWithin_of_bindWithin hsame []
  have hglobals' : Entries.tryMapValues (bindValue e.tables) e.globals = .ok e.globals := by
    refine Entries.tryMapValues_eq_ok_iff.mpr (List.forall₂_same.mpr fun entry hentry => ⟨rfl, ?_⟩)
    obtain ⟨v, -, hv⟩ := exists_mem_left hglobals.values (Entries.mem_values_of_mem hentry)
    exact mapInstances_of_mapInstances hagain hv
  unfold bind
  rw [hglobals']
  refine map_eq_ok_iff.mpr ⟨e.tables, Entries.tryMapValues_eq_ok_iff.mpr ?_, rfl⟩
  refine List.forall₂_same.mpr fun entry hentry => ⟨rfl, map_eq_ok_iff.mpr ⟨entry.2.rows, ?_, rfl⟩⟩
  obtain ⟨t, -, rows, hrows, hu⟩ := exists_mem_left htables.values (Entries.mem_values_of_mem hentry)
  rw [← hu]
  refine bindRows_eq_ok_iff.mpr (List.forall₂_same.mpr fun row' hrow' => ?_)
  obtain ⟨row, -, hrow⟩ := exists_mem_left (bindRows_eq_ok_iff.mp hrows) hrow'
  exact hagain row row' hrow

theorem bindsTo_of_bindInstance (hregular : d.Regular)
    (hfields : ∀ entry ∈ d.tables, entry.2.fieldNames.Nodup) {row row' : Instance}
    (hrow : (Value.instance row).Regular) (h : bindInstance d.tables row = .ok row') :
    BindsRow d.tables row row' :=
  bindsTo_of_bindWithin (fun _ _ ht => hfields _ (Entries.mem_of_get? ht))
    (fun _ _ ht => hregular.defaults _ (Entries.mem_of_get? ht)) hrow h

/-- Binding a document, all of whose fields are found by their names, binds its globals and rows and
changes nothing else; what it has bound is arranged, and stays when it is bound again. -/
theorem bind_exact (hregular : d.Regular) (hfields : ∀ entry ∈ d.tables, entry.2.fieldNames.Nodup)
    (h : d.bind = .ok e) :
    Entries.Pointwise (BindsTo d.tables) d.globals e.globals ∧
      Entries.Pointwise
        (fun t u => ∃ rows, List.Forall₂ (BindsRow d.tables) t.rows rows ∧
          u = { t with rows := rows }) d.tables e.tables ∧
      (∀ row, e.HoldsRow row → ∀ t, Entries.get? d.tables row.struct = some t → row.Arranged t) ∧
      e.bind = .ok e := by
  obtain ⟨hglobals, htables⟩ := pointwise_of_bind h
  have hboundGlobals : Entries.Pointwise (BindsTo d.tables) d.globals e.globals := by
    refine hglobals.imp_of_mem fun v hv w hvw => ?_
    exact bindsTo_of_mapInstances (fun _ _ => bindsTo_of_bindInstance hregular hfields)
      (hregular.globals v hv) hvw
  have hboundRows : List.Forall₂
      (fun entry entry' => entry.1 = entry'.1 ∧ ∃ rows,
        List.Forall₂ (BindsRow d.tables) entry.2.rows rows ∧
          entry'.2 = { entry.2 with rows := rows }) d.tables e.tables := by
    refine forall₂_imp_of_mem (fun entry hentry entry' hbound => ⟨hbound.1, ?_⟩) htables
    obtain ⟨rows, hrows, heq⟩ := hbound.2
    refine ⟨rows, forall₂_imp_of_mem (fun row hrow row' hbind => ?_) (bindRows_eq_ok_iff.mp hrows),
      heq.symm⟩
    exact bindsTo_of_bindInstance hregular hfields (hregular.rows entry hentry row hrow) hbind
  refine ⟨hboundGlobals, hboundRows, fun row hrow t ht => ?_, bind_of_bind h⟩
  rcases hrow with ⟨entry, hentry, hrow⟩ | ⟨root, hroot, hrow⟩
  · obtain ⟨entry', -, -, rows, hrows, heq⟩ := exists_mem_left hboundRows hentry
    rw [heq] at hrow
    obtain ⟨row', -, hbinds⟩ := exists_mem_left hrows hrow
    exact arranged_of_bindsTo hbinds (.refl _) ht
  · rcases mem_roots.mp hroot with hglobal | ⟨entry, hentry, row', hrow', hfield⟩
    · obtain ⟨v, -, hbinds⟩ := exists_mem_left hboundGlobals.values hglobal
      exact arranged_of_bindsTo hbinds hrow ht
    · obtain ⟨entry', -, -, rows, hrows, heq⟩ := exists_mem_left hboundRows hentry
      rw [heq] at hrow'
      obtain ⟨row'', -, hbinds⟩ := exists_mem_left hrows hrow'
      exact arranged_of_bindsTo hbinds (.of_part hfield hrow) ht

/-- A mark at a point whose second coordinate is left to the default, with a value that the struct
does not declare, before and after it is bound. -/
def marks (point : Instance) (mark : Instance) : Document :=
  let points : Table :=
    ⟨"Point", [.ofType "x" ⟨.int, false⟩,
      { Field.ofType "y" ⟨.int, false⟩ with default := some (.int 7) }], none, [], []⟩
  let marks : Table :=
    ⟨"Mark", [.ofType "at" ⟨.struct "Point", false⟩, .ofType "name" ⟨.str, false⟩], none, [mark], []⟩
  ⟨[("origin", .instance point)], [("Point", points), ("Mark", marks)]⟩

/-- The point as it is written. -/
def writtenPoint : Instance :=
  ⟨"Point", [("_arg0", .text (.plain "1"))], some ⟨none, 1, 1, 8, "Point(1)"⟩⟩

def boundPoint : Instance := .ofFields "Point" [("x", .int 1), ("y", .int 7)]

/-- The mark as it is written. -/
def writtenMark : Instance := .ofFields "Mark" [("old", .int 3), ("at", .instance writtenPoint)]

def boundMark : Instance :=
  .ofFields "Mark" [("at", .instance boundPoint), ("name", .null), ("old", .int 3)]

theorem bind_marks : (marks writtenPoint writtenMark).bind = .ok (marks boundPoint boundMark) := by
  cbv

theorem regular_marks : (marks writtenPoint writtenMark).Regular := by
  have hint : ∀ n : Int, (Value.int n).Regular :=
    fun n => IsLeaf.regular ⟨rfl, fun _ heq => by cases heq⟩
  have hpoint : (Value.instance writtenPoint).Regular :=
    regular_instance (by decide) (List.forall_mem_singleton.mpr (isLeaf_text _).regular)
  have hmark : (Value.instance writtenMark).Regular :=
    regular_instance (by decide)
      (List.forall_mem_cons.mpr ⟨hint 3, List.forall_mem_singleton.mpr hpoint⟩)
  refine ⟨List.forall_mem_singleton.mpr hpoint, ?_, ?_⟩
  · simpa [marks] using hmark
  · simp [marks, Field.ofType, hint]

theorem bind_exact_marks :
    (marks writtenPoint writtenMark).Regular ∧
      (∀ entry ∈ (marks writtenPoint writtenMark).tables, entry.2.fieldNames.Nodup) ∧
      (marks writtenPoint writtenMark).bind = .ok (marks boundPoint boundMark) ∧
      BindsRow (marks writtenPoint writtenMark).tables writtenPoint boundPoint ∧
      (marks boundPoint boundMark).bind = .ok (marks boundPoint boundMark) := by
  have hfields : ∀ entry ∈ (marks writtenPoint writtenMark).tables,
      entry.2.fieldNames.Nodup := by decide
  obtain ⟨hglobals, -, -, hagain⟩ := bind_exact regular_marks hfields bind_marks
  cases hglobals with
  | cons hpoint _ => exact ⟨regular_marks, hfields, bind_marks, hpoint.2, hagain⟩

end Document

end RowConfig
