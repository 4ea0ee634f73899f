import RowConfig.Proofs.Binding
import RowConfig.Proofs.Linking
import RowConfig.Proofs.Rendering

/-!
# Values of a type

A value conforms to the type of a field if it is null, a value of the scalar type, or, where the
type is that of an array, an array of null and such values. A token that is read at a type makes a
value that conforms to it (`Reader.conforms_of_read`). Binding, linking and rendering change values,
but each of them keeps their types (`Value.Keeps`), so that a value conforms afterwards to whatever
it conformed to before.
-/

namespace RowConfig

open Binding

namespace Value

/-- The values of a scalar type. Those of a struct are its inline rows and the references to its
rows. -/
inductive HasType : ScalarType → Value → Prop
  | bool (b : Bool) : HasType .bool (.bool b)
  | int (n : Int) : HasType .int (.int n)
  | float (x : Number.Binary64) : HasType .float (.float x)
  | str (t : Text) : HasType .str (.text t)
  | date (s : String) : HasType .date (.date s)
  | time (s : String) : HasType .time (.time s)
  | dateTime (s : String) : HasType .dateTime (.dateTime s)
  | inline (row : Instance) : HasType (.struct row.struct) (.instance row)
  | reference (struct key : String) (target : Option Instance) :
      HasType (.struct struct) (.reference struct key target)

/-- Null stands for a value of every type. -/
def Fits (type : ScalarType) (v : Value) : Prop := v = .null ∨ v.HasType type

/-- The values that a field of a type may hold. -/
inductive Conforms : FieldType → Value → Prop
  | null (type : FieldType) : Conforms type .null
  | single {type : ScalarType} {v : Value} : v.HasType type → Conforms ⟨type, false⟩ v
  | array {type : ScalarType} {items : List Value} :
      (∀ v ∈ items, v.Fits type) → Conforms ⟨type, true⟩ (.array items)

/-! ## Changes that keep types -/

/-- A change of values that leaves null alone, makes of a value one of the same type, and changes an
array element by element. -/
structure Keeps (R : Value → Value → Prop) : Prop where
  null : ∀ {w}, R .null w → w = .null
  hasType : ∀ {type v w}, v.HasType type → R v w → w.HasType type
  array : ∀ {items w}, R (.array items) w → ∃ items', w = .array items' ∧ List.Forall₂ R items items'

variable {R : Value → Value → Prop}

/-- After a change that keeps types a value conforms to what it conformed to before. -/
theorem Keeps.conforms (hR : Keeps R) {type : FieldType} {v w : Value} (hv : v.Conforms type)
    (h : R v w) : w.Conforms type := by
  cases hv with
  | null =>
      rw [hR.null h]
      exact .null type
  | single hv => exact .single (hR.hasType hv h)
  | array hitems =>
      obtain ⟨items', rfl, hR'⟩ := hR.array h
      apply Conforms.array
      intro w hw
      obtain ⟨v, hv, hvw⟩ := exists_mem_left hR' hw
      rcases hitems v hv with rfl | hv
      · exact .inl (hR.null hvw)
      · exact .inr (hR.hasType hv hvw)

end Value

open Value

/-! ## The passes -/

namespace Binding

variable {tables : Entries Table}

/-- Binding makes the one value of the other, at some depth. -/
def Binds (tables : Entries Table) (v w : Value) : Prop :=
  ∃ depth path, mapInstances (bindWithin tables depth path) v = .ok w

theorem struct_of_arrangeInstance {row row' : Instance} (h : arrangeInstance tables row = .ok row') :
    row'.struct = row.struct := by
  cases ht : Entries.get? tables row.struct with
  | none =>
      rw [arrangeInstance_of_undeclared ht] at h
      cases h
      rfl
  | some t =>
      obtain ⟨present, rfl, -⟩ := arrangeInstance_cases ht h
      rfl

/-- Binding leaves a row with its struct. -/
theorem struct_of_bindWithin {depth : Nat} {path : List String} {row row' : Instance}
    (h : bindWithin tables depth path row = .ok row') : row'.struct = row.struct := by
  cases depth with
  | zero => cases h
  | succ depth =>
      obtain ⟨arranged, fields, harranged, -, rfl⟩ := bindWithin_succ_eq_ok_iff.mp h
      show arranged.struct = row.struct
      exact struct_of_arrangeInstance harranged

theorem keeps_binds (tables : Entries Table) : Keeps (Binds tables) where
  null := by
    rintro w ⟨depth, path, h⟩
    cases h
    rfl
  hasType := by
    rintro type v w hv ⟨depth, path, h⟩
    cases hv with
    | inline row =>
        obtain ⟨row', hrow', rfl⟩ := map_eq_ok_iff.mp h
        rw [← struct_of_bindWithin hrow']
        exact .inline row'
    | _ =>
        cases h
        constructor
  array := by
    rintro items w ⟨depth, path, h⟩
    obtain ⟨items', hitems, rfl⟩ := map_eq_ok_iff.mp h
    exact ⟨items', rfl, (mapInstances_items.mp hitems).imp fun _ _ hvw => ⟨depth, path, hvw⟩⟩

end Binding

theorem Linking.keeps_mapReferences (follow : RowName → Except Fault Instance) :
    Keeps fun v w => mapReferences follow v = .ok w where
  null := by
    intro w h
    cases h
    rfl
  hasType := by
    intro type v w hv h
    cases hv with
    | inline row =>
        obtain ⟨row', hrow', rfl⟩ := map_eq_ok_iff.mp h
        rw [(mapRow_eq_ok_iff.mp hrow').1]
        exact .inline row'
    | reference struct key target =>
        obtain ⟨row, -, rfl⟩ := mapReferences_reference_eq_ok_iff.mp h
        exact .reference struct key (some row)
    | _ =>
        cases h
        constructor
  array := by
    intro items w h
    obtain ⟨items', hitems, rfl⟩ := map_eq_ok_iff.mp h
    exact ⟨items', rfl, mapItems_eq_ok_iff.mp hitems⟩

theorem Value.keeps_rendersTo (globals : Entries Value) : Keeps (RendersTo globals) where
  null := by
    rintro w ⟨s, -, rfl⟩
    rfl
  hasType := by
    rintro type v w hv ⟨s, -, rfl⟩
    cases hv with
    | inline row =>
        rw [← struct_renderedRow s.globals row]
        exact .inline (renderedRow s.globals row)
    | _ => constructor
  array := by
    rintro items w ⟨s, hs, rfl⟩
    refine ⟨renderedItems s items, rfl, ?_⟩
    rw [renderedItems_eq_map, List.forall₂_map_right_iff, List.forall₂_same]
    intro v _
    exact ⟨s, hs, rfl⟩

/-! ## Reading -/

namespace Reader

variable {r : Reader} {s : Span} {v : Value}

/-- A call of a struct is an inline row of it or a reference to a row of it. -/
theorem hasType_of_readCall {expected : String} (h : r.readCall s expected = .ok v) :
    v.HasType (.struct expected) := by
  unfold readCall at h
  split at h
  · cases h
  · split at h
    · cases h
    · split at h
      · obtain ⟨fields, -, rfl⟩ := map_eq_ok_iff.mp h
        exact .inline ⟨expected, fields, some (r.place s)⟩
      · obtain ⟨key, -, rfl⟩ := map_eq_ok_iff.mp h
        exact .reference expected key.content none

theorem hasType_of_readScalar {type : ScalarType} (h : r.readScalar s type = .ok v) :
    v.HasType type := by
  unfold readScalar at h
  cases type with
  | struct name => exact hasType_of_readCall h
  | bool =>
      simp only at h
      split at h
      · cases h; exact .bool true
      · cases h; exact .bool false
      · cases h
  | int =>
      simp only at h
      split at h
      · cases h; constructor
      · cases h
  | float =>
      simp only at h
      split at h
      · cases h; constructor
      · cases h
  | _ =>
      -- the four textual types
      obtain ⟨t, -, rfl⟩ := map_eq_ok_iff.mp h
      constructor

theorem fits_of_readElement {type : ScalarType} (h : r.readElement s type = .ok v) :
    v.Fits type := by
  unfold readElement at h
  split at h
  · cases h
    exact .inl rfl
  · exact .inr (hasType_of_readScalar h)

theorem fits_of_readElements {type : ScalarType} {spans : List Span} {items : List Value}
    (h : r.readElements type spans = .ok items) : ∀ v ∈ items, v.Fits type := by
  induction spans generalizing items with
  | nil =>
      cases h
      intro v hv
      cases hv
  | cons s spans ih =>
      rw [readElements] at h
      split at h
      · exact ih h
      · split at h
        · cases h
        · next v hread =>
          obtain ⟨items', hitems, rfl⟩ := map_eq_ok_iff.mp h
          intro w hw
          rcases List.mem_cons.mp hw with rfl | hw
          · exact fits_of_readElement hread
          · exact ih hitems w hw

/-- A token that is read at a type makes a value that conforms to the type. -/
theorem conforms_of_read {token : List Char} {type : FieldType} (h : r.read token type = .ok v) :
    v.Conforms type := by
  obtain ⟨type, array⟩ := type
  unfold read at h
  simp only at h
  split at h
  · cases h
    exact .null _
  · cases array with
    | true =>
        unfold readArray at h
        simp only [if_true] at h
        split at h
        · cases h
        · obtain ⟨items, hitems, rfl⟩ := map_eq_ok_iff.mp h
          exact .array (fits_of_readElements hitems)
    | false => exact .single (hasType_of_readScalar h)

end Reader

/-! ## Fields -/

/-- The value conforms to the field's type and is among its choices, if it has any. -/
structure Field.Accepts (f : Field) (v : Value) : Prop where
  conforms : v.Conforms f.type
  allowed : ∀ choices, f.choices = some choices → Field.allows choices v

/-- What is read for a field is accepted by it. -/
theorem Reader.accepts_of_readFor {r : Reader} {token : List Char} {f : Field} {v : Value}
    (h : r.readFor token f = .ok v) : f.Accepts v := by
  unfold readFor at h
  split at h
  · cases h
  · next hread =>
    obtain ⟨_, hcheck, rfl⟩ := map_eq_ok_iff.mp h
    refine ⟨conforms_of_read hread, ?_⟩
    intro choices hchoices
    unfold Field.checkChoice at hcheck
    rw [hchoices] at hcheck
    simp only at hcheck
    split at hcheck
    · assumption
    · cases hcheck

end RowConfig
