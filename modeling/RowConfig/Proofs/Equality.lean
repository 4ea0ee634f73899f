import RowConfig.Document

/-!
# Equality of documents is decidable

`Value.equal` is the equality of the language: floats compare as numbers and the fields of an
instance may be in any order. `Value.same` is equality as data, and `Value.same_iff` says so. With
it a document can be compared with the one that a text is said to compile to.
-/

namespace RowConfig

deriving instance DecidableEq for Record

namespace Value

mutual

/-- The values are the same, down to the bits of their floats. -/
def same : Value → Value → Bool
  | .null, .null => true
  | .bool a, .bool b => a == b
  | .int a, .int b => a == b
  | .float x, .float y => x == y
  | .text t, .text u => t == u
  | .date s, .date t => s == t
  | .time s, .time t => s == t
  | .dateTime s, .dateTime t => s == t
  | .array vs, .array ws => sameItems vs ws
  | .instance row, .instance row' => sameRow row row'
  | .reference struct key target, .reference struct' key' target' =>
    struct == struct' && key == key' && sameTarget target target'
  | _, _ => false

/-- The elements are the same. -/
def sameItems : List Value → List Value → Bool
  | [], [] => true
  | v :: vs, w :: ws => same v w && sameItems vs ws
  | _, _ => false

/-- The rows are the same. -/
def sameRow : Record Value → Record Value → Bool
  | ⟨struct, fields, call⟩, row =>
    struct == row.struct && sameFields fields row.fields && call == row.call

/-- The named values are the same. -/
def sameFields : List (String × Value) → List (String × Value) → Bool
  | [], [] => true
  | (name, v) :: more, (name', w) :: more' => name == name' && same v w && sameFields more more'
  | _, _ => false

/-- The rows that references hold are the same. -/
def sameTarget : Option (Record Value) → Option (Record Value) → Bool
  | none, none => true
  | some row, some row' => sameRow row row'
  | _, _ => false

end

mutual

theorem same_iff : ∀ v w : Value, same v w = true ↔ v = w
  | .array vs, w => by cases w <;> simp [same, sameItems_iff vs]
  | .instance row, w => by cases w <;> simp [same, sameRow_iff row]
  | .reference _ _ target, w => by
      cases w <;> simp [same, sameTarget_iff target, and_assoc]
  | .null, w => by cases w <;> simp [same]
  | .bool _, w => by cases w <;> simp [same]
  | .int _, w => by cases w <;> simp [same]
  | .float _, w => by cases w <;> simp [same]
  | .text _, w => by cases w <;> simp [same]
  | .date _, w => by cases w <;> simp [same]
  | .time _, w => by cases w <;> simp [same]
  | .dateTime _, w => by cases w <;> simp [same]

theorem sameItems_iff : ∀ vs ws : List Value, sameItems vs ws = true ↔ vs = ws
  | [], ws => by cases ws <;> simp [sameItems]
  | v :: vs, ws => by cases ws <;> simp [sameItems, same_iff v, sameItems_iff vs]

theorem sameRow_iff : ∀ row row' : Record Value, sameRow row row' = true ↔ row = row'
  | ⟨struct, fields, call⟩, ⟨struct', fields', call'⟩ => by
      simp [sameRow, sameFields_iff fields, and_assoc]

theorem sameFields_iff : ∀ fs gs : List (String × Value), sameFields fs gs = true ↔ fs = gs
  | [], gs => by cases gs <;> simp [sameFields]
  | (_, _) :: _, [] => by simp [sameFields]
  | (name, v) :: fs, (name', w) :: gs => by
      simp [sameFields, same_iff v, sameFields_iff fs]

theorem sameTarget_iff : ∀ t u : Option (Record Value), sameTarget t u = true ↔ t = u
  | none, u => by cases u <;> simp [sameTarget]
  | some row, u => by cases u <;> simp [sameTarget, sameRow_iff row]

end

instance : DecidableEq Value := fun v w => decidable_of_iff _ (same_iff v w)

end Value

deriving instance DecidableEq for Field, Table, Document

end RowConfig
