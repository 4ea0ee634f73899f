import Mathlib.Logic.Relation
import RowConfig.Proofs.Pointwise
import RowConfig.Document

/-!
# What a document holds

Two ways to walk into a value. `Value.Holds` goes through arrays and inline instances; this is what
is written in the document. `Value.Shows` also goes through the rows that references hold a copy of;
this is what a reader of the resolved document can reach. Both are the reflexive transitive closure
of one step, `parts` and `contents`.
-/

namespace RowConfig

namespace Value

/-- The values written inside a value: the elements of an array, the fields of an instance. -/
def parts : Value → List Value
  | .array items => items
  | .instance row => Entries.values row.fields
  | _ => []

/-- The values seen inside a value: its parts, or the fields of the row that a reference holds. -/
def contents : Value → List Value
  | .reference _ _ (some row) => Entries.values row.fields
  | v => v.parts

/-- `w` is written in `v`, at any depth. -/
def Holds (v w : Value) : Prop := Relation.ReflTransGen (fun v w => w ∈ v.parts) v w

/-- `w` is seen in `v`, at any depth and through linked references. -/
def Shows (v w : Value) : Prop := Relation.ReflTransGen (fun v w => w ∈ v.contents) v w

/-- A value that holds another is that value, or one of its parts holds it. -/
theorem holds_iff {v w : Value} : v.Holds w ↔ v = w ∨ ∃ p ∈ v.parts, p.Holds w := by
  rw [Holds, Relation.ReflTransGen.cases_head_iff]
  rfl

theorem Holds.refl (v : Value) : v.Holds v := Relation.ReflTransGen.refl

theorem Holds.of_part {v p w : Value} (hp : p ∈ v.parts) (h : p.Holds w) : v.Holds w :=
  Relation.ReflTransGen.head hp h

theorem Shows.refl (v : Value) : v.Shows v := Relation.ReflTransGen.refl

theorem Shows.of_content {v p w : Value} (hp : p ∈ v.contents) (h : p.Shows w) : v.Shows w :=
  Relation.ReflTransGen.head hp h

theorem parts_subset_contents (v : Value) : v.parts ⊆ v.contents := by
  intro p hp
  cases v with
  | reference struct key target => cases hp
  | _ => exact hp

/-- What is written in a value is seen in it. -/
theorem Holds.shows {v w : Value} (h : v.Holds w) : v.Shows w :=
  Relation.ReflTransGen.mono (fun v _ hp => parts_subset_contents v hp) _ _ h

theorem sizeOf_lt_of_mem_values {row : Record Value} {w : Value}
    (h : w ∈ Entries.values row.fields) : sizeOf w < sizeOf row := by
  obtain ⟨struct, fields, call⟩ := row
  obtain ⟨⟨name, v⟩, hmem, rfl⟩ := List.mem_map.mp h
  have := List.sizeOf_lt_of_mem hmem
  simp only [Prod.mk.sizeOf_spec, Record.mk.sizeOf_spec] at this ⊢
  omega

theorem sizeOf_lt_of_mem_contents {v w : Value} (h : w ∈ v.contents) : sizeOf w < sizeOf v := by
  cases v with
  | array items =>
      have : sizeOf w < sizeOf items := List.sizeOf_lt_of_mem h
      simp only [Value.array.sizeOf_spec]
      omega
  | «instance» row =>
      have := sizeOf_lt_of_mem_values h
      simp only [Value.instance.sizeOf_spec]
      omega
  | reference struct key target =>
      cases target with
      | none => cases h
      | some row =>
          have := sizeOf_lt_of_mem_values h
          simp only [Value.reference.sizeOf_spec, Option.some.sizeOf_spec]
          omega
  | _ => cases h

/-- Induction over values: a property of everything seen in a value passes to the value. -/
theorem contents_induction {P : Value → Prop} (step : ∀ v, (∀ w ∈ v.contents, P w) → P v)
    (v : Value) : P v :=
  step v fun w hw =>
    have := sizeOf_lt_of_mem_contents hw
    contents_induction step w
termination_by sizeOf v

end Value

namespace Document

/-- The values that a document is made of: those of its globals and of the fields of its rows. -/
def roots (d : Document) : List Value :=
  Entries.values d.globals ++
    d.tables.flatMap fun (_, t) => t.rows.flatMap fun row => Entries.values row.fields

/-- `v` is written in a global or a row. -/
def Holds (d : Document) (v : Value) : Prop := ∃ root ∈ d.roots, root.Holds v

/-- `v` is seen in a global or a row, also through linked references. -/
def Shows (d : Document) (v : Value) : Prop := ∃ root ∈ d.roots, root.Shows v

/-- `row` is a row of a struct, an inline instance, or the row that a reference holds. -/
def ShowsRow (d : Document) (row : Instance) : Prop :=
  (∃ entry ∈ d.tables, row ∈ entry.2.rows) ∨ d.Shows (.instance row) ∨
    ∃ struct key, d.Shows (.reference struct key (some row))

/-- A root is the value of a global or of a field of a row. -/
theorem mem_roots {d : Document} {v : Value} :
    v ∈ d.roots ↔ v ∈ Entries.values d.globals ∨
      ∃ entry ∈ d.tables, ∃ row ∈ entry.2.rows, v ∈ Entries.values row.fields := by
  simp only [roots, List.mem_append, List.mem_flatMap]

theorem Holds.of_mem_roots {d : Document} {v : Value} (h : v ∈ d.roots) : d.Holds v :=
  ⟨v, h, Value.Holds.refl v⟩

/-- A value written in a value of the document is written in the document. -/
theorem Holds.trans {d : Document} {v w : Value} (hv : d.Holds v) (hw : v.Holds w) : d.Holds w := by
  obtain ⟨root, hroot, h⟩ := hv
  exact ⟨root, hroot, Relation.ReflTransGen.trans h hw⟩

end Document

end RowConfig
