import RowConfig.Proofs.Equality
import RowConfig.Proofs.Rendering

/-!
# The order of rendering

The fields of a row are rendered one after the other, each where those before it are rendered
already and it and those after it are as they were. `RendersInOrder` says this of a row and what
becomes of it, field by field; it holds of the rendered row and of no other. The same is so of every
row inside, be it an inline one or the target of a reference, in its own fields and over the same
globals (`rendersInOrder_within`).
-/

namespace RowConfig

namespace Value

/-- The scope of the field at position `k`: the fields before it as they become, the others as they
were, and the globals. -/
def scopeAt (globals fields become : Entries Value) (k : Nat) : Scope :=
  ⟨some (become.take k ++ fields.drop k), globals⟩

/-- The row becomes `row'` when its fields are rendered in order. -/
structure RendersInOrder (globals : Entries Value) (row row' : Instance) : Prop where
  struct : row'.struct = row.struct
  call : row'.call = row.call
  names : Entries.names row'.fields = Entries.names row.fields
  values : ∀ k name v, row.fields[k]? = some (name, v) →
    row'.fields[k]? = some (name, rendered (scopeAt globals row.fields row'.fields k) v)

/-- What is seen in a value at the end of a path of positions, each among the contents of the value
that the path leads to before. -/
def within? (v : Value) : List Nat → Option Value
  | [] => some v
  | i :: path => v.contents[i]?.bind (within? · path)

variable {globals : Entries Value} {row row' : Instance} {v w p : Value}

/-! ## One row -/

/-- Behind the fields that are done, each field is rendered in the scope of its position. -/
theorem getElem?_renderedFields (globals done fields : Entries Value) (k : Nat) {name : String}
    {v : Value} (h : fields[k]? = some (name, v)) :
    let become := renderedFields globals done fields
    become[done.length + k]? = some (name,
      rendered ⟨some (become.take (done.length + k) ++ fields.drop k), globals⟩ v) := by
  induction fields generalizing done k with
  | nil => simp at h
  | cons field fields ih =>
      obtain ⟨name', v'⟩ := field
      let scope : Scope := ⟨some (done ++ (name', v') :: fields), globals⟩
      let done' := done ++ [(name', rendered scope v')]
      have hlength : done'.length = done.length + 1 := List.length_append
      obtain ⟨rest, hrest, -⟩ := renderedFields_eq globals done' fields
      have hbecome : renderedFields globals done ((name', v') :: fields) =
          renderedFields globals done' fields := by rw [renderedFields]
      cases k with
      | zero =>
          obtain ⟨rfl, rfl⟩ : name' = name ∧ v' = v := by simpa using h
          simp [hbecome, hrest, done', scope]
      | succ k =>
          have hfield := ih done' k h
          rw [hlength, Nat.add_assoc, Nat.add_comm 1 k] at hfield
          rw [hbecome]
          exact hfield

theorem rendersInOrder_renderedRow (globals : Entries Value) (row : Instance) :
    RendersInOrder globals row (renderedRow globals row) := by
  refine ⟨struct_renderedRow globals row, call_renderedRow globals row,
    names_renderedRow globals row, ?_⟩
  intro k name v h
  obtain ⟨struct, fields, call⟩ := row
  have hfield := getElem?_renderedFields globals [] fields k h
  simpa [renderedRow, scopeAt] using hfield

/-- The order leaves no choice: field by field, what a row becomes is settled by what stands
before. -/
theorem RendersInOrder.unique {row₁ row₂ : Instance} (h₁ : RendersInOrder globals row row₁)
    (h₂ : RendersInOrder globals row row₂) : row₁ = row₂ := by
  have hlength : ∀ {row'}, RendersInOrder globals row row' →
      row'.fields.length = row.fields.length := by
    intro row' h
    have hnames := congrArg List.length h.names
    simpa [Entries.names] using hnames
  have htake : ∀ k, row₁.fields.take k = row₂.fields.take k := by
    intro k
    induction k with
    | zero => rfl
    | succ k ih =>
        rw [List.take_add_one, List.take_add_one, ih]
        congr 2
        cases hfield : row.fields[k]? with
        | none =>
            have hle : row.fields.length ≤ k := List.getElem?_eq_none_iff.mp hfield
            rw [List.getElem?_eq_none (by rw [hlength h₁]; exact hle),
              List.getElem?_eq_none (by rw [hlength h₂]; exact hle)]
        | some field =>
            -- both are rendered in the scope of the same fields
            obtain ⟨name, v⟩ := field
            rw [h₁.values k name v hfield, h₂.values k name v hfield, scopeAt, scopeAt, ih]
  have hfields : row₁.fields = row₂.fields := by
    have hall := htake row.fields.length
    rwa [List.take_of_length_le (Nat.le_of_eq (hlength h₁)),
      List.take_of_length_le (Nat.le_of_eq (hlength h₂))] at hall
  obtain ⟨struct₁, fields₁, call₁⟩ := row₁
  obtain ⟨struct₂, fields₂, call₂⟩ := row₂
  obtain rfl : fields₁ = fields₂ := hfields
  obtain rfl : struct₁ = struct₂ := h₁.struct.trans h₂.struct.symm
  obtain rfl : call₁ = call₂ := h₁.call.trans h₂.call.symm
  rfl

theorem rendersInOrder_iff : RendersInOrder globals row row' ↔ row' = renderedRow globals row := by
  constructor
  · intro h
    exact h.unique (rendersInOrder_renderedRow globals row)
  · rintro rfl
    exact rendersInOrder_renderedRow globals row

/-! ## Rows inside -/

/-- At every path a rendered value shows what the value showed there, rendered over the same
globals. -/
theorem RendersTo.exists_within? (h : RendersTo globals v w) {path : List Nat}
    (hp : v.within? path = some p) : ∃ q, w.within? path = some q ∧ RendersTo globals p q := by
  induction path generalizing v w with
  | nil =>
      obtain rfl : v = p := Option.some.inj hp
      exact ⟨w, rfl, h⟩
  | cons i path ih =>
      obtain ⟨s, rfl, rfl⟩ := h
      obtain ⟨content, hcontent, hp⟩ := Option.bind_eq_some_iff.mp hp
      obtain ⟨content', hcontent', hrendered⟩ :=
        exists_getElem?_right (contents_rendered s v) hcontent
      obtain ⟨q, hq, hpq⟩ := ih hrendered hp
      refine ⟨q, ?_, hpq⟩
      rw [within?, hcontent']
      exact hq

end Value

open Value

/-- Rendering a row keeps its names in their order, and renders each field where the fields before
it are rendered and the others are not; this settles the rendered row. Wherever an instance or a
reference with a target stands inside of the row, an instance or a reference with a target stands in
the rendered row, and the rows in these are related in the same way. -/
theorem rendersInOrder_within (globals : Entries Value) (row : Instance) :
    (∀ row', RendersInOrder globals row row' ↔ row' = renderedRow globals row) ∧
      ∀ path v, (Value.instance row).within? path = some v →
        ∃ v', (Value.instance (renderedRow globals row)).within? path = some v' ∧
          (∀ inner, v = .instance inner →
            ∃ inner', v' = .instance inner' ∧ RendersInOrder globals inner inner') ∧
          ∀ struct key inner, v = .reference struct key (some inner) →
            ∃ inner', v' = .reference struct key (some inner') ∧
              RendersInOrder globals inner inner' := by
  refine ⟨fun row' => rendersInOrder_iff, ?_⟩
  intro path v hv
  have hrow : RendersTo globals (.instance row) (.instance (renderedRow globals row)) :=
    ⟨⟨none, globals⟩, rfl, by rw [rendered]⟩
  obtain ⟨v', hv', s, rfl, rfl⟩ := hrow.exists_within? hv
  refine ⟨_, hv', ?_, ?_⟩
  · rintro inner rfl
    exact ⟨_, by rw [rendered], rendersInOrder_renderedRow s.globals inner⟩
  · rintro struct key inner rfl
    exact ⟨_, by rw [rendered, renderedTarget], rendersInOrder_renderedRow s.globals inner⟩

/-- The target of a reference, with a template of its own. -/
def orderedPort : Instance :=
  .ofFields "Port" [("number", .int 80), ("label", .text (.template "{env}:{number}" false))]

/-- A row in which a template names a field before it and one after it. -/
def orderedRow : Instance :=
  .ofFields "App" [("name", .text (.template "app-{env}" false)),
    ("label", .text (.template "{name}/{later}" false)),
    ("later", .text (.template "{env}" false)), ("port", .reference "Port" "80" (some orderedPort))]

def orderedGlobals : Entries Value := [("env", .text (.plain "prod"))]

theorem rendersInOrder_within_port :
    (Value.instance orderedRow).within? [3] = some (.reference "Port" "80" (some orderedPort)) ∧
      ∃ v', (Value.instance (renderedRow orderedGlobals orderedRow)).within? [3] = some v' ∧
        ∃ port, v' = .reference "Port" "80" (some port) ∧
          RendersInOrder orderedGlobals orderedPort port := by
  have hport : (Value.instance orderedRow).within? [3] =
      some (.reference "Port" "80" (some orderedPort)) := rfl
  obtain ⟨v', hv', -, htarget⟩ := (rendersInOrder_within orderedGlobals orderedRow).2 [3] _ hport
  exact ⟨hport, v', hv', htarget "Port" "80" orderedPort rfl⟩

/-- The label shows the name rendered, and what comes later as it was. -/
example : (renderedRow orderedGlobals orderedRow).get? "label" =
    some (.text (.plain "app-prod/{env}")) := by
  decide +kernel

end RowConfig
