import RowConfig.Proofs.Keys.Indexed
import RowConfig.Proofs.Linking.Exact

/-!
# The index of a struct that changes

A struct is declared, gets rows and is indexed in any order (`Table.Change`). An index that is built
finds under a text the last row whose key shows this text (`Table.find?_buildIndex_eq_some_iff`),
whatever kinds of values the keys are. It keeps positions of rows, and rows are only appended
(`Table.apply_cases`), so what a text finds stays the same until the index is built again
(`Table.find?_exact`).
-/

namespace RowConfig

namespace Table

/-! ## Changes -/

/-- A change to a struct. -/
inductive Change where
  | addField (field : Field)
  | setDefault (field : String) (default : Option Value)
  | setChoices (field : String) (choices : Option (List Value))
  | addRow (row : Instance)
  | buildIndex

/-- Makes a change. One that fails leaves the struct as it is. -/
def apply (t : Table) : Change → Table
  | .addField field => t.addField field
  | .setDefault field default => (t.setDefault field default).toOption.getD t
  | .setChoices field choices => (t.setChoices field choices).toOption.getD t
  | .addRow row => t.addRow row
  | .buildIndex => t.buildIndex

/-- Makes changes from first to last. -/
def applyAll (t : Table) (changes : List Change) : Table := changes.foldl apply t

/-- The row has a value in the key field that is not null and shows this text. -/
def KeyShows (key text : String) (row : Instance) : Prop :=
  ∃ v, row.get? key = some v ∧ v ≠ .null ∧ v.render = text

/-- The row is the last among the rows whose key shows this text. -/
def IsLast (key text : String) (rows : List Instance) (row : Instance) : Prop :=
  ∃ earlier later, rows = earlier ++ row :: later ∧ KeyShows key text row ∧
    ∀ other ∈ later, ¬ KeyShows key text other

/-- The index leads to rows. -/
def IndexInRows (t : Table) : Prop := ∀ position ∈ Entries.values t.index, position < t.rows.length

/-! ## Building the index -/

section Building

variable {key text : String} {row : Instance} {rows : List Instance} {t : Table}

theorem keyText?_eq_some_iff : keyText? key row = some text ↔ KeyShows key text row := by
  unfold keyText? KeyShows
  cases row.get? key with
  | none => simp
  | some v => cases v <;> simp [Value.isNull]

theorem exists_keyShows_iff :
    (∃ row ∈ rows, KeyShows key text row) ↔ some text ∈ rows.map (keyText? key) := by
  simp only [List.mem_map, keyText?_eq_some_iff]

/-- The last row under a text stands at the last position of the text among the keys. -/
theorem isLast_iff : IsLast key text rows row ↔
    ∃ i, LastAt (rows.map (keyText? key)) (some text) i ∧ rows[i]? = some row := by
  constructor
  · rintro ⟨earlier, later, rfl, hrow, hlater⟩
    refine ⟨earlier.length, ⟨?_, ?_⟩, by simp⟩
    · simp [keyText?_eq_some_iff.mpr hrow]
    · intro j hj htext
      rw [List.getElem?_map, Option.map_eq_some_iff] at htext
      obtain ⟨other, hother, htext⟩ := htext
      obtain ⟨k, rfl⟩ := Nat.exists_eq_add_of_lt hj
      rw [Nat.add_assoc, List.getElem?_append_right (Nat.le_add_right _ _), Nat.add_sub_cancel_left,
        List.getElem?_cons_succ] at hother
      exact hlater other (List.mem_of_getElem? hother) (keyText?_eq_some_iff.mp htext)
  · rintro ⟨i, hlast, hrow⟩
    obtain ⟨hi, hget⟩ := List.getElem?_eq_some_iff.mp hrow
    refine ⟨rows.take i, rows.drop (i + 1), ?_, ?_, ?_⟩
    · rw [← hget, List.cons_getElem_drop_succ, List.take_append_drop]
    · have hhere := hlast.here
      rw [List.getElem?_map, hrow] at hhere
      exact keyText?_eq_some_iff.mp (Option.some.inj hhere)
    · intro other hother hshows
      obtain ⟨k, hk⟩ := List.mem_iff_getElem?.mp hother
      rw [List.getElem?_drop] at hk
      apply hlast.last (i + 1 + k) (by omega)
      rw [List.getElem?_map, hk]
      exact congrArg some (keyText?_eq_some_iff.mpr hshows)

/-- An index that is built finds the last row under a text. -/
theorem find?_buildIndex_eq_some_iff :
    t.buildIndex.find? text = some row ↔ ∃ key, t.key = some key ∧ IsLast key text t.rows row := by
  have hfind : t.buildIndex.find? text =
      (Entries.get? t.buildIndex.index text).bind fun position => t.rows[position]? := rfl
  cases hkey : t.key with
  | none =>
      have hindex : t.buildIndex.index = [] := by rw [buildIndex, hkey]
      rw [hfind, hindex]
      simp [Entries.get?]
  | some key =>
      have hindex : t.buildIndex.index = indexRows key 0 [] t.rows := by rw [buildIndex, hkey]
      simp only [Option.some.injEq, exists_eq_left', isLast_iff]
      rw [hfind, hindex]
      constructor
      · intro h
        obtain ⟨position, hposition, hrow⟩ := Option.bind_eq_some_iff.mp h
        -- a text that is found is the key of some row, and so it has a last one
        by_cases hin : some text ∈ t.rows.map (keyText? key)
        · obtain ⟨i, hi⟩ := exists_lastAt hin
          rw [get?_indexRows_of_lastAt hi, Nat.zero_add] at hposition
          cases hposition
          exact ⟨position, hi, hrow⟩
        · rw [get?_indexRows_of_not_mem hin] at hposition
          cases hposition
      · rintro ⟨i, hi, hrow⟩
        rw [get?_indexRows_of_lastAt hi, Nat.zero_add]
        exact hrow

/-- A text is found unless no row has a key that shows it. -/
theorem find?_buildIndex_eq_none_iff : t.buildIndex.find? text = none ↔
    ∀ key, t.key = some key → ∀ row ∈ t.rows, ¬ KeyShows key text row := by
  rw [Option.eq_none_iff_forall_ne_some]
  constructor
  · intro h key hkey row hrow hshows
    obtain ⟨i, hi⟩ := exists_lastAt (exists_keyShows_iff.mp ⟨row, hrow, hshows⟩)
    have hlt : i < t.rows.length := by
      have hlt := (List.getElem?_eq_some_iff.mp hi.here).1
      rwa [List.length_map] at hlt
    apply h t.rows[i]
    refine find?_buildIndex_eq_some_iff.mpr ⟨key, hkey, ?_⟩
    exact isLast_iff.mpr ⟨i, hi, List.getElem?_eq_getElem hlt⟩
  · intro h row hfound
    obtain ⟨key, hkey, earlier, later, hrows, hshows, -⟩ := find?_buildIndex_eq_some_iff.mp hfound
    apply h key hkey row _ hshows
    rw [hrows]
    exact List.mem_append_right _ List.mem_cons_self

theorem indexInRows_buildIndex (t : Table) : t.buildIndex.IndexInRows := by
  unfold IndexInRows buildIndex
  cases t.key with
  | none =>
      intro position hposition
      cases hposition
  | some key =>
      intro position hposition
      have hlt : position < 0 + t.rows.length :=
        Document.values_indexRows_lt (fun p hp => by cases hp) position hposition
      rwa [Nat.zero_add] at hlt

end Building

/-! ## One change and many -/

section Changing

variable {t : Table} {c : Change} {changes : List Change}

theorem changeField_keeps (name : String) (change : Field → Field) :
    ((t.changeField name change).toOption.getD t).index = t.index ∧
      ((t.changeField name change).toOption.getD t).rows = t.rows := by
  unfold changeField
  cases t.field? name <;> exact ⟨rfl, rfl⟩

/-- A change builds the index, or it keeps it and appends rows, if anything, to the rows. -/
theorem apply_cases (t : Table) (c : Change) :
    c = .buildIndex ∧ t.apply c = t.buildIndex ∨
      c ≠ .buildIndex ∧ (t.apply c).index = t.index ∧ ∃ more, (t.apply c).rows = t.rows ++ more := by
  cases c with
  | addField field => exact .inr ⟨nofun, rfl, [], (List.append_nil _).symm⟩
  | setDefault name default =>
      obtain ⟨hindex, hrows⟩ := t.changeField_keeps name fun f => { f with default := default }
      exact .inr ⟨nofun, hindex, [], hrows.trans (List.append_nil _).symm⟩
  | setChoices name choices =>
      obtain ⟨hindex, hrows⟩ := t.changeField_keeps name fun f => { f with choices := choices }
      exact .inr ⟨nofun, hindex, [], hrows.trans (List.append_nil _).symm⟩
  | addRow row => exact .inr ⟨nofun, rfl, [row], rfl⟩
  | buildIndex => exact .inl ⟨rfl, rfl⟩

theorem IndexInRows.apply (h : t.IndexInRows) (c : Change) : (t.apply c).IndexInRows := by
  rcases t.apply_cases c with ⟨-, heq⟩ | ⟨-, hindex, more, hrows⟩
  · rw [heq]
    exact t.indexInRows_buildIndex
  · intro position hposition
    rw [hindex] at hposition
    rw [hrows, List.length_append]
    exact Nat.lt_of_lt_of_le (h position hposition) (Nat.le_add_right _ _)

/-- The index of a struct leads to rows after any changes. -/
theorem IndexInRows.applyAll (h : t.IndexInRows) (changes : List Change) :
    (t.applyAll changes).IndexInRows := by
  induction changes generalizing t with
  | nil => exact h
  | cons c changes ih => exact ih (h.apply c)

/-- A change that does not build the index does not alter what a text finds. -/
theorem find?_apply (h : t.IndexInRows) (hc : c ≠ .buildIndex) (text : String) :
    (t.apply c).find? text = t.find? text := by
  rcases t.apply_cases c with ⟨heq, -⟩ | ⟨-, hindex, more, hrows⟩
  · exact absurd heq hc
  · unfold find?
    rw [hindex, hrows]
    cases hposition : Entries.get? t.index text with
    | none => rfl
    | some position =>
        have hlt := h position (Entries.mem_values_of_mem (Entries.mem_of_get? hposition))
        exact List.getElem?_append_left hlt

theorem find?_applyAll (h : t.IndexInRows) (hchanges : .buildIndex ∉ changes) (text : String) :
    (t.applyAll changes).find? text = t.find? text := by
  induction changes generalizing t with
  | nil => rfl
  | cons c changes ih =>
      rw [List.mem_cons, not_or] at hchanges
      obtain ⟨hc, hchanges⟩ := hchanges
      calc ((t.apply c).applyAll changes).find? text
          = (t.apply c).find? text := ih (h.apply c) hchanges
        _ = t.find? text := find?_apply h (Ne.symm hc) text

end Changing

/-- After any changes to a new struct, an index that is then built finds under a text the last row
whose key shows the text, and nothing if there is none or the struct has no key. What a text finds
is not altered by further changes before the index is built again, and building it twice makes the
same index. -/
theorem find?_exact (name : String) (changes : List Change) (text : String) :
    let t := (empty name).applyAll changes
    (∀ row, t.buildIndex.find? text = some row ↔
        ∃ key, t.key = some key ∧ IsLast key text t.rows row) ∧
      (t.buildIndex.find? text = none ↔
        ∀ key, t.key = some key → ∀ row ∈ t.rows, ¬ KeyShows key text row) ∧
      (∀ later, .buildIndex ∉ later → (t.applyAll later).find? text = t.find? text) ∧
      t.buildIndex.buildIndex = t.buildIndex := by
  have hempty : (empty name).IndexInRows := nofun
  refine ⟨fun row => find?_buildIndex_eq_some_iff, find?_buildIndex_eq_none_iff, ?_, rfl⟩
  intro later hlater
  exact find?_applyAll (hempty.applyAll changes) hlater text

/-- A row of a struct whose key is the code. -/
def codeRow (code : Value) (label : String) : Instance :=
  .ofFields "Code" [("id", code), ("label", .text (.plain label))]

/-- A struct with its key and four rows: two keys show one text, one is null, and one is absent. -/
def codeChanges : List Change :=
  [.addField { Field.ofType "id" ⟨.str, false⟩ with isKey := true },
    .addField (.ofType "label" ⟨.str, false⟩), .addRow (codeRow (.int 1) "first"),
    .addRow (codeRow (.text (.plain "1")) "second"), .addRow (codeRow .null "null"),
    .addRow (.ofFields "Code" [("label", .text (.plain "none"))]), .buildIndex]

theorem find?_exact_code :
    let t := (empty "Code").applyAll codeChanges
    let later : List Change :=
      [.setDefault "label" none, .setChoices "nope" none, .addRow (codeRow (.int 1) "third")]
    .buildIndex ∉ later ∧
      IsLast "id" "1" t.rows (codeRow (.text (.plain "1")) "second") ∧
      (t.applyAll later).find? "1" = some (codeRow (.text (.plain "1")) "second") := by
  intro t later
  have hlater : .buildIndex ∉ later := by simp [later]
  obtain ⟨hfound, -, hkept, -⟩ := find?_exact "Code" codeChanges "1"
  have hsecond : t.buildIndex.find? "1" = some (codeRow (.text (.plain "1")) "second") := by rfl
  obtain ⟨key, hkey, hlast⟩ := (hfound _).mp hsecond
  cases hkey
  exact ⟨hlater, hlast, (hkept later hlater).trans hsecond⟩

end Table

end RowConfig
