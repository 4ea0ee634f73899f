import RowConfig.Proofs.Keys.Spots

/-!
# Rows under their keys

The index of a struct has for each key the position of the last row with it, and no position for a
key that no row has (`Table.get?_indexRows_of_lastAt`, `Table.get?_indexRows_of_not_mem`). Rows
whose keys are strings keep these through the passes, so that in the end, as in between, a key finds
the last row that was written with it (`Document.KeyedBy.findRow_of_lastAt`).
-/

namespace RowConfig

open Binding Linking Value

/-- `i` is the last position at which `a` stands in the list. -/
structure LastAt {α : Type} (as : List α) (a : α) (i : Nat) : Prop where
  here : as[i]? = some a
  last : ∀ j, i < j → as[j]? ≠ some a

section LastAt

variable {α β : Type} {as : List α} {a b : α} {i : Nat}

theorem lastAt_cons_succ_iff : LastAt (b :: as) a (i + 1) ↔ LastAt as a i := by
  constructor
  · intro h
    refine ⟨h.here, ?_⟩
    intro j hj
    exact h.last (j + 1) (Nat.succ_lt_succ hj)
  · intro h
    refine ⟨h.here, ?_⟩
    intro j hj
    obtain ⟨j, rfl⟩ := Nat.exists_eq_add_one_of_ne_zero (Nat.ne_zero_of_lt hj)
    exact h.last j (Nat.lt_of_succ_lt_succ hj)

theorem lastAt_cons_zero_iff : LastAt (b :: as) a 0 ↔ b = a ∧ a ∉ as := by
  constructor
  · intro h
    refine ⟨Option.some.inj h.here, ?_⟩
    intro hin
    obtain ⟨j, hj⟩ := List.getElem?_of_mem hin
    exact h.last (j + 1) (Nat.succ_pos j) hj
  · rintro ⟨rfl, hnot⟩
    refine ⟨rfl, ?_⟩
    intro j hj heq
    obtain ⟨j, rfl⟩ := Nat.exists_eq_add_one_of_ne_zero (Nat.ne_zero_of_lt hj)
    exact hnot (List.mem_of_getElem? heq)

/-- What stands in a list stands somewhere for the last time. -/
theorem exists_lastAt (h : a ∈ as) : ∃ i, LastAt as a i := by
  induction as with
  | nil => cases h
  | cons b as ih =>
      by_cases hin : a ∈ as
      · obtain ⟨i, hi⟩ := ih hin
        exact ⟨i + 1, lastAt_cons_succ_iff.mpr hi⟩
      · have heq : b = a := by simpa [hin, eq_comm] using h
        exact ⟨0, lastAt_cons_zero_iff.mpr ⟨heq, hin⟩⟩

theorem LastAt.map_some (h : LastAt as a i) : LastAt (as.map some) (some a) i := by
  refine ⟨by rw [List.getElem?_map, h.here]; rfl, ?_⟩
  intro j hj heq
  apply h.last j hj
  simpa using heq

end LastAt

/-! ## The index -/

namespace Table

variable {key text : String} {rows : List Instance} {position i : Nat} {index : Entries Nat}

/-- A text that is the key of no row finds what it found before. -/
theorem get?_indexRows_of_not_mem (h : some text ∉ rows.map (keyText? key)) :
    Entries.get? (indexRows key position index rows) text = Entries.get? index text := by
  induction rows generalizing position index with
  | nil => rfl
  | cons row rows ih =>
      rw [List.map_cons, List.mem_cons, not_or] at h
      obtain ⟨hrow, hrows⟩ := h
      rw [indexRows, ih hrows]
      split
      · next text' htext =>
        rw [htext] at hrow
        rw [Entries.get?_insert, if_neg fun heq => hrow (congrArg some heq.symm)]
      · rfl

/-- A text finds the position of the last row of which it is the key. -/
theorem get?_indexRows_of_lastAt (h : LastAt (rows.map (keyText? key)) (some text) i) :
    Entries.get? (indexRows key position index rows) text = some (position + i) := by
  induction rows generalizing position index i with
  | nil => cases h.here
  | cons row rows ih =>
      rw [List.map_cons] at h
      rw [indexRows]
      cases i with
      | zero =>
          -- the row is the last one with this key
          obtain ⟨htext, hrows⟩ := lastAt_cons_zero_iff.mp h
          rw [get?_indexRows_of_not_mem hrows, htext]
          show Entries.get? (Entries.insert text position index) text = _
          rw [Entries.get?_insert, if_pos rfl, Nat.add_zero]
      | succ i =>
          rw [ih (lastAt_cons_succ_iff.mp h), Nat.add_assoc, Nat.add_comm 1]

end Table

/-! ## Keys that are strings -/

/-- The row has the string as its key. -/
def Record.HasKey (key : String) (row : Instance) (k : String) : Prop :=
  row.get? key = some (.text (.plain k))

/-- The rows of the struct have these strings as their keys. -/
structure Table.Keyed (t : Table) (key : String) (keys : List String) : Prop where
  key_eq : t.key = some key
  rows : List.Forall₂ (Record.HasKey key) t.rows keys

/-- The index has the position of the last row with each key, and no other keys. -/
structure Table.IndexedBy (t : Table) (keys : List String) : Prop where
  present : ∀ k i, LastAt keys k i → Entries.get? t.index k = some i
  absent : ∀ k, k ∉ keys → Entries.get? t.index k = none

/-- The rows of a struct have these strings as their keys, by which they are indexed. -/
def Document.KeyedBy (d : Document) (struct key : String) (keys : List String) : Prop :=
  ∃ t, d.table? struct = some t ∧ t.Keyed key keys ∧ t.IndexedBy keys

theorem Record.HasKey.keyText? {key k : String} {row : Instance} (h : row.HasKey key k) :
    Table.keyText? key row = some k := by
  unfold Table.keyText?
  rw [show row.get? key = _ from h]
  rfl

namespace Table.Keyed

variable {t : Table} {key : String} {keys : List String}

theorem buildIndex (h : t.Keyed key keys) : t.buildIndex.Keyed key keys := ⟨h.key_eq, h.rows⟩

/-- An index that is built has the rows under their keys. -/
theorem indexedBy_buildIndex (h : t.Keyed key keys) : t.buildIndex.IndexedBy keys := by
  have hindex : t.buildIndex.index = indexRows key 0 [] t.rows := by
    rw [Table.buildIndex, h.key_eq]
  have htexts : t.rows.map (keyText? key) = keys.map some :=
    map_eq_map_of_forall₂ h.rows fun row _ k hk => hk.keyText?
  constructor
  · intro k i hi
    have hlast : LastAt (t.rows.map (keyText? key)) (some k) i := by
      rw [htexts]
      exact hi.map_some
    rw [hindex, get?_indexRows_of_lastAt hlast, Nat.zero_add]
  · intro k hk
    have hnot : some k ∉ t.rows.map (keyText? key) := by
      rw [htexts]
      simpa using hk
    rw [hindex, get?_indexRows_of_not_mem hnot]
    rfl

end Table.Keyed

namespace Document

variable {d e bound : Document} {struct key k : String} {keys : List String} {t : Table}

namespace KeyedBy

/-- A key finds the last row that has it. -/
theorem findRow_of_lastAt (h : d.KeyedBy struct key keys) {i : Nat} (hi : LastAt keys k i) :
    ∃ t row, d.table? struct = some t ∧ t.rows[i]? = some row ∧ findRow d (struct, k) = .ok row := by
  obtain ⟨t, ht, hkeyed, hindexed⟩ := h
  obtain ⟨row, hrow, -⟩ := exists_getElem?_right hkeyed.rows.flip hi.here
  refine ⟨t, row, ht, hrow, findRow_eq_ok_iff.mpr ⟨t, ht, ?_⟩⟩
  exact Option.bind_eq_some_iff.mpr ⟨i, hindexed.present k i hi, hrow⟩

/-- A key that no row has is unknown. -/
theorem findRow_of_not_mem (h : d.KeyedBy struct key keys) (hk : k ∉ keys) :
    findRow d (struct, k) = .error (.unknownKey struct k) := by
  obtain ⟨t, ht, -, hindexed⟩ := h
  have hnone : t.find? k = none := by
    rw [Table.find?, hindexed.absent k hk]
    rfl
  unfold findRow
  simp only [ht, hnone]

/-- A key that finds a row is that of a row. -/
theorem mem_of_findRow (h : d.KeyedBy struct key keys) {row : Instance}
    (hrow : findRow d (struct, k) = .ok row) : k ∈ keys := by
  by_contra hk
  rw [h.findRow_of_not_mem hk] at hrow
  cases hrow

end KeyedBy

/-! ## Through the passes -/

/-- Binding keeps keys, and the indexes are built by them. -/
theorem keyedBy_of_bind (hd : d.Written) (hdeclared : d.WellDeclared) (hbind : d.bind = .ok bound)
    (ht : d.table? struct = some t) (hkeyed : t.Keyed key keys) :
    bound.buildIndexes.KeyedBy struct key keys := by
  obtain ⟨_, hbound, rows, hrows, rfl⟩ := (pointwise_of_bind hbind).2.get?_eq_some_left ht
  have hkept : List.Forall₂ (Record.HasKey key) rows keys := by
    have hboth : List.Forall₂ (fun row row' => row ∈ t.rows ∧ bindInstance d.tables row = .ok row')
        t.rows rows :=
      forall₂_imp_of_mem (fun row hrow row' hrow' => ⟨hrow, hrow'⟩) (bindRows_eq_ok_iff.mp hrows)
    refine forall₂_comp hboth.flip hkeyed.rows ?_
    rintro row' row k ⟨hrow, hbindRow⟩ hk
    obtain ⟨w, hw, depth, path, hvw⟩ := exists_get?_of_bindInstance hd hdeclared ht hrow hbindRow hk
    cases hvw
    exact hw
  have hbuilt : ({ t with rows := rows } : Table).Keyed key keys := ⟨hkeyed.key_eq, hkept⟩
  refine ⟨_, ?_, hbuilt.buildIndex, hbuilt.indexedBy_buildIndex⟩
  rw [Document.table?, buildIndexes, Entries.get?_mapValues, hbound]
  rfl

theorem KeyedBy.link (h : d.KeyedBy struct key keys) (hlink : d.link = .ok e) :
    e.KeyedBy struct key keys := by
  obtain ⟨t, ht, hkeyed, hindexed⟩ := h
  obtain ⟨_, hlinked, rows, hrows, rfl⟩ := (link_eq_ok_iff.mp hlink).2.get?_eq_some_left ht
  refine ⟨_, hlinked, ⟨hkeyed.key_eq, ?_⟩, ⟨hindexed.present, hindexed.absent⟩⟩
  refine forall₂_comp (linkRows_eq_ok_iff.mp hrows).flip hkeyed.rows ?_
  intro row' row k hrow hk
  have hfields := mapFields_eq_ok_iff.mp (mapRow_eq_ok_iff.mp hrow).2.1
  obtain ⟨w, hw, hvw⟩ := hfields.get?_eq_some_left hk
  cases hvw
  exact hw

theorem KeyedBy.render (h : d.KeyedBy struct key keys) : d.render.KeyedBy struct key keys := by
  obtain ⟨t, ht, hkeyed, hindexed⟩ := h
  have hrendered : d.render.table? struct = some (t.rendered d.globals) := by
    rw [table?_render, ht]
    rfl
  refine ⟨_, hrendered, ⟨hkeyed.key_eq, ?_⟩, ⟨hindexed.present, hindexed.absent⟩⟩
  show List.Forall₂ (Record.HasKey key) (t.rows.map (renderedRow d.globals)) keys
  rw [List.forall₂_map_left_iff]
  refine hkeyed.rows.imp ?_
  intro row k hk
  obtain ⟨w, hw, s, -, rfl⟩ := (pointwise_renderedRow d.globals row).get?_eq_some_left hk
  exact hw

/-- In the end the rows still have the keys that they were written with, by which they are found. -/
theorem keyedBy_of_resolve (hd : d.Written) (hdeclared : d.WellDeclared) (h : d.resolve = .ok e)
    (ht : d.table? struct = some t) (hkeyed : t.Keyed key keys) : e.KeyedBy struct key keys := by
  obtain ⟨bound, linked, hbound, hlinked, rfl⟩ := resolve_eq_ok_iff.mp h
  exact ((keyedBy_of_bind hd hdeclared hbound ht hkeyed).link hlinked).render

end Document

end RowConfig
