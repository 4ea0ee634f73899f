import RowConfig.Proofs.Linking

/-!
# Forgetting targets

`Document.unlinked` takes the copied rows out of all references. Linking undoes it and adds nothing
else: it neither looks at targets that are there already (`Document.link_unlinked`) nor changes
anything but targets (`Document.unlinked_of_link`). Linking a linked document again is therefore
linking the same document again.
-/

namespace RowConfig

namespace Value

mutual

/-- A value without the rows that its references hold. -/
def unlinked : Value → Value
  | .array items => .array (unlinkedItems items)
  | .instance row => .instance (unlinkedRow row)
  | .reference struct key _ => .reference struct key none
  | v => v

/-- The elements of an array without the rows that their references hold. -/
def unlinkedItems : List Value → List Value
  | [] => []
  | v :: vs => unlinked v :: unlinkedItems vs

/-- A row without the rows that its references hold. -/
def unlinkedRow : Record Value → Record Value
  | ⟨struct, fields, call⟩ => ⟨struct, unlinkedFields fields, call⟩

/-- Named values without the rows that their references hold. -/
def unlinkedFields : List (String × Value) → List (String × Value)
  | [] => []
  | (name, v) :: more => (name, unlinked v) :: unlinkedFields more

end

theorem unlinkedItems_eq_map (items : List Value) : unlinkedItems items = items.map unlinked := by
  induction items with
  | nil => rfl
  | cons v vs ih => rw [unlinkedItems, ih, List.map_cons]

theorem unlinkedFields_eq_mapValues (fields : Entries Value) :
    unlinkedFields fields = Entries.mapValues unlinked fields := by
  induction fields with
  | nil => rfl
  | cons field fields ih =>
      obtain ⟨name, v⟩ := field
      rw [unlinkedFields, ih]
      rfl

end Value

open Value

namespace Linking

variable {follow : RowName → Except Fault Instance}

/-! ## Targets are not read -/

mutual

/-- The result of linking a value does not depend on the targets that are there. -/
theorem mapReferences_unlinked : ∀ v : Value,
    mapReferences follow v.unlinked = mapReferences follow v
  | .array items => by rw [unlinked, mapReferences, mapItems_unlinked items, mapReferences]
  | .instance row => by rw [unlinked, mapReferences, mapRow_unlinked row, mapReferences]
  | .reference _ _ _ => by rw [unlinked, mapReferences, mapReferences]
  | .null | .bool _ | .int _ | .float _ | .text _ | .date _ | .time _ | .dateTime _ => rfl

theorem mapItems_unlinked : ∀ items : List Value,
    mapItems follow (unlinkedItems items) = mapItems follow items
  | [] => rfl
  | v :: vs => by
      rw [unlinkedItems, mapItems, mapReferences_unlinked v, mapItems_unlinked vs, mapItems]

theorem mapRow_unlinked : ∀ row : Record Value,
    mapRow follow (unlinkedRow row) = mapRow follow row
  | ⟨struct, fields, call⟩ => by rw [unlinkedRow, mapRow, mapFields_unlinked fields, mapRow]

theorem mapFields_unlinked : ∀ fields : List (String × Value),
    mapFields follow (unlinkedFields fields) = mapFields follow fields
  | [] => rfl
  | (name, v) :: more => by
      rw [unlinkedFields, mapFields, mapReferences_unlinked v, mapFields_unlinked more, mapFields]

end

/-! ## Nothing but targets changes -/

/-- A linked value without its targets is the value without its targets. -/
theorem unlinked_of_mapReferences {v w : Value} (h : mapReferences follow v = .ok w) :
    w.unlinked = v.unlinked := by
  induction v using Value.contents_induction generalizing w with
  | step v ih =>
      cases v with
      | array items =>
          obtain ⟨items', hitems, rfl⟩ := map_eq_ok_iff.mp h
          rw [unlinked, unlinked, unlinkedItems_eq_map, unlinkedItems_eq_map]
          congr 1
          refine (map_eq_map_of_forall₂ (mapItems_eq_ok_iff.mp hitems) ?_).symm
          exact fun p hp q hpq => (ih p hp hpq).symm
      | «instance» row =>
          obtain ⟨row', hrow, rfl⟩ := map_eq_ok_iff.mp h
          obtain ⟨struct, fields, call⟩ := row
          obtain ⟨struct', fields', call'⟩ := row'
          obtain ⟨rfl, hfields, rfl⟩ := mapRow_eq_ok_iff.mp hrow
          rw [unlinked, unlinked, unlinkedRow, unlinkedRow, unlinkedFields_eq_mapValues,
            unlinkedFields_eq_mapValues]
          congr 2
          refine ((mapFields_eq_ok_iff.mp hfields).mapValues_eq ?_).symm
          exact fun p hp q hpq => (ih p hp hpq).symm
      | reference struct key target =>
          obtain ⟨row, -, rfl⟩ := mapReferences_reference_eq_ok_iff.mp h
          rfl
      | _ => cases h; rfl

theorem unlinkedRow_of_mapRow {row row' : Instance} (h : mapRow follow row = .ok row') :
    unlinkedRow row' = unlinkedRow row := by
  -- a row is linked as the instance made of it is
  have hinstance : mapReferences follow (.instance row) = .ok (.instance row') :=
    map_eq_ok_iff.mpr ⟨row', h, rfl⟩
  have heq := unlinked_of_mapReferences hinstance
  rw [unlinked, unlinked] at heq
  exact Value.instance.inj heq

end Linking

open Linking

/-- A table without the rows that its references hold. -/
def Table.unlinked (t : Table) : Table := { t with rows := t.rows.map unlinkedRow }

namespace Document

/-- A document without the rows that its references hold. -/
def unlinked (d : Document) : Document :=
  ⟨Entries.mapValues Value.unlinked d.globals, Entries.mapValues Table.unlinked d.tables⟩

theorem structNames_unlinked (d : Document) : d.unlinked.structNames = d.structNames :=
  (Entries.pointwise_mapValues Table.unlinked d.tables).names_eq.symm

theorem findRow_unlinked (d : Document) (name : RowName) :
    findRow d.unlinked name = (findRow d name).map unlinkedRow := by
  have htable : d.unlinked.table? name.1 = (d.table? name.1).map Table.unlinked :=
    Entries.get?_mapValues Table.unlinked d.tables name.1
  unfold findRow
  rw [htable, structNames_unlinked]
  cases d.table? name.1 with
  | none => rfl
  | some t =>
      have hfind : t.unlinked.find? name.2 = (t.find? name.2).map unlinkedRow := by
        simp only [Table.find?, Table.unlinked, List.getElem?_map]
        cases Entries.get? t.index name.2 <;> rfl
      simp only [Option.map_some, hfind]
      cases t.find? name.2 <;> rfl

theorem follow_unlinked (d : Document) (trail : List RowName) (name : RowName) :
    follow d.unlinked trail name = follow d trail name := by
  induction trail, name using Linking.follow.induct d with
  | case1 trail name e hfound => rw [follow_eq, follow_eq, findRow_unlinked, hfound]; rfl
  | case2 trail name row hfound hmet =>
      rw [follow_eq, follow_eq, findRow_unlinked, hfound]
      simp only [Except.map, hmet, if_true]
  | case3 trail name row hfound hmet ih =>
      rw [follow_eq, follow_eq, findRow_unlinked, hfound]
      simp only [Except.map, hmet, if_false, Bool.false_eq_true]
      rw [mapRow_unlinked, funext ih]

theorem linkRows_unlinked (d : Document) (rows : List Instance) :
    linkRows d.unlinked (rows.map unlinkedRow) = linkRows d rows := by
  induction rows with
  | nil => rfl
  | cons row rows ih =>
      rw [List.map_cons, linkRows, linkRows, ih, mapRow_unlinked, funext (follow_unlinked d [])]

/-- Linking does not look at targets. -/
theorem link_unlinked (d : Document) : d.unlinked.link = d.link := by
  have hglobals : mapFields (follow d.unlinked []) d.unlinked.globals =
      mapFields (follow d []) d.globals := by
    rw [funext (follow_unlinked d []), ← mapFields_unlinked d.globals,
      unlinkedFields_eq_mapValues]
    rfl
  unfold link
  rw [hglobals]
  cases mapFields (follow d []) d.globals with
  | error e => rfl
  | ok globals =>
      show Except.map _ (Entries.tryMapValues _ (Entries.mapValues Table.unlinked d.tables)) = _
      rw [Entries.tryMapValues_mapValues]
      simp only [Table.unlinked, linkRows_unlinked]

/-- Linking changes nothing but targets. -/
theorem unlinked_of_link {d e : Document} (h : d.link = .ok e) : e.unlinked = d.unlinked := by
  obtain ⟨hglobals, htables⟩ := link_eq_ok_iff.mp h
  unfold unlinked
  congr 1
  · exact (hglobals.mapValues_eq fun _ _ _ hvw => (unlinked_of_mapReferences hvw).symm).symm
  · refine (htables.mapValues_eq ?_).symm
    rintro t - _ ⟨rows, hrows, rfl⟩
    have := map_eq_map_of_forall₂ (linkRows_eq_ok_iff.mp hrows)
      fun row _ row' hrow => (unlinkedRow_of_mapRow hrow).symm
    simp only [Table.unlinked, this]

/-- A linked document is linked already. -/
theorem link_of_link {d e : Document} (h : d.link = .ok e) : e.link = .ok e := by
  rw [← link_unlinked e, unlinked_of_link h, link_unlinked d, h]

end Document

end RowConfig
