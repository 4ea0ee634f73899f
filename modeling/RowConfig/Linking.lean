import RowConfig.Binding

/-!
# Linking references

Linking gives every reference a copy of the row that it names, whose own references are linked in
turn. The names that are being followed are kept on a trail: a name that is met again is a circular
reference. Only names of the index go on the trail and none twice, so following ends.
-/

namespace RowConfig

namespace Linking

/-- The name of a row: its struct and the text of its key. -/
abbrev RowName := String × String

/-- The names of all indexed rows of a document. -/
def rowNames (d : Document) : List RowName :=
  d.tables.flatMap fun (struct, t) => (Entries.names t.index).map fun key => (struct, key)

/-- How a row name stands in the report of a circular reference. -/
def describe (name : RowName) : String := name.1 ++ "(" ++ name.2 ++ ")"

/-- The row that a reference names. -/
def findRow (d : Document) (name : RowName) : Except Fault Instance :=
  match d.table? name.1 with
  | none => .error (.unknownStruct name.1 name.2 d.structNames)
  | some t =>
    match t.find? name.2 with
    | none => .error (.unknownKey name.1 name.2)
    | some row => .ok row

theorem mem_of_get?_eq_some {α : Type} {es : Entries α} {name : String} {v : α}
    (h : Entries.get? es name = some v) : (name, v) ∈ es := by
  induction es with
  | nil => simp [Entries.get?] at h
  | cons e es ih =>
    obtain ⟨k, w⟩ := e
    by_cases hk : k = name
    · simp [Entries.get?, hk] at h
      simp [hk, h]
    · simp only [Entries.get?, hk, if_false] at h
      exact List.mem_cons_of_mem _ (ih h)

/-- A name under which a row is found is a name of the index. -/
theorem mem_rowNames_of_findRow {d : Document} {name : RowName} {row : Instance}
    (h : findRow d name = .ok row) : name ∈ rowNames d := by
  obtain ⟨struct, key⟩ := name
  unfold findRow at h
  split at h
  · simp at h
  · next t ht =>
    split at h
    · simp at h
    · next r hr =>
      simp only [Table.find?, Option.bind_eq_some_iff] at hr
      obtain ⟨position, hp, -⟩ := hr
      have hk := mem_of_get?_eq_some hp
      have htm := mem_of_get?_eq_some ht
      simp only [rowNames, List.mem_flatMap, List.mem_map, Entries.names, Prod.mk.injEq]
      exact ⟨(struct, t), htm, key, ⟨⟨(key, position), hk, rfl⟩, rfl, rfl⟩⟩

mutual

/-- Replaces the targets of the references of a value, inside arrays and instances too. -/
def mapReferences (follow : RowName → Except Fault Instance) : Value → Except Fault Value
  | .array items => (mapItems follow items).map .array
  | .instance row => (mapRow follow row).map .instance
  | .reference struct key _ =>
    (follow (struct, key)).map fun row => .reference struct key (some row)
  | v => .ok v

def mapItems (follow : RowName → Except Fault Instance) : List Value → Except Fault (List Value)
  | [] => .ok []
  | v :: vs =>
    match mapReferences follow v with
    | .error e => .error e
    | .ok w => (mapItems follow vs).map (w :: ·)

def mapRow (follow : RowName → Except Fault Instance) : Record Value → Except Fault (Record Value)
  | ⟨struct, fields, call⟩ => (mapFields follow fields).map fun fields => ⟨struct, fields, call⟩

def mapFields (follow : RowName → Except Fault Instance) :
    List (String × Value) → Except Fault (List (String × Value))
  | [] => .ok []
  | (name, v) :: more =>
    match mapReferences follow v with
    | .error e => .error e
    | .ok w => (mapFields follow more).map ((name, w) :: ·)

end

/-- The names of the index that are not on the trail. -/
def ahead (d : Document) (trail : List RowName) : List RowName :=
  (rowNames d).filter fun name => !trail.contains name

theorem length_ahead_lt {d : Document} {trail : List RowName} {name : RowName}
    (hin : name ∈ rowNames d) (hout : trail.contains name = false) :
    (ahead d (trail ++ [name])).length < (ahead d trail).length := by
  unfold ahead
  generalize rowNames d = names at hin
  induction names with
  | nil => simp at hin
  | cons n names ih =>
    have hle : (names.filter fun x => !(trail ++ [name]).contains x).length ≤
        (names.filter fun x => !trail.contains x).length := by
      rw [← List.countP_eq_length_filter, ← List.countP_eq_length_filter]
      apply List.countP_mono_left
      intro x _ hx
      simp only [List.contains_append, Bool.not_or, Bool.and_eq_true] at hx
      exact hx.1
    by_cases hn : n = name
    · -- this occurrence of the name leaves the list
      subst hn
      have h1 : (!(trail ++ [n]).contains n) = false := by simp
      have h2 : (!trail.contains n) = true := by rw [hout]; rfl
      rw [List.filter_cons, List.filter_cons, if_neg (by simp), if_pos h2]
      simpa using Nat.lt_succ_of_le hle
    · -- the name occurs further on; this entry is kept or dropped on both sides
      have hin' : name ∈ names := by
        rcases List.mem_cons.1 hin with h | h
        · exact absurd h.symm hn
        · exact h
      have := ih hin'
      have heq : ((trail ++ [name]).contains n) = trail.contains n := by
        simp [hn]
      rw [List.filter_cons, List.filter_cons, heq]
      split
      · simpa using this
      · exact this

/-- The row that a reference names, its own references linked. -/
def follow (d : Document) (trail : List RowName) (name : RowName) : Except Fault Instance :=
  match _found : findRow d name with
  | .error e => .error e
  | .ok row =>
    if _met : trail.contains name then
      .error (.circular (repeatingTail ((trail ++ [name]).map describe)))
    else
      mapRow (follow d (trail ++ [name])) row
termination_by (ahead d trail).length
decreasing_by
  exact length_ahead_lt (mem_rowNames_of_findRow _found) (by simpa using _met)

/-- Links the references of rows. -/
def linkRows (d : Document) : List Instance → Except Fault (List Instance)
  | [] => .ok []
  | row :: rows =>
    match mapRow (follow d []) row with
    | .error e => .error e
    | .ok linked => (linkRows d rows).map (linked :: ·)

end Linking

open Linking

/-- Links every reference of a document to the rows of that document, by its indexes. -/
def Document.link (d : Document) : Except Fault Document :=
  match mapFields (follow d []) d.globals with
  | .error e => .error e
  | .ok globals =>
    (Entries.tryMapValues
      (fun t => (linkRows d t.rows).map fun rows => { t with rows := rows }) d.tables).map
      fun tables => ⟨globals, tables⟩

end RowConfig
