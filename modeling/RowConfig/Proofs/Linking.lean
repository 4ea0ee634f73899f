import RowConfig.Linking
import RowConfig.Proofs.Contents

/-!
# What linking does

Linking maps the references of a value and keeps everything else, so its result is related to its
input part by part. What a linked document shows is the linked form of something that the document
held before (`Document.link_origin`): the copies that references get are rows of the document, and
the trail under which a row was followed does not change the result (`follow_of_subset`).
-/

namespace RowConfig

namespace Linking

variable {follow follow' : RowName → Except Fault Instance}

/-! ## One value -/

theorem mapItems_eq_ok_iff {items items' : List Value} :
    mapItems follow items = .ok items' ↔
      List.Forall₂ (fun v w => mapReferences follow v = .ok w) items items' :=
  pass_eq_ok_iff (mapReferences follow) (mapItems follow) rfl fun v vs => by
    rw [mapItems]
    cases mapReferences follow v <;> rfl

theorem mapFields_eq (fields : Entries Value) :
    mapFields follow fields = Entries.tryMapValues (mapReferences follow) fields := by
  induction fields with
  | nil => rfl
  | cons field fields ih =>
      obtain ⟨name, v⟩ := field
      rw [mapFields, Entries.tryMapValues, ih]
      cases mapReferences follow v <;> rfl

theorem mapFields_eq_ok_iff {fields fields' : Entries Value} :
    mapFields follow fields = .ok fields' ↔
      Entries.Pointwise (fun v w => mapReferences follow v = .ok w) fields fields' := by
  rw [mapFields_eq, Entries.tryMapValues_eq_ok_iff]

/-- A linked row has the struct and the place of the row, and its fields linked. -/
theorem mapRow_eq_ok_iff {row row' : Instance} :
    mapRow follow row = .ok row' ↔
      row.struct = row'.struct ∧ mapFields follow row.fields = .ok row'.fields ∧
        row.call = row'.call := by
  obtain ⟨struct, fields, call⟩ := row
  obtain ⟨struct', fields', call'⟩ := row'
  rw [mapRow, map_eq_ok_iff]
  constructor
  · rintro ⟨_, h, heq⟩
    cases heq
    exact ⟨rfl, h, rfl⟩
  · rintro ⟨rfl, h, rfl⟩
    exact ⟨fields', h, rfl⟩

/-- The fields of a linked row are the linked fields of the row. -/
theorem values_of_mapRow {row row' : Instance} (h : mapRow follow row = .ok row') :
    List.Forall₂ (fun v w => mapReferences follow v = .ok w)
      (Entries.values row.fields) (Entries.values row'.fields) :=
  (mapFields_eq_ok_iff.mp (mapRow_eq_ok_iff.mp h).2.1).values

/-- A row can be linked exactly when the values of its fields can. -/
theorem exists_mapRow_iff {row : Instance} :
    (∃ row', mapRow follow row = .ok row') ↔
      ∀ v ∈ Entries.values row.fields, ∃ w, mapReferences follow v = .ok w := by
  obtain ⟨struct, fields, call⟩ := row
  rw [← exists_forall₂_iff]
  constructor
  · rintro ⟨row', h⟩
    exact ⟨_, values_of_mapRow h⟩
  · rintro ⟨ws, h⟩
    have hfields : ∃ fields', mapFields follow fields = .ok fields' := by
      simp only [mapFields_eq_ok_iff, Entries.Pointwise]
      rw [exists_forall₂_iff]
      intro field hfield
      obtain ⟨w, hw⟩ := exists_forall₂_iff.mp ⟨ws, h⟩ field.2 (List.mem_map_of_mem hfield)
      exact ⟨(field.1, w), rfl, hw⟩
    obtain ⟨fields', hfields⟩ := hfields
    exact ⟨⟨struct, fields', call⟩, mapRow_eq_ok_iff.mpr ⟨rfl, hfields, rfl⟩⟩

/-- What a linked value is: the shape stays, and a reference gets the row that was followed. -/
theorem mapReferences_reference_eq_ok_iff {struct key : String} {target : Option Instance}
    {w : Value} :
    mapReferences follow (.reference struct key target) = .ok w ↔
      ∃ row, follow (struct, key) = .ok row ∧ w = .reference struct key (some row) := by
  rw [mapReferences, map_eq_ok_iff]
  simp only [eq_comm]

/-- Only a reference is linked to a reference. -/
theorem eq_reference_of_mapReferences {v : Value} {struct key : String} {target : Option Instance}
    (h : mapReferences follow v = .ok (.reference struct key target)) :
    ∃ old row, v = .reference struct key old ∧ follow (struct, key) = .ok row ∧
      target = some row := by
  cases v with
  | reference struct' key' old =>
      obtain ⟨row, hrow, heq⟩ := mapReferences_reference_eq_ok_iff.mp h
      cases heq
      exact ⟨old, row, rfl, hrow, rfl⟩
  | array items => obtain ⟨_, _, heq⟩ := map_eq_ok_iff.mp h; cases heq
  | «instance» row => obtain ⟨_, _, heq⟩ := map_eq_ok_iff.mp h; cases heq
  | _ => cases h

/-- Only an instance is linked to an instance. -/
theorem eq_instance_of_mapReferences {v : Value} {row' : Instance}
    (h : mapReferences follow v = .ok (.instance row')) :
    ∃ row, v = .instance row ∧ mapRow follow row = .ok row' := by
  cases v with
  | «instance» row =>
      obtain ⟨_, hrow, heq⟩ := map_eq_ok_iff.mp h
      cases heq
      exact ⟨row, rfl, hrow⟩
  | array items => obtain ⟨_, _, heq⟩ := map_eq_ok_iff.mp h; cases heq
  | reference struct key target => obtain ⟨_, _, heq⟩ := map_eq_ok_iff.mp h; cases heq
  | _ => cases h

/-- The parts of a linked value are the linked parts of the value. -/
theorem parts_of_mapReferences {v w : Value} (h : mapReferences follow v = .ok w) :
    List.Forall₂ (fun p q => mapReferences follow p = .ok q) v.parts w.parts := by
  cases v with
  | array items =>
      obtain ⟨items', hitems, rfl⟩ := map_eq_ok_iff.mp h
      exact mapItems_eq_ok_iff.mp hitems
  | «instance» row =>
      obtain ⟨row', hrow, rfl⟩ := map_eq_ok_iff.mp h
      exact values_of_mapRow hrow
  | reference struct key target =>
      obtain ⟨row, -, rfl⟩ := mapReferences_reference_eq_ok_iff.mp h
      exact .nil
  | _ => cases h; exact .nil

/-- A value can be linked exactly when each of its parts can and, if it is a reference, the row that
it names can be followed. -/
theorem exists_mapReferences_iff_parts {v : Value} :
    (∃ w, mapReferences follow v = .ok w) ↔
      (∀ p ∈ v.parts, ∃ q, mapReferences follow p = .ok q) ∧
        ∀ struct key target, v = .reference struct key target →
          ∃ row, follow (struct, key) = .ok row := by
  cases v with
  | array items =>
      simp only [mapReferences, map_eq_ok_iff, mapItems_eq_ok_iff, reduceCtorEq, false_implies,
        implies_true, and_true]
      rw [show (Value.array items).parts = items from rfl, ← exists_forall₂_iff]
      exact ⟨fun ⟨_, ws, h, _⟩ => ⟨ws, h⟩, fun ⟨ws, h⟩ => ⟨_, ws, h, rfl⟩⟩
  | «instance» row =>
      simp only [mapReferences, map_eq_ok_iff, reduceCtorEq, false_implies, implies_true, and_true]
      rw [show (Value.instance row).parts = Entries.values row.fields from rfl,
        ← exists_mapRow_iff]
      exact ⟨fun ⟨_, row', h, _⟩ => ⟨row', h⟩, fun ⟨row', h⟩ => ⟨_, row', h, rfl⟩⟩
  | reference struct key target =>
      simp only [mapReferences_reference_eq_ok_iff, Value.parts, List.not_mem_nil, false_implies,
        implies_true, true_and, Value.reference.injEq]
      constructor
      · rintro ⟨_, row, hrow, -⟩ _ _ _ ⟨rfl, rfl, rfl⟩
        exact ⟨row, hrow⟩
      · intro h
        obtain ⟨row, hrow⟩ := h struct key target ⟨rfl, rfl, rfl⟩
        exact ⟨_, row, hrow, rfl⟩
  | _ => simp [mapReferences, Value.parts]

/-- A value can be linked exactly when the row that each reference written in it names can be
followed. -/
theorem exists_mapReferences_iff {v : Value} :
    (∃ w, mapReferences follow v = .ok w) ↔
      ∀ struct key target, v.Holds (.reference struct key target) →
        ∃ row, follow (struct, key) = .ok row := by
  induction v using Value.contents_induction with
  | step v ih =>
      rw [exists_mapReferences_iff_parts]
      constructor
      · rintro ⟨hparts, hself⟩ struct key target h
        rcases Value.holds_iff.mp h with rfl | ⟨p, hp, h⟩
        · exact hself struct key target rfl
        · exact (ih p (v.parts_subset_contents hp)).mp (hparts p hp) struct key target h
      · intro h
        constructor
        · intro p hp
          exact (ih p (v.parts_subset_contents hp)).mpr fun struct key target hr =>
            h struct key target (.of_part hp hr)
        · rintro struct key target rfl
          exact h struct key target (.refl _)

/-- Following more rows keeps what could be linked before. -/
theorem mapReferences_of_imp
    (himp : ∀ name row, follow name = .ok row → follow' name = .ok row) {v w : Value}
    (h : mapReferences follow v = .ok w) : mapReferences follow' v = .ok w := by
  induction v using Value.contents_induction generalizing w with
  | step v ih =>
      cases v with
      | array items =>
          obtain ⟨items', hitems, rfl⟩ := map_eq_ok_iff.mp h
          refine map_eq_ok_iff.mpr ⟨items', mapItems_eq_ok_iff.mpr ?_, rfl⟩
          exact forall₂_imp_of_mem (fun p hp q => ih p hp) (mapItems_eq_ok_iff.mp hitems)
      | «instance» row =>
          obtain ⟨row', hrow, rfl⟩ := map_eq_ok_iff.mp h
          obtain ⟨hstruct, hfields, hcall⟩ := mapRow_eq_ok_iff.mp hrow
          refine map_eq_ok_iff.mpr ⟨row', mapRow_eq_ok_iff.mpr ⟨hstruct, ?_, hcall⟩, rfl⟩
          refine mapFields_eq_ok_iff.mpr ((mapFields_eq_ok_iff.mp hfields).imp_of_mem ?_)
          exact fun p hp q => ih p hp
      | reference struct key target =>
          obtain ⟨row, hrow, rfl⟩ := mapReferences_reference_eq_ok_iff.mp h
          exact mapReferences_reference_eq_ok_iff.mpr ⟨row, himp _ _ hrow, rfl⟩
      | _ => exact h

theorem mapRow_of_imp (himp : ∀ name row, follow name = .ok row → follow' name = .ok row)
    {row row' : Instance} (h : mapRow follow row = .ok row') : mapRow follow' row = .ok row' := by
  obtain ⟨hstruct, hfields, hcall⟩ := mapRow_eq_ok_iff.mp h
  refine mapRow_eq_ok_iff.mpr ⟨hstruct, ?_, hcall⟩
  refine mapFields_eq_ok_iff.mpr ((mapFields_eq_ok_iff.mp hfields).imp_of_mem ?_)
  exact fun _ _ _ => mapReferences_of_imp himp

/-! ## Following a reference -/

section Follow

variable {d : Document} {trail trail' : List RowName} {name : RowName} {row : Instance}

theorem follow_eq (d : Document) (trail : List RowName) (name : RowName) :
    Linking.follow d trail name =
      match findRow d name with
      | .error e => .error e
      | .ok row =>
        if trail.contains name then
          .error (.circular (repeatingTail ((trail ++ [name]).map describe)))
        else mapRow (Linking.follow d (trail ++ [name])) row := by
  rw [Linking.follow]
  split
  · next hfound => rw [hfound]
  · next hfound =>
    rw [hfound]
    split <;> rfl

/-- A reference can be followed when it names a row, the trail does not hold its name, and the
references of that row can be followed in turn. -/
theorem follow_eq_ok_iff :
    Linking.follow d trail name = .ok row ↔
      ∃ found, findRow d name = .ok found ∧ name ∉ trail ∧
        mapRow (Linking.follow d (trail ++ [name])) found = .ok row := by
  rw [follow_eq]
  cases hfound : findRow d name with
  | error e => simp
  | ok found =>
      by_cases hmet : name ∈ trail
      · simp [hmet]
      · simp [hmet]

/-- A row that was followed under some trail is followed to the same result under any part of that
trail. -/
theorem follow_of_subset (h : Linking.follow d trail name = .ok row) (hsub : trail' ⊆ trail) :
    Linking.follow d trail' name = .ok row := by
  induction trail, name using Linking.follow.induct d generalizing trail' row with
  | case1 trail name e hfound =>
      obtain ⟨found, hfound', -⟩ := follow_eq_ok_iff.mp h
      rw [hfound] at hfound'
      cases hfound'
  | case2 trail name found hfound hmet =>
      obtain ⟨_, -, hout, -⟩ := follow_eq_ok_iff.mp h
      exact absurd (by simpa using hmet) hout
  | case3 trail name found hfound hmet ih =>
      obtain ⟨found', hfound', hout, hrow⟩ := follow_eq_ok_iff.mp h
      refine follow_eq_ok_iff.mpr ⟨found', hfound', fun hin => hout (hsub hin), ?_⟩
      refine mapRow_of_imp (fun next row' hnext => ih next hnext ?_) hrow
      exact List.append_subset.mpr ⟨fun x hx => List.mem_append_left _ (hsub hx),
        fun x hx => List.mem_append_right _ hx⟩

theorem follow_nil (h : Linking.follow d trail name = .ok row) :
    Linking.follow d [] name = .ok row :=
  follow_of_subset h (List.nil_subset trail)

end Follow

/-! ## Finding rows -/

section Find

variable {d : Document} {name : RowName} {row : Instance}

theorem findRow_eq_ok_iff :
    findRow d name = .ok row ↔ ∃ t, d.table? name.1 = some t ∧ t.find? name.2 = some row := by
  unfold findRow
  split
  · next h => simp [h]
  · next t h =>
    split
    · next hrow => simp [h, hrow]
    · next found hrow => simp [h, hrow]

/-- A row that a name finds is a row of the document. -/
theorem mem_rows_of_findRow (h : findRow d name = .ok row) :
    ∃ entry ∈ d.tables, row ∈ entry.2.rows := by
  obtain ⟨t, ht, hrow⟩ := findRow_eq_ok_iff.mp h
  obtain ⟨position, -, hrow⟩ := Option.bind_eq_some_iff.mp hrow
  exact ⟨(name.1, t), mem_of_get?_eq_some ht, List.mem_of_getElem? hrow⟩

theorem holds_of_findRow (h : findRow d name = .ok row) {v : Value}
    (hv : v ∈ Entries.values row.fields) : d.Holds v := by
  obtain ⟨entry, hentry, hrow⟩ := mem_rows_of_findRow h
  exact .of_mem_roots (Document.mem_roots.mpr (.inr ⟨entry, hentry, row, hrow, hv⟩))

end Find

/-! ## Documents -/

theorem linkRows_eq_ok_iff {d : Document} {rows rows' : List Instance} :
    linkRows d rows = .ok rows' ↔
      List.Forall₂ (fun row row' => mapRow (Linking.follow d []) row = .ok row') rows rows' :=
  pass_eq_ok_iff (mapRow (Linking.follow d [])) (linkRows d) rfl fun row rows => by
    rw [linkRows]
    cases mapRow (Linking.follow d []) row <;> rfl

/-- A table whose rows are linked is otherwise the table. -/
def LinkedTable (d : Document) (t u : Table) : Prop :=
  ∃ rows, linkRows d t.rows = .ok rows ∧ { t with rows := rows } = u

end Linking

open Linking

namespace Document

variable {d e : Document}

theorem link_eq_ok_iff :
    d.link = .ok e ↔
      Entries.Pointwise (fun v w => mapReferences (follow d []) v = .ok w) d.globals e.globals ∧
        Entries.Pointwise (LinkedTable d) d.tables e.tables := by
  obtain ⟨globals, tables⟩ := e
  have htables : Entries.Pointwise (LinkedTable d) d.tables tables ↔
      Entries.tryMapValues (fun t => (linkRows d t.rows).map fun rows => { t with rows := rows })
        d.tables = .ok tables := by
    rw [Entries.tryMapValues_eq_ok_iff]
    simp only [map_eq_ok_iff]
    rfl
  rw [htables, ← mapFields_eq_ok_iff, link]
  cases hglobals : mapFields (follow d []) d.globals with
  | error f => simp
  | ok globals' =>
      simp only [map_eq_ok_iff, Document.mk.injEq, Except.ok.injEq]
      constructor
      · rintro ⟨tables', h, rfl, rfl⟩
        exact ⟨rfl, h⟩
      · rintro ⟨rfl, h⟩
        exact ⟨tables, h, rfl, rfl⟩

/-- Every root of a linked document is a linked root. -/
theorem exists_root_of_link (h : d.link = .ok e) {w : Value} (hw : w ∈ e.roots) :
    ∃ v ∈ d.roots, mapReferences (follow d []) v = .ok w := by
  obtain ⟨hglobals, htables⟩ := link_eq_ok_iff.mp h
  rcases mem_roots.mp hw with hw | ⟨entry', hentry', row', hrow', hw⟩
  · obtain ⟨v, hv, hlinked⟩ := exists_mem_left hglobals.values hw
    exact ⟨v, mem_roots.mpr (.inl hv), hlinked⟩
  · obtain ⟨entry, hentry, -, rows, hrows, heq⟩ := exists_mem_left htables hentry'
    rw [← heq] at hrow'
    obtain ⟨row, hrow, hlinked⟩ := exists_mem_left (linkRows_eq_ok_iff.mp hrows) hrow'
    obtain ⟨v, hv, hlinked⟩ := exists_mem_left (values_of_mapRow hlinked) hw
    exact ⟨v, mem_roots.mpr (.inr ⟨entry, hentry, row, hrow, hv⟩), hlinked⟩

/-- What a linked value shows one step further in is again the linked form of something that the
document held. For a reference this is a field of the row that it names. -/
theorem exists_holds_of_contents {v w w' : Value} (hv : d.Holds v)
    (hw : mapReferences (follow d []) v = .ok w) (hw' : w' ∈ w.contents) :
    ∃ v', d.Holds v' ∧ mapReferences (follow d []) v' = .ok w' := by
  by_cases hpart : w' ∈ w.parts
  · obtain ⟨p, hp, hlinked⟩ := exists_mem_left (parts_of_mapReferences hw) hpart
    exact ⟨p, hv.trans (.of_part hp (.refl p)), hlinked⟩
  · -- outside the parts, only a reference shows anything
    cases w with
    | reference struct key target =>
        obtain ⟨_, row, -, hrow, rfl⟩ := eq_reference_of_mapReferences hw
        obtain ⟨found, hfound, -, hlinked⟩ := follow_eq_ok_iff.mp hrow
        have hlinked := mapRow_of_imp (fun _ _ => follow_nil) hlinked
        obtain ⟨v', hv', hlinked⟩ := exists_mem_left (values_of_mapRow hlinked) hw'
        exact ⟨v', holds_of_findRow hfound hv', hlinked⟩
    | _ => exact absurd hw' hpart

/-- Everything that a linked document shows, through targets of references too, is the linked form
of something that the document held. -/
theorem link_origin (h : d.link = .ok e) {w : Value} (hw : e.Shows w) :
    ∃ v, d.Holds v ∧ mapReferences (follow d []) v = .ok w := by
  obtain ⟨root, hroot, hshows⟩ := hw
  induction hshows with
  | refl =>
      obtain ⟨v, hv, hlinked⟩ := exists_root_of_link h hroot
      exact ⟨v, .of_mem_roots hv, hlinked⟩
  | tail _ hstep ih =>
      obtain ⟨v, hv, hlinked⟩ := ih
      exact exists_holds_of_contents hv hlinked hstep

/-- A name finds the linked form of the row that it found before. -/
theorem findRow_of_link (h : d.link = .ok e) {name : RowName} {row : Instance}
    (hrow : findRow d name = .ok row) :
    ∃ row', findRow e name = .ok row' ∧ mapRow (follow d []) row = .ok row' := by
  obtain ⟨t, ht, hrow⟩ := findRow_eq_ok_iff.mp hrow
  obtain ⟨position, hposition, hrow⟩ := Option.bind_eq_some_iff.mp hrow
  obtain ⟨_, ht', rows, hrows, rfl⟩ := (link_eq_ok_iff.mp h).2.get?_eq_some_left ht
  obtain ⟨row', hrow', hlinked⟩ := exists_getElem?_right (linkRows_eq_ok_iff.mp hrows) hrow
  refine ⟨row', findRow_eq_ok_iff.mpr ⟨_, ht', ?_⟩, hlinked⟩
  exact Option.bind_eq_some_iff.mpr ⟨position, hposition, hrow'⟩

/-- A reference of a linked document holds the row of that document which it names. -/
theorem target_of_link (h : d.link = .ok e) {struct key : String} {target : Option Instance}
    (hr : e.Shows (.reference struct key target)) :
    ∃ row, findRow e (struct, key) = .ok row ∧ target = some row := by
  obtain ⟨v, -, hlinked⟩ := link_origin h hr
  obtain ⟨_, row, -, hrow, rfl⟩ := eq_reference_of_mapReferences hlinked
  obtain ⟨found, hfound, -, hlinked⟩ := follow_eq_ok_iff.mp hrow
  obtain ⟨row', hrow', hlinked'⟩ := findRow_of_link h hfound
  -- the row of the document was linked under the empty trail, the copy under a longer one
  have heq := (mapRow_of_imp (fun _ _ => follow_nil) hlinked).symm.trans hlinked'
  cases heq
  exact ⟨row, hrow', rfl⟩

end Document

end RowConfig
