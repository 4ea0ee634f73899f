import Mathlib.Data.List.Nodup
import RowConfig.Entries

/-!
# Names and values of entries

What is found under a name, and what giving a name a value does to the names and to the values.
-/

namespace RowConfig

/-- A further name comes last, unless it is one of the names already. -/
def withName (names : List String) (name : String) : List String :=
  if name ∈ names then names else names ++ [name]

theorem nodup_withName {names : List String} (h : names.Nodup) (name : String) :
    (withName names name).Nodup := by
  unfold withName
  split
  · exact h
  · next hout =>
    rw [← List.concat_eq_append]
    exact h.concat hout

namespace Entries

variable {α : Type} {es : Entries α} {name : String} {v : α}

theorem mem_names_of_mem {e : String × α} (h : e ∈ es) : e.1 ∈ names es :=
  List.mem_map_of_mem h

theorem mem_values_of_mem {e : String × α} (h : e ∈ es) : e.2 ∈ values es :=
  List.mem_map_of_mem h

/-- A name is found exactly when it is one of the names. -/
theorem exists_get?_iff : (∃ v, get? es name = some v) ↔ name ∈ names es := by
  induction es with
  | nil => simp [get?, names]
  | cons e es ih =>
      obtain ⟨k, w⟩ := e
      rw [get?, show names ((k, w) :: es) = k :: names es from rfl, List.mem_cons]
      split
      · next h => exact ⟨fun _ => .inl h.symm, fun _ => ⟨w, rfl⟩⟩
      · next h => rw [ih, or_iff_right (Ne.symm h)]

theorem get?_eq_none (h : name ∉ names es) : get? es name = none := by
  rw [Option.eq_none_iff_forall_ne_some]
  intro v hv
  exact h (exists_get?_iff.mp ⟨v, hv⟩)

theorem mem_of_get? (h : get? es name = some v) : (name, v) ∈ es := by
  induction es with
  | nil => cases h
  | cons e es ih =>
      obtain ⟨k, w⟩ := e
      rw [get?] at h
      split at h
      · next hk =>
        cases h
        rw [hk]
        exact List.mem_cons_self
      · exact List.mem_cons_of_mem _ (ih h)

/-- Where names do not repeat, every entry is found under its name. -/
theorem get?_of_mem (hnodup : (names es).Nodup) (h : (name, v) ∈ es) : get? es name = some v := by
  induction es with
  | nil => cases h
  | cons e es ih =>
      obtain ⟨k, w⟩ := e
      obtain ⟨hk, hnodup⟩ := List.nodup_cons.mp hnodup
      rw [get?]
      rcases List.mem_cons.mp h with heq | h
      · cases heq
        rw [if_pos rfl]
      · -- a later entry has another name than the first one
        have hin : name ∈ names es := mem_names_of_mem h
        have hne : k ≠ name := by
          rintro rfl
          exact hk hin
        rw [if_neg hne]
        exact ih hnodup h

/-! ## Giving a name a value -/

/-- The new value stands in one place among the values that stay. -/
theorem exists_values_insert (es : Entries α) (name : String) :
    ∃ front back, ∀ v, values (insert name v es) = front ++ v :: back := by
  induction es with
  | nil => exact ⟨[], [], fun v => rfl⟩
  | cons e es ih =>
      obtain ⟨k, w⟩ := e
      by_cases hk : k = name
      · refine ⟨[], values es, fun v => ?_⟩
        rw [insert, if_pos hk]
        rfl
      · obtain ⟨front, back, h⟩ := ih
        refine ⟨w :: front, back, fun v => ?_⟩
        rw [insert, if_neg hk, show values ((k, w) :: insert name v es) =
          w :: values (insert name v es) from rfl, h, List.cons_append]

/-- What stands among the entries afterwards is the new entry or was there before. -/
theorem eq_or_mem_of_mem_insert {e : String × α} (h : e ∈ insert name v es) :
    e = (name, v) ∨ e ∈ es := by
  induction es with
  | nil => exact .inl (List.mem_singleton.mp h)
  | cons e' es ih =>
      obtain ⟨k, w⟩ := e'
      rw [insert] at h
      split at h
      · next hk =>
        subst hk
        rcases List.mem_cons.mp h with rfl | h
        · exact .inl rfl
        · exact .inr (List.mem_cons_of_mem _ h)
      · rcases List.mem_cons.mp h with rfl | h
        · exact .inr List.mem_cons_self
        · rcases ih h with rfl | h
          · exact .inl rfl
          · exact .inr (List.mem_cons_of_mem _ h)

theorem names_insert (es : Entries α) (name : String) (v : α) :
    names (insert name v es) = if name ∈ names es then names es else names es ++ [name] := by
  induction es with
  | nil => rfl
  | cons e es ih =>
      obtain ⟨k, w⟩ := e
      rw [insert, show names ((k, w) :: es) = k :: names es from rfl]
      by_cases hk : k = name
      · rw [if_pos hk, if_pos (by rw [hk]; exact List.mem_cons_self)]
        rfl
      · rw [if_neg hk, show names ((k, w) :: insert name v es) =
          k :: names (insert name v es) from rfl, ih]
        by_cases hin : name ∈ names es
        · rw [if_pos hin, if_pos (List.mem_cons_of_mem _ hin)]
        · have hout : name ∉ k :: names es := by
            simp only [List.mem_cons, not_or]
            exact ⟨Ne.symm hk, hin⟩
          rw [if_neg hin, if_neg hout]
          rfl

/-- Giving a name a value does not repeat a name. -/
theorem nodup_names_insert (h : (names es).Nodup) : (names (insert name v es)).Nodup := by
  rw [names_insert]
  exact nodup_withName h name

/-! ## Changing a value -/

theorem names_modify (es : Entries α) (name : String) (f : α → α) :
    names (modify name f es) = names es := by
  induction es with
  | nil => rfl
  | cons e es ih =>
      obtain ⟨k, w⟩ := e
      rw [modify]
      split
      · rfl
      · show k :: names (modify name f es) = k :: names es
        rw [ih]

theorem get?_modify (es : Entries α) (name : String) (f : α → α) (k : String) :
    get? (modify name f es) k = if k = name then (get? es k).map f else get? es k := by
  induction es with
  | nil => simp [modify, get?]
  | cons e es ih =>
      obtain ⟨k', w⟩ := e
      rw [modify]
      by_cases hname : k' = name
      · subst hname
        by_cases hk : k = k'
        · simp [get?, hk]
        · simp [get?, hk, Ne.symm hk]
      · rw [if_neg hname, get?, get?, ih]
        by_cases hk : k' = k
        · subst hk
          simp [hname]
        · simp [hk]

/-- What stands among the entries afterwards is the changed entry or was there before. -/
theorem mem_or_eq_of_mem_modify {f : α → α} {e : String × α} (h : e ∈ modify name f es) :
    e ∈ es ∨ ∃ v, (name, v) ∈ es ∧ e = (name, f v) := by
  induction es with
  | nil => cases h
  | cons e' es ih =>
      obtain ⟨k, w⟩ := e'
      rw [modify] at h
      split at h
      · next hk =>
        subst hk
        rcases List.mem_cons.mp h with rfl | h
        · exact .inr ⟨w, List.mem_cons_self, rfl⟩
        · exact .inl (List.mem_cons_of_mem _ h)
      · rcases List.mem_cons.mp h with rfl | h
        · exact .inl List.mem_cons_self
        · rcases ih h with h | ⟨v, hv, heq⟩
          · exact .inl (List.mem_cons_of_mem _ h)
          · exact .inr ⟨v, List.mem_cons_of_mem _ hv, heq⟩

/-- A new name stands behind the others. -/
theorem insert_of_not_mem (h : name ∉ names es) : insert name v es = es ++ [(name, v)] := by
  induction es with
  | nil => rfl
  | cons e es ih =>
      obtain ⟨k, w⟩ := e
      rw [show names ((k, w) :: es) = k :: names es from rfl, List.mem_cons, not_or] at h
      rw [insert, if_neg (Ne.symm h.1), ih h.2]
      rfl

/-- One new name after another. -/
theorem nodup_names_snoc {more : List String} (h : (names es ++ name :: more).Nodup) :
    name ∉ names es ∧ (names (es ++ [(name, v)]) ++ more).Nodup := by
  constructor
  · intro hin
    exact (List.nodup_append.mp h).2.2 name hin name List.mem_cons_self rfl
  · rw [names, List.map_append, List.append_assoc]
    exact h

/-- Every entry of a list made from pairs is one of the pairs. -/
theorem mem_of_mem_ofList {pairs : List (String × α)} {e : String × α} (h : e ∈ ofList pairs) :
    e ∈ pairs := by
  have hfold : ∀ es : Entries α, e ∈ pairs.foldl (fun es e => insert e.1 e.2 es) es →
      e ∈ es ∨ e ∈ pairs := by
    clear h
    intro es h
    induction pairs generalizing es with
    | nil => exact .inl h
    | cons pair pairs ih =>
        rcases ih (insert pair.1 pair.2 es) h with h | h
        · rcases eq_or_mem_of_mem_insert h with rfl | h
          · exact .inr List.mem_cons_self
          · exact .inl h
        · exact .inr (List.mem_cons_of_mem _ h)
  rcases hfold [] h with h | h
  · cases h
  · exact h

/-- Pairs that repeat no name stay as they are. -/
theorem ofList_of_nodup {pairs : List (String × α)} (h : (names pairs).Nodup) :
    ofList pairs = pairs := by
  have hfold : ∀ es : Entries α, (names es ++ names pairs).Nodup →
      pairs.foldl (fun es e => insert e.1 e.2 es) es = es ++ pairs := by
    clear h
    intro es h
    induction pairs generalizing es with
    | nil => exact (List.append_nil es).symm
    | cons pair pairs ih =>
        obtain ⟨name, v⟩ := pair
        obtain ⟨hnew, hnames⟩ := nodup_names_snoc (v := v) h
        show pairs.foldl _ (insert name v es) = _
        rw [insert_of_not_mem hnew, ih _ hnames, List.append_assoc]
        rfl
  exact hfold [] h

theorem get?_foldl_insert_of_not_mem {β : Type} (f : α → β) {pairs : Entries α}
    (es : Entries β) (h : name ∉ names pairs) :
    get? (pairs.foldl (fun es (k, v) => insert k (f v) es) es) name = get? es name := by
  induction pairs generalizing es with
  | nil => rfl
  | cons pair pairs ih =>
      obtain ⟨k, v⟩ := pair
      have hk : name ∉ k :: names pairs := h
      rw [List.mem_cons, not_or] at hk
      rw [List.foldl_cons, ih _ hk.2, get?_insert, if_neg (Ne.symm hk.1)]

/-- Inserting pairs, no two of one name, gives each name its value. -/
theorem get?_foldl_insert {β : Type} (f : α → β) {pairs : Entries α} (es : Entries β)
    (hnodup : (names pairs).Nodup) (h : (name, v) ∈ pairs) :
    get? (pairs.foldl (fun es (k, v) => insert k (f v) es) es) name = some (f v) := by
  induction pairs generalizing es with
  | nil => cases h
  | cons pair pairs ih =>
      obtain ⟨hk, hnodup⟩ := List.nodup_cons.mp hnodup
      rw [List.foldl_cons]
      rcases List.mem_cons.mp h with rfl | h
      · rw [get?_foldl_insert_of_not_mem f _ hk, get?_insert, if_pos rfl]
      · exact ih _ hnodup h

/-- Of several values that a name is given, the last one is found. -/
theorem get?_ofList_append {earlier later : Entries α} (h : name ∉ names later) :
    get? (ofList (earlier ++ (name, v) :: later)) name = some v := by
  rw [ofList, List.foldl_append, List.foldl_cons]
  refine (get?_foldl_insert_of_not_mem id _ h).trans ?_
  rw [get?_insert, if_pos rfl]

/-! ## Leaving a name out -/

theorem erase_sublist (es : Entries α) (name : String) : (erase name es).Sublist es := by
  induction es with
  | nil => exact .slnil
  | cons e es ih =>
      obtain ⟨k, w⟩ := e
      rw [erase]
      split
      · exact List.sublist_cons_self _ _
      · exact ih.cons_cons _

theorem nodup_names_erase (h : (names es).Nodup) : (names (erase name es)).Nodup :=
  h.sublist ((erase_sublist es name).map Prod.fst)

/-- Where names do not repeat, a name that was left out is gone. -/
theorem not_mem_names_erase (h : (names es).Nodup) : name ∉ names (erase name es) := by
  induction es with
  | nil => exact List.not_mem_nil
  | cons e es ih =>
      obtain ⟨k, w⟩ := e
      obtain ⟨hk, h⟩ := List.nodup_cons.mp h
      rw [erase]
      split
      · next hname =>
        rw [← hname]
        exact hk
      · next hname =>
        show name ∉ k :: names (erase name es)
        rw [List.mem_cons, not_or]
        exact ⟨Ne.symm hname, ih h⟩

/-- Where names do not repeat, the names that are left are among the others. -/
theorem names_erase_subset {others : List String} (h : (names es).Nodup)
    (hsub : names es ⊆ name :: others) : names (erase name es) ⊆ others := by
  intro k hk
  rcases List.mem_cons.mp (hsub (((erase_sublist es name).map Prod.fst).subset hk)) with rfl | hk'
  · exact absurd hk (not_mem_names_erase h)
  · exact hk'

theorem get?_erase_self (h : (names es).Nodup) : get? (erase name es) name = none :=
  get?_eq_none (not_mem_names_erase h)

/-- Leaving a name out does not touch the others. -/
theorem get?_erase_of_ne {k : String} (h : k ≠ name) : get? (erase name es) k = get? es k := by
  induction es with
  | nil => rfl
  | cons e es ih =>
      obtain ⟨k', w⟩ := e
      rw [erase]
      split
      · next hk' =>
        rw [get?, if_neg]
        rw [hk']
        exact Ne.symm h
      · rw [get?, get?, ih]

/-- Where names do not repeat, the entries of all other names are left. -/
theorem erase_eq_filter (h : (names es).Nodup) : erase name es = es.filter fun e => e.1 ≠ name := by
  induction es with
  | nil => rfl
  | cons e es ih =>
      obtain ⟨k, w⟩ := e
      obtain ⟨hk, hnodup⟩ := List.nodup_cons.mp h
      rw [erase]
      split
      · next hname =>
        subst hname
        rw [List.filter_cons_of_neg (by simp)]
        refine (List.filter_eq_self.mpr fun e he => ?_).symm
        have hne : e.1 ≠ k := by
          intro heq
          have hin : e.1 ∈ names es := mem_names_of_mem he
          exact hk (heq ▸ hin)
        simpa using hne
      · next hname => rw [List.filter_cons_of_pos (by simpa using hname), ih hnodup]

/-- An entry and what is left without its name. -/
theorem perm_cons_erase (hnodup : (names es).Nodup) (h : (name, v) ∈ es) :
    es.Perm ((name, v) :: erase name es) := by
  induction es with
  | nil => cases h
  | cons e es ih =>
      obtain ⟨k, w⟩ := e
      obtain ⟨hk, hnodup⟩ := List.nodup_cons.mp hnodup
      rw [erase]
      rcases List.mem_cons.mp h with heq | h
      · cases heq
        rw [if_pos rfl]
      · have hin : name ∈ names es := mem_names_of_mem h
        have hne : k ≠ name := by
          rintro rfl
          exact hk hin
        rw [if_neg hne]
        exact ((ih hnodup h).cons _).trans (.swap _ _ _)

end Entries

end RowConfig
