import Mathlib.Data.List.Forall2
import RowConfig.Entries

/-!
# Entry by entry

The passes over a document change one value after another and stop at the first failure. Read from
outside, such a pass relates its input to its output position by position: `List.Forall₂` says so
for lists, `Entries.Pointwise` for entries, whose names stay. The lemmas below turn a pass that
succeeded into that relation and look values up through it.
-/

namespace RowConfig

variable {α β ε : Type}

/-- A mapped result is a success exactly when the result is one. -/
theorem map_eq_ok_iff {x : Except ε α} {f : α → β} {b : β} :
    x.map f = .ok b ↔ ∃ a, x = .ok a ∧ f a = b := by
  cases x with
  | error e => simp [Except.map]
  | ok a => simp [Except.map]

theorem map_eq_error_iff {x : Except ε α} {f : α → β} {e : ε} :
    x.map f = .error e ↔ x = .error e := by
  cases x <;> simp [Except.map]

theorem bind_eq_ok_iff {x : Except ε α} {f : α → Except ε β} {b : β} :
    x.bind f = .ok b ↔ ∃ a, x = .ok a ∧ f a = .ok b := by
  cases x with
  | error e => simp [Except.bind]
  | ok a => simp [Except.bind]

/-- Every element on the right of a pointwise relation has a partner on the left. -/
theorem exists_mem_left {R : α → β → Prop} {as : List α} {bs : List β}
    (h : List.Forall₂ R as bs) {b : β} (hb : b ∈ bs) : ∃ a ∈ as, R a b := by
  induction h with
  | nil => cases hb
  | cons hab _ ih =>
      rcases List.mem_cons.mp hb with rfl | hb
      · exact ⟨_, List.mem_cons_self, hab⟩
      · obtain ⟨a, ha, hR⟩ := ih hb
        exact ⟨a, List.mem_cons_of_mem _ ha, hR⟩

/-- Every element on the left has a partner on the right. -/
theorem exists_mem_right {R : α → β → Prop} {as : List α} {bs : List β}
    (h : List.Forall₂ R as bs) {a : α} (ha : a ∈ as) : ∃ b ∈ bs, R a b :=
  exists_mem_left h.flip ha

/-- Every element on the left has its partner at the same position. -/
theorem exists_getElem?_right {R : α → β → Prop} {as : List α} {bs : List β}
    (h : List.Forall₂ R as bs) {i : Nat} {a : α} (ha : as[i]? = some a) :
    ∃ b, bs[i]? = some b ∧ R a b := by
  induction h generalizing i with
  | nil => simp at ha
  | @cons a' b' _ _ hab _ ih =>
      cases i with
      | zero =>
          obtain rfl : a' = a := by simpa using ha
          exact ⟨b', rfl, hab⟩
      | succ i => exact ih (by simpa using ha)

/-- If every element has a partner, a list of partners exists, and conversely. -/
theorem exists_forall₂_iff {R : α → β → Prop} {as : List α} :
    (∃ bs, List.Forall₂ R as bs) ↔ ∀ a ∈ as, ∃ b, R a b := by
  induction as with
  | nil => simp only [List.forall₂_nil_left_iff, exists_eq, List.not_mem_nil, false_implies,
      implies_true]
  | cons a as ih =>
      constructor
      · rintro ⟨_, h⟩
        cases h with
        | cons hab hs =>
            intro a' ha'
            rcases List.mem_cons.mp ha' with rfl | ha'
            · exact ⟨_, hab⟩
            · exact ih.mp ⟨_, hs⟩ a' ha'
      · intro h
        obtain ⟨b, hab⟩ := h a List.mem_cons_self
        obtain ⟨bs, hs⟩ := ih.mpr fun a' ha' => h a' (List.mem_cons_of_mem _ ha')
        exact ⟨b :: bs, .cons hab hs⟩

/-- A pointwise relation may be weakened at the elements of the list. -/
theorem forall₂_imp_of_mem {R S : α → β → Prop} {as : List α} {bs : List β}
    (himp : ∀ a ∈ as, ∀ b, R a b → S a b) (h : List.Forall₂ R as bs) : List.Forall₂ S as bs := by
  induction h with
  | nil => exact .nil
  | cons hab _ ih =>
      exact .cons (himp _ List.mem_cons_self _ hab)
        (ih fun a ha => himp a (List.mem_cons_of_mem _ ha))

/-- Functions that agree on related elements map related lists to the same list. -/
theorem map_eq_map_of_forall₂ {γ : Type} {R : α → β → Prop} {as : List α} {bs : List β}
    {f : α → γ} {g : β → γ} (h : List.Forall₂ R as bs)
    (heq : ∀ a ∈ as, ∀ b, R a b → f a = g b) : as.map f = bs.map g := by
  induction h with
  | nil => rfl
  | cons hab _ ih =>
      rw [List.map_cons, List.map_cons, heq _ List.mem_cons_self _ hab,
        ih fun a ha => heq a (List.mem_cons_of_mem _ ha)]

/-- A pass over a list, made of its step `f`: the first failure ends it. If it succeeds, it relates
the lists pointwise, and conversely. -/
theorem pass_eq_ok_iff (f : α → Except ε β) (pass : List α → Except ε (List β))
    (hnil : pass [] = .ok [])
    (hcons : ∀ a as, pass (a :: as) = (f a).bind fun b => (pass as).map (b :: ·))
    {as : List α} {bs : List β} :
    pass as = .ok bs ↔ List.Forall₂ (fun a b => f a = .ok b) as bs := by
  induction as generalizing bs with
  | nil => rw [hnil]; cases bs <;> simp
  | cons a as ih =>
      rw [hcons, List.forall₂_cons_left_iff]
      cases ha : f a with
      | error e => simp [Except.bind]
      | ok b =>
          simp only [Except.bind, map_eq_ok_iff, ih, Except.ok.injEq]
          constructor
          · rintro ⟨bs', hs, rfl⟩
            exact ⟨b, bs', rfl, hs, rfl⟩
          · rintro ⟨_, bs', rfl, hs, rfl⟩
            exact ⟨bs', hs, rfl⟩

/-- Relations of one list to a second and of that to a third relate the first to the third. -/
theorem forall₂_comp {γ : Type} {R : α → β → Prop} {S : β → γ → Prop} {T : α → γ → Prop}
    {as : List α} {bs : List β} {cs : List γ} (h : List.Forall₂ R as bs) (h' : List.Forall₂ S bs cs)
    (hcomp : ∀ a b c, R a b → S b c → T a c) : List.Forall₂ T as cs := by
  induction h generalizing cs with
  | nil =>
      cases h'
      exact .nil
  | cons hab _ ih =>
      cases h' with
      | cons hbc hmore => exact .cons (hcomp _ _ _ hab hbc) (ih hmore)

namespace Entries

/-- The same names in the same order, with related values. -/
def Pointwise (R : α → β → Prop) (es : Entries α) (fs : Entries β) : Prop :=
  List.Forall₂ (fun e f => e.1 = f.1 ∧ R e.2 f.2) es fs

theorem pointwise_mapValues (f : α → β) (es : Entries α) :
    Pointwise (fun v w => f v = w) es (mapValues f es) := by
  rw [Pointwise, mapValues, List.forall₂_map_right_iff]
  exact List.forall₂_same.mpr fun _ _ => ⟨rfl, rfl⟩

theorem get?_mapValues (f : α → β) (es : Entries α) (name : String) :
    get? (mapValues f es) name = (get? es name).map f := by
  induction es with
  | nil => rfl
  | cons e es ih =>
      obtain ⟨k, v⟩ := e
      by_cases hk : k = name
      · simp [mapValues, get?, hk]
      · simpa [mapValues, get?, hk] using ih

theorem tryMapValues_mapValues {γ : Type} (f : β → Except ε γ) (g : α → β) (es : Entries α) :
    tryMapValues f (mapValues g es) = tryMapValues (fun v => f (g v)) es := by
  induction es with
  | nil => rfl
  | cons e es ih =>
      show tryMapValues f ((e.1, g e.2) :: mapValues g es) = _
      rw [tryMapValues, ih, tryMapValues]

theorem tryMapValues_cons (f : α → Except ε β) (name : String) (v : α) (es : Entries α) :
    tryMapValues f ((name, v) :: es) =
      (f v).bind fun w => (tryMapValues f es).map ((name, w) :: ·) := by
  rw [tryMapValues]
  cases f v <;> rfl

/-- A pass over entries that succeeds relates them pointwise. -/
theorem tryMapValues_eq_ok_iff {f : α → Except ε β} {es : Entries α} {fs : Entries β} :
    tryMapValues f es = .ok fs ↔ Pointwise (fun v w => f v = .ok w) es fs := by
  induction es generalizing fs with
  | nil => cases fs <;> simp [tryMapValues, Pointwise]
  | cons e es ih =>
      obtain ⟨k, v⟩ := e
      rw [Pointwise, List.forall₂_cons_left_iff, tryMapValues]
      cases hv : f v with
      | error e => simp
      | ok w =>
          simp only [map_eq_ok_iff, ih, Pointwise]
          constructor
          · rintro ⟨fs', hs, rfl⟩
            exact ⟨(k, w), fs', ⟨rfl, rfl⟩, hs, rfl⟩
          · rintro ⟨⟨k', w'⟩, fs', ⟨rfl, hw⟩, hs, rfl⟩
            obtain rfl : w = w' := by simpa using hw
            exact ⟨fs', hs, rfl⟩

namespace Pointwise

variable {R : α → β → Prop} {es : Entries α} {fs : Entries β}

theorem names_eq (h : Pointwise R es fs) : names es = names fs := by
  induction h with
  | nil => rfl
  | cons hef _ ih => simpa [names] using ⟨hef.1, ih⟩

/-- The values are related position by position. -/
theorem values (h : Pointwise R es fs) : List.Forall₂ R (Entries.values es) (Entries.values fs) := by
  induction h with
  | nil => exact .nil
  | cons hef _ ih => exact .cons hef.2 ih

/-- The relation may be weakened at the values of the entries. -/
theorem imp_of_mem {S : α → β → Prop} (h : Pointwise R es fs)
    (himp : ∀ v ∈ Entries.values es, ∀ w, R v w → S v w) : Pointwise S es fs :=
  forall₂_imp_of_mem
    (fun e he _ hR => ⟨hR.1, himp e.2 (List.mem_map_of_mem he) _ hR.2⟩) h

/-- Functions that agree on related values map related entries to the same entries. -/
theorem mapValues_eq {γ : Type} {f : α → γ} {g : β → γ} (h : Pointwise R es fs)
    (heq : ∀ v ∈ Entries.values es, ∀ w, R v w → f v = g w) : mapValues f es = mapValues g fs :=
  map_eq_map_of_forall₂ h fun e he _ hR =>
    Prod.ext hR.1 (heq e.2 (List.mem_map_of_mem he) _ hR.2)

theorem eq {es fs : Entries α} (h : Pointwise (· = ·) es fs) : es = fs := by
  induction h with
  | nil => rfl
  | cons hef _ ih => rw [Prod.ext hef.1 hef.2, ih]

/-- Looking a name up on both sides finds related values or none. -/
theorem get?_rel (h : Pointwise R es fs) (name : String) :
    Option.Rel R (get? es name) (get? fs name) := by
  induction h with
  | nil => exact .none
  | @cons e f _ _ hef _ ih =>
      obtain ⟨k, v⟩ := e
      obtain ⟨k', w⟩ := f
      obtain ⟨rfl, hR⟩ := hef
      by_cases hk : k = name
      · simpa [get?, hk] using Option.Rel.some hR
      · simpa [get?, hk] using ih

theorem insert (h : Pointwise R es fs) (name : String) {v : α} {w : β} (hvw : R v w) :
    Pointwise R (Entries.insert name v es) (Entries.insert name w fs) := by
  induction h with
  | nil => exact .cons ⟨rfl, hvw⟩ .nil
  | @cons e f _ _ hef hmore ih =>
      obtain ⟨k, x⟩ := e
      obtain ⟨k', y⟩ := f
      obtain ⟨rfl, hR⟩ := hef
      rw [Entries.insert, Entries.insert]
      split
      · exact .cons ⟨rfl, hvw⟩ hmore
      · exact .cons ⟨rfl, hR⟩ ih

theorem erase (h : Pointwise R es fs) (name : String) :
    Pointwise R (Entries.erase name es) (Entries.erase name fs) := by
  induction h with
  | nil => exact .nil
  | @cons e f _ _ hef hmore ih =>
      obtain ⟨k, x⟩ := e
      obtain ⟨k', y⟩ := f
      obtain ⟨rfl, hR⟩ := hef
      rw [Entries.erase, Entries.erase]
      split
      · exact hmore
      · exact .cons ⟨rfl, hR⟩ ih

theorem get?_eq_some_left (h : Pointwise R es fs) {name : String} {v : α}
    (hv : get? es name = some v) : ∃ w, get? fs name = some w ∧ R v w := by
  have hrel := h.get?_rel name
  rw [hv] at hrel
  cases hw : get? fs name with
  | none => rw [hw] at hrel; cases hrel
  | some w => rw [hw] at hrel; cases hrel with | some hR => exact ⟨w, rfl, hR⟩

end Pointwise

end Entries

end RowConfig
