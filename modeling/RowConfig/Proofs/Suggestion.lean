import RowConfig.Suggestion

/-!
# Edit distance and the nearest name

The table of distances is filled row by row, while the distance is defined by recursion on both
texts (`leastEdits`). What ties them together is that a row holds the distances from one text to all
beginnings of the other (`foldl_nextRow`). The recursion counts the edits of a shortest script
(`edits_leastEdits`, `leastEdits_le`), and scripts can be read from either end, turned around and
put one after the other: this gives the recursion at the end of a text that the table uses, and the
laws of a distance. The search for the nearest name keeps the first of the best candidates seen
(`Remembers`), so it finds the first of the best of all (`nearest?_exact`).
-/

namespace RowConfig.Suggestion

open Chars

/-! ## Scripts -/

/-- `n` edits are enough to turn one text into the other, going from left to right. -/
inductive Edits : Nat → List Char → List Char → Prop where
  | done (n : Nat) : Edits n [] []
  | keep {n : Nat} {as bs : List Char} (c : Char) (h : Edits n as bs) : Edits n (c :: as) (c :: bs)
  | substitute {n : Nat} {as bs : List Char} (a b : Char) (h : Edits n as bs) :
    Edits (n + 1) (a :: as) (b :: bs)
  | delete {n : Nat} {as bs : List Char} (a : Char) (h : Edits n as bs) : Edits (n + 1) (a :: as) bs
  | insert {n : Nat} {as bs : List Char} (b : Char) (h : Edits n as bs) : Edits (n + 1) as (b :: bs)

variable {m n : Nat} {b : Char} {as bs cs ds : List Char}

namespace Edits

theorem refl (as : List Char) : Edits 0 as as := by
  induction as with
  | nil => exact .done 0
  | cons a as ih => exact .keep a ih

theorem insertAll (bs : List Char) : Edits bs.length [] bs := by
  induction bs with
  | nil => exact .done 0
  | cons b bs ih => exact .insert b ih

theorem mono (h : Edits m as bs) (k : Nat) : Edits (m + k) as bs := by
  induction h with
  | done n => exact .done (n + k)
  | keep c _ ih => exact .keep c ih
  | substitute a b _ ih =>
      rw [Nat.add_right_comm]
      exact .substitute a b ih
  | delete a _ ih =>
      rw [Nat.add_right_comm]
      exact .delete a ih
  | insert b _ ih =>
      rw [Nat.add_right_comm]
      exact .insert b ih

theorem symm (h : Edits n as bs) : Edits n bs as := by
  induction h with
  | done n => exact .done n
  | keep c _ ih => exact .keep c ih
  | substitute a b _ ih => exact .substitute b a ih
  | delete a _ ih => exact .insert a ih
  | insert b _ ih => exact .delete b ih

theorem eq_of_zero (h : Edits 0 as bs) : as = bs := by
  generalize hn : 0 = n at h
  induction h with
  | done => rfl
  | keep c _ ih => rw [ih hn]
  | substitute | delete | insert => cases hn

theorem append (h : Edits m as bs) (h' : Edits n cs ds) : Edits (m + n) (as ++ cs) (bs ++ ds) := by
  induction h with
  | done m =>
      rw [Nat.add_comm]
      exact h'.mono m
  | keep c _ ih => exact .keep c ih
  | substitute a b _ ih =>
      rw [Nat.add_right_comm]
      exact .substitute a b ih
  | delete a _ ih =>
      rw [Nat.add_right_comm]
      exact .delete a ih
  | insert b _ ih =>
      rw [Nat.add_right_comm]
      exact .insert b ih

/-- A script can be read from right to left. -/
theorem reverse (h : Edits n as bs) : Edits n as.reverse bs.reverse := by
  induction h with
  | done n => exact .done n
  | keep c _ ih =>
      rw [List.reverse_cons, List.reverse_cons]
      exact ih.append (refl [c])
  | substitute a b _ ih =>
      rw [List.reverse_cons, List.reverse_cons]
      exact ih.append (.substitute a b (.done 0))
  | @delete n as bs a _ ih =>
      rw [List.reverse_cons, ← List.append_nil bs.reverse]
      exact ih.append (.delete a (.done 0))
  | @insert n as bs b _ ih =>
      rw [List.reverse_cons, ← List.append_nil as.reverse]
      exact ih.append (.insert b (.done 0))

/-- What a script does to the first character of a text: it inserts some characters before it, and
then keeps it, substitutes it or deletes it. -/
theorem cons_rec {P : Nat → List Char → Prop} (h : Edits n (b :: bs) cs)
    (keep : ∀ {k cs}, Edits k bs cs → P k (b :: cs))
    (substitute : ∀ {k cs} c, Edits k bs cs → P (k + 1) (c :: cs))
    (delete : ∀ {k cs}, Edits k bs cs → P (k + 1) cs)
    (insert : ∀ {k cs} c, P k cs → P (k + 1) (c :: cs)) : P n cs := by
  generalize hb : b :: bs = text at h
  induction h with
  | done => cases hb
  | keep c h =>
      cases hb
      exact keep h
  | substitute a c h =>
      cases hb
      exact substitute c h
  | delete a h =>
      cases hb
      exact delete h
  | insert c _ ih => exact insert c (ih hb)

/-- Two scripts one after the other make one. -/
theorem trans (h : Edits m as bs) (h' : Edits n bs cs) : Edits (m + n) as cs := by
  -- the induction is on the first script; for each character that it leaves in the text, the second
  -- one is asked what it does there
  induction h generalizing n cs with
  | done m =>
      rw [Nat.add_comm]
      exact h'.mono m
  | @keep m as bs a h ih =>
      refine h'.cons_rec (P := fun n cs => Edits (m + n) (a :: as) cs) ?_ ?_ ?_ ?_
      · exact fun h' => .keep a (ih h')
      · exact fun c h' => .substitute a c (ih h')
      · exact fun h' => .delete a (ih h')
      · exact fun c h' => .insert c h'
  | @substitute m as bs a b h ih =>
      rw [Nat.add_right_comm]
      refine h'.cons_rec (P := fun n cs => Edits (m + n + 1) (a :: as) cs) ?_ ?_ ?_ ?_
      · exact fun h' => .substitute a b (ih h')
      · exact fun c h' => (substitute a c (ih h')).mono 1
      · exact fun h' => (delete a (ih h')).mono 1
      · exact fun c h' => .insert c h'
  | delete a h ih =>
      rw [Nat.add_right_comm]
      exact .delete a (ih h')
  | @insert m as bs b h ih =>
      rw [Nat.add_right_comm]
      refine h'.cons_rec (P := fun n cs => Edits (m + n + 1) as cs) ?_ ?_ ?_ ?_
      · exact fun h' => .insert b (ih h')
      · exact fun c h' => (insert c (ih h')).mono 1
      · exact fun h' => (ih h').mono 2
      · exact fun c h' => .insert c h'

end Edits

/-! ## The distance by recursion -/

/-- The distance by recursion: where one text is empty it is the length of the other, else it is the
least that is reached by deleting, by inserting and by substituting the first character. -/
def leastEdits : List Char → List Char → Nat
  | [], bs => bs.length
  | a :: as, [] => (a :: as).length
  | a :: as, b :: bs =>
    min (min (leastEdits as (b :: bs) + 1) (leastEdits (a :: as) bs + 1))
      (leastEdits as bs + if a = b then 0 else 1)
termination_by as bs => as.length + bs.length

theorem leastEdits_nil (as : List Char) : leastEdits as [] = as.length := by
  cases as <;> rw [leastEdits]

theorem leastEdits_cons_cons (a b : Char) (as bs : List Char) : leastEdits (a :: as) (b :: bs) =
    min (min (leastEdits as (b :: bs) + 1) (leastEdits (a :: as) bs + 1))
      (leastEdits as bs + if a = b then 0 else 1) := by
  rw [leastEdits]

/-- The recursion follows a script. -/
theorem edits_leastEdits (as bs : List Char) : Edits (leastEdits as bs) as bs := by
  induction as, bs using leastEdits.induct with
  | case1 bs =>
      rw [leastEdits]
      exact .insertAll bs
  | case2 a as =>
      rw [leastEdits]
      exact (Edits.insertAll _).symm
  | case3 a as b bs hdelete hinsert hsubstitute =>
      rw [leastEdits_cons_cons]
      generalize leastEdits as (b :: bs) = x at hdelete ⊢
      generalize leastEdits (a :: as) bs = y at hinsert ⊢
      generalize leastEdits as bs = z at hsubstitute ⊢
      rcases Nat.le_total (min (x + 1) (y + 1)) (z + if a = b then 0 else 1) with h | h
      · rw [Nat.min_eq_left h]
        rcases Nat.le_total (x + 1) (y + 1) with h | h
        · rw [Nat.min_eq_left h]
          exact .delete a hdelete
        · rw [Nat.min_eq_right h]
          exact .insert b hinsert
      · rw [Nat.min_eq_right h]
        split
        · next hab =>
          rw [hab]
          exact .keep b hsubstitute
        · exact .substitute a b hsubstitute

/-- No script needs fewer edits. -/
theorem leastEdits_le (h : Edits n as bs) : leastEdits as bs ≤ n := by
  induction h with
  | done => rw [leastEdits]; exact Nat.zero_le _
  | keep c _ ih =>
      rw [leastEdits_cons_cons, if_pos rfl]
      omega
  | substitute a b _ ih =>
      rw [leastEdits_cons_cons]
      split <;> omega
  | @delete n as bs a _ ih =>
      cases bs with
      | nil =>
          rw [leastEdits_nil] at ih ⊢
          exact Nat.succ_le_succ ih
      | cons b bs =>
          rw [leastEdits_cons_cons]
          omega
  | @insert n as bs b _ ih =>
      cases as with
      | nil =>
          rw [leastEdits] at ih ⊢
          exact Nat.succ_le_succ ih
      | cons a as =>
          rw [leastEdits_cons_cons]
          omega

theorem leastEdits_comm (as bs : List Char) : leastEdits as bs = leastEdits bs as :=
  Nat.le_antisymm (leastEdits_le (edits_leastEdits bs as).symm)
    (leastEdits_le (edits_leastEdits as bs).symm)

theorem leastEdits_eq_zero_iff : leastEdits as bs = 0 ↔ as = bs := by
  constructor
  · intro h
    have hscript := edits_leastEdits as bs
    rw [h] at hscript
    exact hscript.eq_of_zero
  · rintro rfl
    exact Nat.le_zero.mp (leastEdits_le (.refl as))

theorem leastEdits_triangle (as bs cs : List Char) :
    leastEdits as cs ≤ leastEdits as bs + leastEdits bs cs :=
  leastEdits_le ((edits_leastEdits as bs).trans (edits_leastEdits bs cs))

theorem leastEdits_reverse (as bs : List Char) :
    leastEdits as.reverse bs.reverse = leastEdits as bs := by
  apply Nat.le_antisymm (leastEdits_le (edits_leastEdits as bs).reverse)
  have hscript := (edits_leastEdits as.reverse bs.reverse).reverse
  rw [List.reverse_reverse, List.reverse_reverse] at hscript
  exact leastEdits_le hscript

/-- The recursion at the ends of the texts. -/
theorem leastEdits_concat (a b : Char) (as bs : List Char) :
    leastEdits (as ++ [a]) (bs ++ [b]) =
      min (min (leastEdits as (bs ++ [b]) + 1) (leastEdits (as ++ [a]) bs + 1))
        (leastEdits as bs + if a = b then 0 else 1) := by
  rw [← leastEdits_reverse (as ++ [a]) (bs ++ [b]), ← leastEdits_reverse as (bs ++ [b]),
    ← leastEdits_reverse (as ++ [a]) bs, ← leastEdits_reverse as bs]
  simp only [List.reverse_append, List.reverse_singleton, List.singleton_append]
  exact leastEdits_cons_cons a b as.reverse bs.reverse

/-! ## The table -/

/-- The distances from `as` to `front` and to what the characters of `bs` extend it to, one by
one. -/
def distances (as front : List Char) : List Char → List Nat
  | [] => [leastEdits as front]
  | b :: bs => leastEdits as front :: distances as (front ++ [b]) bs

theorem distances_eq_cons (as front bs : List Char) :
    distances as front bs = leastEdits as front :: (distances as front bs).tail := by
  cases bs <;> rfl

/-- The rest of a row is computed from the row before it and the distance on the left. -/
theorem extendRow_distances (a : Char) (as front bs : List Char) :
    extendRow a (leastEdits (as ++ [a]) front) bs (distances as front bs) =
      (distances (as ++ [a]) front bs).tail := by
  induction bs generalizing front with
  | nil => rfl
  | cons b bs ih =>
      have hrow := distances_eq_cons as (front ++ [b]) bs
      rw [distances, hrow, extendRow, ← leastEdits_concat, ← hrow, ih]
      exact (distances_eq_cons _ _ _).symm

/-- A row is computed from the row before it. -/
theorem nextRow_distances (a : Char) (as bs : List Char) :
    nextRow bs (distances as [] bs) a = distances (as ++ [a]) [] bs := by
  have hfirst : (distances as [] bs).headD 0 + 1 = leastEdits (as ++ [a]) [] := by
    rw [distances_eq_cons, List.headD_cons, leastEdits_nil, leastEdits_nil, List.length_append]
    rfl
  rw [nextRow, hfirst, extendRow_distances]
  exact (distances_eq_cons _ _ _).symm

theorem foldl_nextRow (as front bs : List Char) :
    as.foldl (nextRow bs) (distances front [] bs) = distances (front ++ as) [] bs := by
  induction as generalizing front with
  | nil => rw [List.append_nil]; rfl
  | cons a as ih => rw [List.foldl_cons, nextRow_distances, ih, List.append_assoc]; rfl

/-- The distances from the empty text are the lengths. -/
theorem distances_nil (front bs : List Char) :
    distances [] front bs = List.range' front.length (bs.length + 1) := by
  induction bs generalizing front with
  | nil => rw [distances, leastEdits]; rfl
  | cons b bs ih =>
      rw [distances, leastEdits, ih, List.length_append, List.length_cons, List.range'_succ]
      rfl

theorem getLastD_distances (as front bs : List Char) :
    (distances as front bs).getLastD 0 = leastEdits as (front ++ bs) := by
  induction bs generalizing front with
  | nil => rw [List.append_nil]; rfl
  | cons b bs ih =>
      have hlast := ih (front ++ [b])
      rw [List.append_assoc, List.singleton_append] at hlast
      rw [distances, ← hlast, distances_eq_cons as (front ++ [b]) bs]
      rfl

/-- The table computes the distance. -/
theorem editDistance_eq (as bs : List Char) : editDistance as bs = leastEdits as bs := by
  have hrange : List.range (bs.length + 1) = distances [] [] bs := by
    rw [distances_nil, List.range_eq_range']
    rfl
  rw [editDistance, hrange, foldl_nextRow, List.nil_append, getLastD_distances, List.nil_append]

/-! ## The nearest name -/

/-- The name is the first of the candidates at the least distance, and that is within the limit. -/
structure IsNearest (d : String → Nat) (limit : Nat) (candidates : List String) (found : String) :
    Prop where
  within : d found ≤ limit
  first : ∃ before after, candidates = before ++ found :: after ∧
    (∀ c ∈ before, d found < d c) ∧ ∀ c ∈ after, d found ≤ d c

/-- The candidate that the search remembers when it has seen another one. -/
def nearer (d : String → Nat) (limit : Nat) (best : Option (Nat × String)) (candidate : String) :
    Option (Nat × String) :=
  match best with
  | some (b, _) => if d candidate < b then some (d candidate, candidate) else best
  | none => if d candidate ≤ limit then some (d candidate, candidate) else none

/-- What the search remembers of the candidates seen. -/
inductive Remembers (d : String → Nat) (limit : Nat) (seen : List String) :
    Option (Nat × String) → Prop where
  | nothing (h : ∀ c ∈ seen, limit < d c) : Remembers d limit seen none
  | nearest {found : String} (h : IsNearest d limit seen found) :
    Remembers d limit seen (some (d found, found))

variable {d : String → Nat} {limit : Nat} {seen : List String} {best : Option (Nat × String)}
  {found found' : String}

namespace IsNearest

theorem mem (h : IsNearest d limit seen found) : found ∈ seen := by
  obtain ⟨before, after, rfl, -, -⟩ := h.first
  exact List.mem_append_right _ List.mem_cons_self

theorem le (h : IsNearest d limit seen found) {c : String} (hc : c ∈ seen) : d found ≤ d c := by
  obtain ⟨before, after, rfl, hbefore, hafter⟩ := h.first
  rcases List.mem_append.mp hc with hc | hc
  · exact Nat.le_of_lt (hbefore c hc)
  · rcases List.mem_cons.mp hc with rfl | hc
    · exact Nat.le_refl _
    · exact hafter c hc

/-- A candidate that is not nearer changes nothing. -/
theorem concat (h : IsNearest d limit seen found) {c : String} (hc : d found ≤ d c) :
    IsNearest d limit (seen ++ [c]) found := by
  obtain ⟨before, after, rfl, hbefore, hafter⟩ := h.first
  refine ⟨h.within, before, after ++ [c], List.append_assoc _ _ _, hbefore, fun x hx => ?_⟩
  rcases List.mem_append.mp hx with hx | hx
  · exact hafter x hx
  · rwa [List.mem_singleton.mp hx]

/-- A candidate that is nearer than all before it takes the place. -/
theorem of_lt (hwithin : d found ≤ limit) (h : ∀ c ∈ seen, d found < d c) :
    IsNearest d limit (seen ++ [found]) found :=
  ⟨hwithin, seen, [], rfl, h, List.forall_mem_nil _⟩

/-- The nearest name is the first that is as near. -/
theorem find?_eq (h : IsNearest d limit seen found) :
    seen.find? (fun c => d c ≤ d found) = some found := by
  obtain ⟨before, after, hseen, hbefore, -⟩ := h.first
  rw [List.find?_eq_some_iff_append]
  refine ⟨decide_eq_true (Nat.le_refl _), before, after, hseen, fun c hc => ?_⟩
  rw [Bool.not_eq_true', decide_eq_false_iff_not, Nat.not_le]
  exact hbefore c hc

theorem unique (h : IsNearest d limit seen found) (h' : IsNearest d limit seen found') :
    found = found' := by
  have hdistance : d found = d found' := Nat.le_antisymm (h.le h'.mem) (h'.le h.mem)
  have hfirst := h.find?_eq
  rw [hdistance, h'.find?_eq] at hfirst
  exact (Option.some.inj hfirst).symm

end IsNearest

namespace Remembers

/-- One more candidate. -/
theorem step (h : Remembers d limit seen best) (c : String) :
    Remembers d limit (seen ++ [c]) (nearer d limit best c) := by
  cases h with
  | nothing h =>
      unfold nearer
      simp only
      split
      · next hc => exact .nearest (.of_lt hc fun x hx => Nat.lt_of_le_of_lt hc (h x hx))
      · next hc =>
        refine .nothing fun x hx => ?_
        rcases List.mem_append.mp hx with hx | hx
        · exact h x hx
        · rw [List.mem_singleton.mp hx]
          exact Nat.lt_of_not_le hc
  | nearest h =>
      unfold nearer
      simp only
      split
      · next hc =>
        refine .nearest (.of_lt ?_ fun x hx => Nat.lt_of_lt_of_le hc (h.le hx))
        exact Nat.le_trans (Nat.le_of_lt hc) h.within
      · next hc => exact .nearest (h.concat (Nat.le_of_not_lt hc))

theorem foldl (h : Remembers d limit seen best) (candidates : List String) :
    Remembers d limit (seen ++ candidates) (candidates.foldl (nearer d limit) best) := by
  induction candidates generalizing seen best with
  | nil => rwa [List.append_nil]
  | cons c candidates ih =>
      have hmore := ih (h.step c)
      rwa [List.append_assoc] at hmore

theorem eq_none_iff (h : Remembers d limit seen best) :
    best.map Prod.snd = none ↔ ∀ c ∈ seen, limit < d c := by
  cases h with
  | nothing h => exact ⟨fun _ => h, fun _ => rfl⟩
  | nearest h =>
      constructor
      · intro hnone
        cases hnone
      · exact fun hfar => absurd h.within (Nat.not_le.mpr (hfar _ h.mem))

theorem eq_some_iff (h : Remembers d limit seen best) :
    best.map Prod.snd = some found ↔ IsNearest d limit seen found := by
  cases h with
  | nothing h =>
      constructor
      · intro hsome
        cases hsome
      · exact fun hnearest => absurd hnearest.within (Nat.not_le.mpr (h _ hnearest.mem))
  | nearest h =>
      constructor
      · intro hsome
        cases hsome
        exact h
      · exact fun hnearest => congrArg some (h.unique hnearest)

end Remembers

theorem distance_eq (a b : String) :
    distance a b = leastEdits (lowercase a.toList) (lowercase b.toList) := editDistance_eq _ _

/-- The table computes the distance that the recursion defines, and this is a distance: it is the
same in both directions, zero exactly for equal texts, and no way over a third text is shorter. A
name is suggested exactly if some candidate, letter case apart, is within the limit, and it is then
the first of those at the least distance. -/
theorem nearest?_exact :
    (∀ as bs, editDistance as bs = leastEdits as bs) ∧
    (∀ as bs, editDistance as bs = editDistance bs as) ∧
    (∀ as bs, editDistance as bs = 0 ↔ as = bs) ∧
    (∀ as bs cs, editDistance as cs ≤ editDistance as bs + editDistance bs cs) ∧
    ∀ (name : String) (candidates : List String) (limit : Nat),
      (nearest? name candidates limit = none ↔
        ∀ c ∈ candidates, limit < leastEdits (lowercase name.toList) (lowercase c.toList)) ∧
      ∀ found, nearest? name candidates limit = some found ↔
        IsNearest (fun c => leastEdits (lowercase name.toList) (lowercase c.toList)) limit
          candidates found := by
  refine ⟨editDistance_eq, ?_⟩
  simp only [editDistance_eq]
  refine ⟨leastEdits_comm, fun _ _ => leastEdits_eq_zero_iff, leastEdits_triangle,
    fun name candidates limit => ?_⟩
  have hstart : Remembers (distance name) limit [] none := .nothing (List.forall_mem_nil _)
  have hseen := hstart.foldl candidates
  have hdistance : distance name =
      fun c => leastEdits (lowercase name.toList) (lowercase c.toList) := funext (distance_eq name)
  rw [← hdistance]
  simp only [← distance_eq]
  exact ⟨hseen.eq_none_iff, fun found => hseen.eq_some_iff⟩

theorem nearest?_exact_port :
    nearest? "PROT" ["host", "Port", "pr"] 2 = some "Port" ∧
      IsNearest (fun c => leastEdits (lowercase "PROT".toList) (lowercase c.toList)) 2
        ["host", "Port", "pr"] "Port" := by
  have hfound : nearest? "PROT" ["host", "Port", "pr"] 2 = some "Port" := by decide +kernel
  obtain ⟨-, -, -, -, hnearest⟩ := nearest?_exact
  exact ⟨hfound, ((hnearest _ _ _).2 "Port").mp hfound⟩

end RowConfig.Suggestion
