import RowConfig.Proofs.Linking.Exact
import RowConfig.Proofs.Settled

/-!
# Faults of linking

Linking fails with the fault of a name that is reached and finds no row, or because a name that is
reached leads back to itself (`Document.origin_of_link`). Where all names but one find a row and
none lies on a cycle, the fault is therefore that of the one (`Document.LinkedBut.link_eq_error`).
-/

namespace RowConfig

open Linking Relation

/-! ## Passes that fail -/

section Passes

variable {α β ε : Type} {e : ε}

/-- A pass over a list fails as its step does on an element. -/
theorem exists_of_pass_eq_error (f : α → Except ε β) (pass : List α → Except ε (List β))
    (hnil : pass [] = .ok [])
    (hcons : ∀ a as, pass (a :: as) = (f a).bind fun b => (pass as).map (b :: ·)) {as : List α}
    (h : pass as = .error e) : ∃ a ∈ as, f a = .error e := by
  induction as with
  | nil =>
      rw [hnil] at h
      cases h
  | cons a as ih =>
      rw [hcons] at h
      cases ha : f a with
      | error e' =>
          rw [ha] at h
          cases h
          exact ⟨a, List.mem_cons_self, ha⟩
      | ok b =>
          rw [ha] at h
          obtain ⟨a', hin, ha'⟩ := ih (map_eq_error_iff.mp h)
          exact ⟨a', List.mem_cons_of_mem _ hin, ha'⟩

theorem Entries.exists_of_tryMapValues {f : α → Except ε β} {es : Entries α}
    (h : Entries.tryMapValues f es = .error e) : ∃ entry ∈ es, f entry.2 = .error e := by
  induction es with
  | nil => cases h
  | cons entry es ih =>
      obtain ⟨name, v⟩ := entry
      rw [tryMapValues] at h
      split at h
      · next hv =>
        cases h
        exact ⟨(name, v), List.mem_cons_self, hv⟩
      · obtain ⟨entry, hentry, hv⟩ := ih (map_eq_error_iff.mp h)
        exact ⟨entry, List.mem_cons_of_mem _ hentry, hv⟩

end Passes

namespace Linking

variable {follow : RowName → Except Fault Instance} {fault : Fault}

theorem exists_of_mapRow {row : Instance} (h : mapRow follow row = .error fault) :
    ∃ v ∈ Entries.values row.fields, mapReferences follow v = .error fault := by
  obtain ⟨struct, fields, call⟩ := row
  rw [mapRow, map_eq_error_iff, mapFields_eq] at h
  obtain ⟨entry, hentry, hv⟩ := Entries.exists_of_tryMapValues h
  exact ⟨entry.2, Entries.mem_values_of_mem hentry, hv⟩

/-- A value cannot be linked because of a reference that is written in it. -/
theorem exists_reference_of_mapReferences {v : Value} (h : mapReferences follow v = .error fault) :
    ∃ struct key target, v.Holds (.reference struct key target) ∧
      follow (struct, key) = .error fault := by
  induction v using Value.contents_induction with
  | step v ih =>
      have hpart : ∀ p ∈ v.parts, mapReferences follow p = .error fault →
          ∃ struct key target, v.Holds (.reference struct key target) ∧
            follow (struct, key) = .error fault := by
        intro p hp hfault
        obtain ⟨struct, key, target, hr, hfollow⟩ := ih p (v.parts_subset_contents hp) hfault
        exact ⟨struct, key, target, .of_part hp hr, hfollow⟩
      cases v with
      | array items =>
          rw [mapReferences, map_eq_error_iff] at h
          obtain ⟨p, hp, hfault⟩ :=
            exists_of_pass_eq_error (mapReferences follow) (mapItems follow) rfl
            (fun v vs => by rw [mapItems]; cases mapReferences follow v <;> rfl) h
          exact hpart p hp hfault
      | «instance» row =>
          rw [mapReferences, map_eq_error_iff] at h
          obtain ⟨p, hp, hfault⟩ := exists_of_mapRow h
          exact hpart p hp hfault
      | reference struct key target =>
          rw [mapReferences, map_eq_error_iff] at h
          exact ⟨struct, key, target, .refl _, h⟩
      | _ => cases h

end Linking

namespace Document

variable {d : Document} {name : RowName} {trail : List RowName} {fault : Fault}

/-- A name cannot be followed because a name that it reaches finds no row or lies on a cycle, which
is reported. On the trail stand only names from which it is reached. -/
theorem origin_of_follow (htrail : ∀ a ∈ trail, TransGen d.Refers a name)
    (h : follow d trail name = .error fault) :
    ∃ n, ReflTransGen d.Refers name n ∧ (findRow d n = .error fault ∨
      TransGen d.Refers n n ∧ ∃ chain, fault = .circular chain) := by
  induction trail, name using Linking.follow.induct d with
  | case1 trail name fault' hfound =>
      rw [follow_eq, hfound] at h
      exact ⟨name, .refl, .inl (Except.error.inj h ▸ hfound)⟩
  | case2 trail name row hfound hmet =>
      rw [follow_eq, hfound] at h
      simp only [hmet, if_true, Except.error.injEq] at h
      exact ⟨name, .refl, .inr ⟨htrail name (by simpa using hmet), _, h.symm⟩⟩
  | case3 trail name row hfound hmet ih =>
      rw [follow_eq, hfound] at h
      simp only [hmet, Bool.false_eq_true, if_false] at h
      obtain ⟨v, hv, hfault⟩ := exists_of_mapRow h
      obtain ⟨struct, key, target, hr, hfollow⟩ := exists_reference_of_mapReferences hfault
      have hstep : d.Refers name (struct, key) := ⟨row, hfound, v, hv, target, hr⟩
      have htrail' : ∀ a ∈ trail ++ [name], TransGen d.Refers a (struct, key) := by
        intro a ha
        rcases List.mem_append.mp ha with ha | ha
        · exact .tail (htrail a ha) hstep
        · rw [List.mem_singleton.mp ha]
          exact .single hstep
      obtain ⟨n, hpath, hn⟩ := ih (struct, key) htrail' hfollow
      exact ⟨n, .head hstep hpath, hn⟩

/-- A document cannot be linked because of a root. -/
theorem exists_root_of_link_error (h : d.link = .error fault) :
    ∃ v ∈ d.roots, mapReferences (follow d []) v = .error fault := by
  unfold link at h
  split at h
  · next hglobals =>
    cases h
    rw [mapFields_eq] at hglobals
    obtain ⟨entry, hentry, hv⟩ := Entries.exists_of_tryMapValues hglobals
    exact ⟨entry.2, mem_roots.mpr (.inl (Entries.mem_values_of_mem hentry)), hv⟩
  · rw [map_eq_error_iff] at h
    obtain ⟨entry, hentry, hrows⟩ := Entries.exists_of_tryMapValues h
    rw [map_eq_error_iff] at hrows
    obtain ⟨row, hrow, hfault⟩ := exists_of_pass_eq_error (mapRow (follow d [])) (linkRows d) rfl
      (fun row rows => by rw [linkRows]; cases mapRow (follow d []) row <;> rfl) hrows
    obtain ⟨v, hv, hfault⟩ := exists_of_mapRow hfault
    exact ⟨v, mem_roots.mpr (.inr ⟨entry, hentry, row, hrow, hv⟩), hfault⟩

/-- Linking fails with the fault of a name that is reached and finds no row, or for a cycle. -/
theorem origin_of_link (h : d.link = .error fault) :
    ∃ n, d.Reaches n ∧ (findRow d n = .error fault ∨
      TransGen d.Refers n n ∧ ∃ chain, fault = .circular chain) := by
  obtain ⟨root, hroot, hfault⟩ := exists_root_of_link_error h
  obtain ⟨struct, key, target, hr, hfollow⟩ := exists_reference_of_mapReferences hfault
  obtain ⟨n, hpath, hn⟩ := origin_of_follow (fun a ha => by cases ha) hfollow
  exact ⟨n, ⟨(struct, key), ⟨target, root, hroot, hr⟩, hpath⟩, hn⟩

/-- No name that is reached lies on a cycle, and all but perhaps the given one find a row. -/
def LinkedBut (d : Document) (name : RowName) : Prop :=
  ∀ n, d.Reaches n → (n ≠ name → ∃ row, findRow d n = .ok row) ∧ ¬ TransGen d.Refers n n

/-- If the given name finds a row too, the document can be linked. -/
theorem LinkedBut.exists_link (h : d.LinkedBut name) (hname : ∃ row, findRow d name = .ok row) :
    ∃ e, d.link = .ok e := by
  rw [exists_link_iff]
  intro n hn
  obtain ⟨hfind, hacyclic⟩ := h n hn
  refine ⟨?_, hacyclic⟩
  by_cases heq : n = name
  · rw [heq]
    exact hname
  · exact hfind heq

/-- If the given name is reached and finds no row, linking fails with its fault. -/
theorem LinkedBut.link_eq_error (h : d.LinkedBut name) (hreaches : d.Reaches name)
    (hname : findRow d name = .error fault) : d.link = .error fault := by
  cases hlink : d.link with
  | ok e =>
      obtain ⟨⟨row, hrow⟩, -⟩ := exists_link_iff.mp ⟨e, hlink⟩ name hreaches
      rw [hname] at hrow
      cases hrow
  | error fault' =>
      obtain ⟨n, hn, hfault | ⟨hcycle, -⟩⟩ := origin_of_link hlink
      · by_cases heq : n = name
        · rw [heq, hname] at hfault
          cases hfault
          rfl
        · obtain ⟨row, hrow⟩ := (h n hn).1 heq
          rw [hrow] at hfault
          cases hfault
      · exact absurd hcycle (h n hn).2

/-- Where nothing is pending in the globals and rows but references by one name, no other is
reached. -/
theorem linkedBut_of_roots
    (hglobals : ∀ v ∈ Entries.values d.globals, v = .reference name.1 name.2 none ∨ v.Settled)
    (hrows : ∀ entry ∈ d.tables, ∀ row ∈ entry.2.rows, Entries.Settled row.fields) :
    d.LinkedBut name := by
  have hsettled : ∀ {v : Value} {struct key target}, v.Settled →
      ¬ v.Holds (.reference struct key target) := by
    intro v struct key target hv hr
    cases hv _ hr
  have hrefers : ∀ n next, ¬ d.Refers n next := by
    rintro n next ⟨row, hrow, v, hv, target, hr⟩
    obtain ⟨entry, hentry, hin⟩ := mem_rows_of_findRow hrow
    exact hsettled (hrows entry hentry row hin v hv) hr
  rintro n ⟨first, ⟨target, root, hroot, hr⟩, hpath⟩
  have heq : first = n := by
    rcases hpath.cases_head with heq | ⟨next, hstep, -⟩
    · exact heq
    · exact absurd hstep (hrefers first next)
  subst heq
  constructor
  · intro hne
    rcases mem_roots.mp hroot with hroot | ⟨entry, hentry, row, hrow, hroot⟩
    · rcases hglobals root hroot with rfl | hroot
      · rcases Value.holds_iff.mp hr with heq | ⟨p, hp, -⟩
        · obtain ⟨hstruct, hkey, -⟩ := Value.reference.inj heq
          exact absurd (Prod.ext hstruct.symm hkey.symm) hne
        · cases hp
      · exact absurd hr (hsettled hroot)
    · exact absurd hr (hsettled (hrows entry hentry row hrow root hroot))
  · intro hcycle
    obtain ⟨next, hstep, -⟩ := TransGen.head'_iff.mp hcycle
    exact hrefers first next hstep

end Document

end RowConfig
