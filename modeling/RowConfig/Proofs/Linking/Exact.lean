import Mathlib.Data.List.Perm.Subperm
import RowConfig.Proofs.Entries
import RowConfig.Proofs.Equality
import RowConfig.Proofs.Linking.Unlinked

/-!
# When linking succeeds

The references of a document span a graph on row names: a name refers to the names that the row it
finds mentions. Linking succeeds exactly when every name reached from the document finds a row and
none of them lies on a cycle (`Document.link_exact`). A failing trail is a path in this graph that
comes back to itself; conversely the trail holds only ancestors of the name that is followed, so a
name met again closes a cycle, while a name met in two places side by side does not.
-/

namespace RowConfig

open Linking Relation

namespace Document

variable {d e : Document} {name next : RowName} {trail : List RowName}

/-! ## The graph of references -/

/-- Every position in an index is that of a row. -/
def Indexed (d : Document) : Prop :=
  ∀ entry ∈ d.tables, ∀ position ∈ Entries.values entry.2.index, position < entry.2.rows.length

/-- The name is that of a declared struct and a key of its index. -/
def Indexes (d : Document) (name : RowName) : Prop :=
  ∃ t, d.table? name.1 = some t ∧ name.2 ∈ Entries.names t.index

/-- A reference with this name is written in a global or a row. -/
def Mentions (d : Document) (name : RowName) : Prop :=
  ∃ target, d.Holds (.reference name.1 name.2 target)

/-- The row that `name` finds mentions `next`. -/
def Refers (d : Document) (name next : RowName) : Prop :=
  ∃ row, findRow d name = .ok row ∧
    ∃ v ∈ Entries.values row.fields, ∃ target, v.Holds (.reference next.1 next.2 target)

/-- The name is met on a walk along references that starts at a global or a row. -/
def Reaches (d : Document) (name : RowName) : Prop :=
  ∃ first, d.Mentions first ∧ ReflTransGen d.Refers first name

/-- Linking may come to follow `name` while it is inside the names on the trail, the last of them
innermost. -/
inductive Follows (d : Document) : List RowName → RowName → Prop
  | start {name : RowName} : d.Mentions name → Follows d [] name
  | next {trail : List RowName} {name next : RowName} :
      Follows d trail name → name ∉ trail → d.Refers name next → Follows d (trail ++ [name]) next

/-! ## Names and rows -/

theorem values_indexRows_lt {key : String} {rows : List Instance} {position : Nat}
    {index : Entries Nat} (hindex : ∀ p ∈ Entries.values index, p < position + rows.length) :
    ∀ p ∈ Entries.values (Table.indexRows key position index rows),
      p < position + rows.length := by
  induction rows generalizing position index with
  | nil => exact hindex
  | cons row rows ih =>
      have hlength : position + (row :: rows).length = position + 1 + rows.length := by
        rw [List.length_cons]
        omega
      rw [hlength] at hindex ⊢
      rw [Table.indexRows]
      apply ih
      split
      · -- the row is entered at its own position
        intro p hp
        obtain ⟨entry, hentry, rfl⟩ := List.mem_map.mp hp
        rcases Entries.eq_or_mem_of_mem_insert hentry with rfl | hentry
        · show position < position + 1 + rows.length
          omega
        · exact hindex _ (Entries.mem_values_of_mem hentry)
      · exact hindex

/-- Building the indexes makes every position that of a row. -/
theorem indexed_buildIndexes (d : Document) : d.buildIndexes.Indexed := by
  intro entry hentry
  obtain ⟨entry', -, rfl⟩ := List.mem_map.mp hentry
  show ∀ p ∈ Entries.values entry'.2.buildIndex.index, p < entry'.2.rows.length
  unfold Table.buildIndex
  cases entry'.2.key with
  | none =>
      intro p hp
      cases hp
  | some key =>
      have h : ∀ p ∈ Entries.values (Table.indexRows key 0 [] entry'.2.rows),
          p < 0 + entry'.2.rows.length := values_indexRows_lt fun p hp => by cases hp
      rwa [Nat.zero_add] at h

/-- With positions of rows in the indexes, a name finds a row exactly when it is indexed. -/
theorem Indexed.indexes_iff (h : d.Indexed) :
    d.Indexes name ↔ ∃ row, findRow d name = .ok row := by
  simp only [Indexes, findRow_eq_ok_iff]
  constructor
  · rintro ⟨t, ht, hkey⟩
    obtain ⟨position, hposition⟩ := Entries.exists_get?_iff.mpr hkey
    have hlt : position < t.rows.length :=
      h (name.1, t) (Entries.mem_of_get? ht) position
        (Entries.mem_values_of_mem (Entries.mem_of_get? hposition))
    refine ⟨t.rows[position], t, ht, ?_⟩
    exact Option.bind_eq_some_iff.mpr ⟨position, hposition, List.getElem?_eq_getElem hlt⟩
  · rintro ⟨row, t, ht, hrow⟩
    obtain ⟨position, hposition, -⟩ := Option.bind_eq_some_iff.mp hrow
    exact ⟨t, ht, Entries.mem_names_of_mem (Entries.mem_of_get? hposition)⟩

/-! ## Following and the graph -/

/-- A row can be followed when the names that it mentions can. -/
theorem exists_follow_iff :
    (∃ row, follow d trail name = .ok row) ↔
      (∃ found, findRow d name = .ok found) ∧ name ∉ trail ∧
        ∀ next, d.Refers name next → ∃ row, follow d (trail ++ [name]) next = .ok row := by
  constructor
  · rintro ⟨row, hrow⟩
    obtain ⟨found, hfound, hout, hrow⟩ := follow_eq_ok_iff.mp hrow
    refine ⟨⟨found, hfound⟩, hout, ?_⟩
    rintro ⟨struct, key⟩ ⟨found', hfound', v, hv, target, hr⟩
    rw [hfound] at hfound'
    cases hfound'
    exact exists_mapReferences_iff.mp (exists_mapRow_iff.mp ⟨row, hrow⟩ v hv) struct key target hr
  · rintro ⟨⟨found, hfound⟩, hout, hnext⟩
    have hrow : ∃ row, mapRow (follow d (trail ++ [name])) found = .ok row := by
      rw [exists_mapRow_iff]
      intro v hv
      rw [exists_mapReferences_iff]
      intro struct key target hr
      exact hnext (struct, key) ⟨found, hfound, v, hv, target, hr⟩
    obtain ⟨row, hrow⟩ := hrow
    exact ⟨row, follow_eq_ok_iff.mpr ⟨found, hfound, hout, hrow⟩⟩

/-- Whatever is reached from a name that can be followed can be followed itself, inside that
name. -/
theorem exists_follow_of_transGen (h : ∃ row, follow d trail name = .ok row)
    (hpath : TransGen d.Refers name next) :
    ∃ trail', name ∈ trail' ∧ ∃ row, follow d trail' next = .ok row := by
  induction hpath with
  | single hstep =>
      refine ⟨trail ++ [name], by simp, ?_⟩
      exact (exists_follow_iff.mp h).2.2 _ hstep
  | tail _ hstep ih =>
      obtain ⟨trail', hin, hmiddle⟩ := ih
      exact ⟨_, List.mem_append_left _ hin, (exists_follow_iff.mp hmiddle).2.2 _ hstep⟩

/-- A name that can be followed does not lie on a cycle. -/
theorem not_transGen_of_follow (h : ∃ row, follow d trail name = .ok row) :
    ¬ TransGen d.Refers name name := by
  intro hcycle
  obtain ⟨trail', hin, hagain⟩ := exists_follow_of_transGen h hcycle
  exact (exists_follow_iff.mp hagain).2.1 hin

/-- A name can be followed when whatever it reaches finds a row and lies on no cycle. On the trail
stand only names from which it is reached. -/
theorem exists_follow_of_acyclic (htrail : ∀ a ∈ trail, TransGen d.Refers a name)
    (hfind : ∀ n, ReflTransGen d.Refers name n → ∃ row, findRow d n = .ok row)
    (hacyclic : ∀ n, ReflTransGen d.Refers name n → ¬ TransGen d.Refers n n) :
    ∃ row, follow d trail name = .ok row := by
  induction trail, name using Linking.follow.induct d with
  | case1 trail name e hfound =>
      obtain ⟨row, hrow⟩ := hfind name .refl
      rw [hfound] at hrow
      cases hrow
  | case2 trail name row hfound hmet =>
      have hin : name ∈ trail := by simpa using hmet
      exact absurd (htrail name hin) (hacyclic name .refl)
  | case3 trail name row hfound hmet ih =>
      refine exists_follow_iff.mpr ⟨⟨row, hfound⟩, by simpa using hmet, ?_⟩
      intro next hstep
      apply ih
      · intro a ha
        rcases List.mem_append.mp ha with ha | ha
        · exact .tail (htrail a ha) hstep
        · rw [List.mem_singleton.mp ha]
          exact .single hstep
      · exact fun n hn => hfind n (.head hstep hn)
      · exact fun n hn => hacyclic n (.head hstep hn)

/-- A name can be followed from outside exactly when whatever it reaches finds a row and lies on no
cycle. -/
theorem exists_follow_nil_iff :
    (∃ row, follow d [] name = .ok row) ↔
      ∀ n, ReflTransGen d.Refers name n →
        (∃ row, findRow d n = .ok row) ∧ ¬ TransGen d.Refers n n := by
  constructor
  · intro h n hpath
    have hn : ∃ trail row, follow d trail n = .ok row := by
      rcases reflTransGen_iff_eq_or_transGen.mp hpath with rfl | hpath
      · exact ⟨[], h⟩
      · obtain ⟨trail', -, hn⟩ := exists_follow_of_transGen h hpath
        exact ⟨trail', hn⟩
    obtain ⟨trail, hn⟩ := hn
    exact ⟨(exists_follow_iff.mp hn).1, not_transGen_of_follow hn⟩
  · intro h
    refine exists_follow_of_acyclic (fun a ha => by cases ha) ?_ ?_
    · exact fun n hn => (h n hn).1
    · exact fun n hn => (h n hn).2

/-! ## Whole documents -/

/-- A document can be linked when each of its roots can. -/
theorem exists_link_iff_roots :
    (∃ e, d.link = .ok e) ↔ ∀ v ∈ d.roots, ∃ w, mapReferences (follow d []) v = .ok w := by
  constructor
  · rintro ⟨e, h⟩ v hv
    obtain ⟨hglobals, htables⟩ := link_eq_ok_iff.mp h
    rcases mem_roots.mp hv with hv | ⟨entry, hentry, row, hrow, hv⟩
    · exact exists_forall₂_iff.mp ⟨_, hglobals.values⟩ v hv
    · obtain ⟨_, -, _, hrows, -⟩ := exists_forall₂_iff.mp ⟨_, htables⟩ entry hentry
      have hlinked := exists_forall₂_iff.mp ⟨_, linkRows_eq_ok_iff.mp hrows⟩ row hrow
      exact exists_mapRow_iff.mp hlinked v hv
  · intro h
    have hglobals : ∃ globals, Entries.Pointwise
        (fun v w => mapReferences (follow d []) v = .ok w) d.globals globals := by
      refine exists_forall₂_iff.mpr fun entry hentry => ?_
      obtain ⟨w, hw⟩ := h entry.2 (mem_roots.mpr (.inl (Entries.mem_values_of_mem hentry)))
      exact ⟨(entry.1, w), rfl, hw⟩
    have htables : ∃ tables, Entries.Pointwise (LinkedTable d) d.tables tables := by
      refine exists_forall₂_iff.mpr fun entry hentry => ?_
      have hrows : ∃ rows, List.Forall₂ (fun row row' => mapRow (follow d []) row = .ok row')
          entry.2.rows rows := by
        refine exists_forall₂_iff.mpr fun row hrow => exists_mapRow_iff.mpr fun v hv => ?_
        exact h v (mem_roots.mpr (.inr ⟨entry, hentry, row, hrow, hv⟩))
      obtain ⟨rows, hrows⟩ := hrows
      exact ⟨(entry.1, { entry.2 with rows := rows }), rfl, rows, linkRows_eq_ok_iff.mpr hrows, rfl⟩
    obtain ⟨globals, hglobals⟩ := hglobals
    obtain ⟨tables, htables⟩ := htables
    exact ⟨⟨globals, tables⟩, link_eq_ok_iff.mpr ⟨hglobals, htables⟩⟩

/-- A document can be linked when every name that it mentions can be followed. -/
theorem exists_link_iff_mentions :
    (∃ e, d.link = .ok e) ↔ ∀ name, d.Mentions name → ∃ row, follow d [] name = .ok row := by
  rw [exists_link_iff_roots]
  constructor
  · rintro h ⟨struct, key⟩ ⟨target, root, hroot, hr⟩
    exact exists_mapReferences_iff.mp (h root hroot) struct key target hr
  · intro h root hroot
    rw [exists_mapReferences_iff]
    intro struct key target hr
    exact h (struct, key) ⟨target, root, hroot, hr⟩

/-- A document can be linked exactly when every name that it reaches finds a row and lies on no
cycle. -/
theorem exists_link_iff :
    (∃ e, d.link = .ok e) ↔
      ∀ name, d.Reaches name → (∃ row, findRow d name = .ok row) ∧ ¬ TransGen d.Refers name name := by
  rw [exists_link_iff_mentions]
  constructor
  · rintro h name ⟨first, hfirst, hpath⟩
    exact exists_follow_nil_iff.mp (h first hfirst) name hpath
  · intro h first hfirst
    rw [exists_follow_nil_iff]
    intro name hpath
    exact h name ⟨first, hfirst, hpath⟩

/-- The names on the trail are indexed and none stands on it twice. -/
theorem Follows.trail_nodup (h : d.Follows trail name) : trail.Nodup ∧ trail ⊆ rowNames d := by
  induction h with
  | start _ => exact ⟨List.nodup_nil, List.nil_subset _⟩
  | @next trail name next _ hout hstep ih =>
      obtain ⟨hnodup, hsub⟩ := ih
      obtain ⟨row, hrow, -⟩ := hstep
      constructor
      · rw [List.nodup_append_comm]
        exact List.nodup_cons.mpr ⟨hout, hnodup⟩
      · apply List.append_subset.mpr
        refine ⟨hsub, fun a ha => ?_⟩
        rw [List.mem_singleton.mp ha]
        exact mem_rowNames_of_findRow hrow

/-- What a document mentions after a global was set is what the new value mentions and what stands
elsewhere. -/
theorem mentions_setGlobal (d : Document) (g : String) :
    ∃ Elsewhere : RowName → Prop, ∀ v name, (d.setGlobal g v).Mentions name ↔
      Elsewhere name ∨ ∃ target, v.Holds (.reference name.1 name.2 target) := by
  obtain ⟨front, back, hvalues⟩ := Entries.exists_values_insert d.globals g
  -- the roots that stay are the other globals and the rows
  refine ⟨fun name => ∃ target, ∃ root ∈ front ++ back ++ (Document.mk [] d.tables).roots,
    root.Holds (.reference name.1 name.2 target), fun v name => ?_⟩
  have hroots : ∀ root, root ∈ (d.setGlobal g v).roots ↔
      root ∈ front ++ back ++ (Document.mk [] d.tables).roots ∨ root = v := by
    intro root
    rw [show (d.setGlobal g v).roots = Entries.values (Entries.insert g v d.globals) ++
      (Document.mk [] d.tables).roots from rfl, hvalues]
    simp only [List.mem_append, List.mem_cons]
    grind
  constructor
  · rintro ⟨target, root, hroot, hr⟩
    rcases (hroots root).mp hroot with hroot | rfl
    · exact .inl ⟨target, root, hroot, hr⟩
    · exact .inr ⟨target, hr⟩
  · rintro (⟨target, root, hroot, hr⟩ | ⟨target, hr⟩)
    · exact ⟨target, root, (hroots root).mpr (.inl hroot), hr⟩
    · exact ⟨target, v, (hroots v).mpr (.inr rfl), hr⟩

/-- Whether a document can be linked with a value in a global depends only on the names that the
value mentions, not on how often or in which order it does. -/
theorem exists_link_setGlobal_congr (d : Document) (g : String) {v w : Value}
    (h : ∀ name : RowName, (∃ target, v.Holds (.reference name.1 name.2 target)) ↔
      ∃ target, w.Holds (.reference name.1 name.2 target)) :
    (∃ e, (d.setGlobal g v).link = .ok e) ↔ ∃ e, (d.setGlobal g w).link = .ok e := by
  obtain ⟨Elsewhere, hmentions⟩ := mentions_setGlobal d g
  -- the rows stay, and with them the graph
  have hreaches : ∀ name, (d.setGlobal g v).Reaches name ↔ (d.setGlobal g w).Reaches name := by
    intro name
    unfold Reaches
    simp only [hmentions, h]
    rfl
  rw [exists_link_iff, exists_link_iff]
  simp only [hreaches]
  rfl

/-- Linking a document with its indexes built (`indexed_buildIndexes`) ends, inside of at most as
many names as there are indexed rows. It succeeds exactly when every reference that is reached names
an indexed row and no name leads back to itself; the same value twice side by side is no cycle. A
linked document shows no reference without a target, differs from the document in targets only, and
is linked already. -/
theorem link_exact (h : d.Indexed) :
    (∀ trail name, d.Follows trail name →
      trail.Nodup ∧ trail.length ≤ (rowNames d).length) ∧
    ((∃ e, d.link = .ok e) ↔
      (∀ name, d.Reaches name → d.Indexes name) ∧
        ∀ name, d.Reaches name → ¬ TransGen d.Refers name name) ∧
    (∀ g v, (∃ e, (d.setGlobal g (.array [v, v])).link = .ok e) ↔
      ∃ e, (d.setGlobal g v).link = .ok e) ∧
    ∀ e, d.link = .ok e →
      (∀ struct key target, e.Shows (.reference struct key target) → target.isSome) ∧
        e.unlinked = d.unlinked ∧ e.link = .ok e := by
  refine ⟨?bound, ?exact, ?siblings, ?linked⟩
  case bound =>
    intro trail name hfollows
    obtain ⟨hnodup, hsub⟩ := hfollows.trail_nodup
    exact ⟨hnodup, (List.subperm_of_subset hnodup hsub).length_le⟩
  case exact =>
    rw [exists_link_iff]
    simp only [h.indexes_iff]
    exact ⟨fun hall => ⟨fun name hn => (hall name hn).1, fun name hn => (hall name hn).2⟩,
      fun ⟨hfind, hacyclic⟩ name hn => ⟨hfind name hn, hacyclic name hn⟩⟩
  case siblings =>
    intro g v
    apply exists_link_setGlobal_congr
    intro name
    refine exists_congr fun target => ?_
    rw [Value.holds_iff]
    simp [Value.parts]
  case linked =>
    intro e he
    refine ⟨fun struct key target hr => ?_, unlinked_of_link he, link_of_link he⟩
    obtain ⟨row, -, rfl⟩ := target_of_link he hr
    rfl

/-- Two routes to one row: both ends of a cable refer to the same port. -/
def cables (port : Option Instance) : Document :=
  let cable : Instance :=
    .ofFields "Cable" [("from", .reference "Port" "p" port), ("to", .reference "Port" "p" port)]
  let ports : Table :=
    ⟨"Port", [{ Field.ofType "id" ⟨.str, false⟩ with isKey := true }], some "id",
      [.ofFields "Port" [("id", .text (.plain "p"))]], [("p", 0)]⟩
  ⟨[("main", .instance cable)], [("Port", ports)]⟩

theorem link_cables :
    (cables none).link = .ok (cables (some (.ofFields "Port" [("id", .text (.plain "p"))]))) := by
  decide +kernel

theorem indexed_cables : (cables none).Indexed := by
  have hbuilt : (cables none).buildIndexes = cables none := by decide +kernel
  rw [← hbuilt]
  exact indexed_buildIndexes _

theorem link_exact_cables :
    (cables none).Indexed ∧
      (∀ name, (cables none).Reaches name → ¬ TransGen (cables none).Refers name name) ∧
      ∃ e, (cables none).link = .ok e ∧
        (∀ struct key target, e.Shows (.reference struct key target) → target.isSome) ∧
        e.unlinked = (cables none).unlinked ∧ e.link = .ok e :=
  ⟨indexed_cables, ((link_exact indexed_cables).2.1.mp ⟨_, link_cables⟩).2,
    _, link_cables, (link_exact indexed_cables).2.2.2 _ link_cables⟩

end Document

end RowConfig
