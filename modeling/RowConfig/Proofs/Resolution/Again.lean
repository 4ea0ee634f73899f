import RowConfig.Proofs.Binding.Outline
import RowConfig.Proofs.Exporting
import RowConfig.Proofs.Passing

/-!
# Resolving again

A compiled document is bound and rendered: the passes that do this leave it alone. But the indexes
are built before templates are rendered, and references keep the keys that were written. Resolving a
compiled document again is therefore linking it again, by indexes that are built from the rendered
keys, and changes nothing exactly when all of its references find the same rows as before
(`resolve_again`); where no key is a template they do.
-/

namespace RowConfig

open Linking Value

/-! ## Documents that are rendered -/

namespace Value

variable {v : Value}

/-- No text that the value shows is a template. -/
def Finished (v : Value) : Prop := ∀ t, v.Shows (.text t) → ∃ content, t = .plain content

theorem Finished.content (h : v.Finished) {p : Value} (hp : p ∈ v.contents) : p.Finished :=
  fun t ht => h t (.of_content hp ht)

/-- A row stays as it is where its values do, in whatever scope. -/
theorem renderedRow_eq_self {row : Instance}
    (h : ∀ v ∈ Entries.values row.fields, ∀ s : Scope, v.rendered s = v) (globals : Entries Value) :
    renderedRow globals row = row := by
  have hfields : Entries.Pointwise (· = ·) row.fields (renderedRow globals row).fields := by
    refine (pointwise_renderedRow globals row).imp_of_mem ?_
    rintro v hv _ ⟨s, -, rfl⟩
    exact (h v hv s).symm
  obtain ⟨struct, fields, call⟩ := row
  exact congrArg (fun fields => Record.mk struct fields call) hfields.eq.symm

theorem Finished.rendered_eq (h : v.Finished) (s : Scope) : v.rendered s = v := by
  induction v using contents_induction generalizing s with
  | step v ih =>
      have hcontents : ∀ p ∈ v.contents, ∀ s : Scope, p.rendered s = p :=
        fun p hp s => ih p hp (h.content hp) s
      cases v with
      | text t =>
          obtain ⟨content, rfl⟩ := h t (.refl _)
          rfl
      | array items =>
          rw [rendered, renderedItems_eq_map]
          congr 1
          conv => rhs; rw [← List.map_id items]
          exact List.map_congr_left fun p hp => hcontents p hp s
      | «instance» row => rw [rendered, renderedRow_eq_self hcontents]
      | reference struct key target =>
          cases target with
          | none => rfl
          | some row => rw [rendered, renderedTarget, renderedRow_eq_self hcontents]
      | _ => rfl

end Value

namespace Document

variable {b c d e i linked : Document}

/-- A document that shows no template stays as it is. -/
theorem render_eq_self (h : ∀ t, d.Shows (.text t) → ∃ content, t = .plain content) :
    d.render = d := by
  have hroots : ∀ v ∈ d.roots, ∀ s : Scope, v.rendered s = v := by
    intro v hv
    exact Finished.rendered_eq fun t ht => h t ⟨v, hv, ht⟩
  have hglobals : Entries.mapValues (rendered ⟨none, d.globals⟩) d.globals = d.globals := by
    refine (Entries.pointwise_mapValues _ d.globals).imp_of_mem ?_ |>.eq.symm
    rintro v hv _ rfl
    exact (hroots v (mem_roots.mpr (.inl hv)) _).symm
  have htables : Entries.mapValues (Table.rendered d.globals) d.tables = d.tables := by
    refine (Entries.pointwise_mapValues _ d.tables).imp_of_mem ?_ |>.eq.symm
    rintro t ht _ rfl
    obtain ⟨entry, hentry, rfl⟩ := List.mem_map.mp ht
    have hrows : entry.2.rows.map (renderedRow d.globals) = entry.2.rows := by
      conv => rhs; rw [← List.map_id entry.2.rows]
      refine List.map_congr_left fun row hrow => renderedRow_eq_self (fun v hv => ?_) _
      exact hroots v (mem_roots.mpr (.inr ⟨entry, hentry, row, hrow, hv⟩))
    rw [Table.rendered, hrows]
  exact congrArg₂ Document.mk hglobals htables

end Document

/-! ## References that are kept -/

namespace Value

variable {v w : Value} {struct key : String} {target : Option Instance}

/-- A reference that was written in a value is written in its linked form. -/
theorem exists_holds_of_mapReferences {follow : RowName → Except Fault Instance}
    (h : mapReferences follow v = .ok w) (hr : v.Holds (.reference struct key target)) :
    ∃ target', w.Holds (.reference struct key target') := by
  induction v using contents_induction generalizing w with
  | step v ih =>
      rcases holds_iff.mp hr with rfl | ⟨p, hp, hr⟩
      · obtain ⟨row, -, rfl⟩ := mapReferences_reference_eq_ok_iff.mp h
        exact ⟨some row, .refl _⟩
      · obtain ⟨q, hq, hpq⟩ := exists_mem_right (parts_of_mapReferences h) hp
        obtain ⟨target', hr'⟩ := ih p (v.parts_subset_contents hp) hpq hr
        exact ⟨target', .of_part hq hr'⟩

/-- A reference that a value showed is shown by its rendered form. -/
theorem exists_shows_of_rendersTo {globals : Entries Value} (h : RendersTo globals v w)
    (hr : v.Shows (.reference struct key target)) :
    ∃ target', w.Shows (.reference struct key target') := by
  induction v using contents_induction generalizing w with
  | step v ih =>
      obtain ⟨s, rfl, rfl⟩ := h
      rcases Relation.ReflTransGen.cases_head hr with rfl | ⟨p, hp, hr⟩
      · exact ⟨_, .refl _⟩
      · obtain ⟨q, hq, hpq⟩ := exists_mem_right (contents_rendered s v) hp
        obtain ⟨target', hr'⟩ := ih p hp hpq hr
        exact ⟨target', .of_content hq hr'⟩

end Value

/-! ## Linking again -/

namespace Linking

variable {follow follow' : RowName → Except Fault Instance} {globals : Entries Value}

/-- A value that was linked and rendered is linked to itself, once its references lead to what they
led to, rendered. -/
theorem mapReferences_rendered {v w : Value} (h : mapReferences follow v = .ok w)
    (hfollow : ∀ struct key target row, v.Holds (.reference struct key target) →
      follow (struct, key) = .ok row → follow' (struct, key) = .ok (renderedRow globals row))
    {s : Scope} (hs : s.globals = globals) :
    mapReferences follow' (w.rendered s) = .ok (w.rendered s) := by
  induction v using Value.contents_induction generalizing w s with
  | step v ih =>
      have hparts : ∀ p ∈ v.parts, ∀ q, mapReferences follow p = .ok q → ∀ s : Scope,
          s.globals = globals → mapReferences follow' (q.rendered s) = .ok (q.rendered s) := by
        intro p hp q hpq s hs
        refine ih p (v.parts_subset_contents hp) hpq (fun struct key target row hr => ?_) hs
        exact hfollow struct key target row (.of_part hp hr)
      cases v with
      | array items =>
          obtain ⟨items', hitems, rfl⟩ := map_eq_ok_iff.mp h
          rw [rendered, renderedItems_eq_map]
          refine map_eq_ok_iff.mpr ⟨_, mapItems_eq_ok_iff.mpr (List.forall₂_same.mpr ?_), rfl⟩
          intro q' hq'
          obtain ⟨q, hq, rfl⟩ := List.mem_map.mp hq'
          obtain ⟨p, hp, hpq⟩ := exists_mem_left (mapItems_eq_ok_iff.mp hitems) hq
          exact hparts p hp q hpq s hs
      | «instance» row =>
          obtain ⟨row', hrow, rfl⟩ := map_eq_ok_iff.mp h
          refine map_eq_ok_iff.mpr ⟨_, mapRow_eq_ok_iff.mpr ⟨rfl, ?_, rfl⟩, rfl⟩
          refine mapFields_eq_ok_iff.mpr (List.forall₂_same.mpr fun entry hentry => ⟨rfl, ?_⟩)
          obtain ⟨q, hq, s', hs', heq⟩ :=
            exists_mem_left (pointwise_renderedRow s.globals row').values
            (Entries.mem_values_of_mem hentry)
          obtain ⟨p, hp, hpq⟩ := exists_mem_left (values_of_mapRow hrow) hq
          rw [← heq]
          exact hparts p hp q hpq s' (hs'.trans hs)
      | reference struct key target =>
          obtain ⟨row, hrow, rfl⟩ := mapReferences_reference_eq_ok_iff.mp h
          rw [rendered, renderedTarget, hs]
          refine mapReferences_reference_eq_ok_iff.mpr ⟨_, ?_, rfl⟩
          exact hfollow struct key target row (.refl _) hrow
      | _ =>
          cases h
          rfl

theorem mapRow_rendered {row row' : Instance} (h : mapRow follow row = .ok row')
    (hfollow : ∀ v ∈ Entries.values row.fields, ∀ struct key target next,
      v.Holds (.reference struct key target) → follow (struct, key) = .ok next →
        follow' (struct, key) = .ok (renderedRow globals next)) :
    mapRow follow' (renderedRow globals row') = .ok (renderedRow globals row') := by
  have hinstance : mapReferences follow (.instance row) = .ok (.instance row') :=
    map_eq_ok_iff.mpr ⟨row', h, rfl⟩
  have hagain : mapReferences follow' (.instance (renderedRow globals row')) =
      .ok (.instance (renderedRow globals row')) := by
    have hscope : (Scope.mk none globals).globals = globals := rfl
    refine mapReferences_rendered hinstance (fun struct key target next hr => ?_) hscope
    rcases holds_iff.mp hr with heq | ⟨p, hp, hr⟩
    · cases heq
    · exact hfollow p hp struct key target next hr
  obtain ⟨_, hrow, heq⟩ := map_eq_ok_iff.mp hagain
  cases heq
  exact hrow

end Linking

namespace Document

variable {b c d e i linked : Document}

/-- A document stays as it is where each of its roots is linked to itself. -/
theorem link_eq_self (h : ∀ v ∈ d.roots, mapReferences (follow d []) v = .ok v) : d.link = .ok d := by
  refine link_eq_ok_iff.mpr ⟨?_, ?_⟩
  · rw [Entries.Pointwise, List.forall₂_same]
    exact fun entry hentry =>
      ⟨rfl, h _ (mem_roots.mpr (.inl (Entries.mem_values_of_mem hentry)))⟩
  · rw [Entries.Pointwise, List.forall₂_same]
    refine fun entry hentry => ⟨rfl, entry.2.rows, ?_, rfl⟩
    rw [linkRows_eq_ok_iff, List.forall₂_same]
    intro row hrow
    refine mapRow_eq_ok_iff.mpr ⟨rfl, mapFields_eq_ok_iff.mpr ?_, rfl⟩
    rw [Entries.Pointwise, List.forall₂_same]
    intro field hfield
    have hroot := mem_roots.mpr (.inr ⟨entry, hentry, row, hrow, Entries.mem_values_of_mem hfield⟩)
    exact ⟨rfl, h _ hroot⟩

/-- By the names of the references that `d` shows, both documents find the same rows. -/
def FindsAlike (d e : Document) : Prop :=
  ∀ struct key target, d.Shows (.reference struct key target) →
    findRow e (struct, key) = findRow d (struct, key)

/-- What was followed is followed to its rendered form, in any document that finds the rows that the
rendered one finds. -/
theorem follow_again (hlink : b.link = .ok linked) (hfind : linked.render.FindsAlike i)
    {trail : List RowName} {name : RowName} {row : Instance}
    (hname : ∃ target, linked.render.Shows (.reference name.1 name.2 target))
    (h : follow b trail name = .ok row) :
    follow i trail name = .ok (renderedRow linked.globals row) := by
  induction trail, name using Linking.follow.induct b generalizing row with
  | case1 trail name fault hfound =>
      obtain ⟨found, hfound', -⟩ := follow_eq_ok_iff.mp h
      rw [hfound] at hfound'
      cases hfound'
  | case2 trail name found hfound hmet =>
      obtain ⟨_, -, hout, -⟩ := follow_eq_ok_iff.mp h
      exact absurd (by simpa using hmet) hout
  | case3 trail name found hfound hmet ih =>
      obtain ⟨found', hfound', hout, hrow⟩ := follow_eq_ok_iff.mp h
      obtain rfl : found = found' := Except.ok.inj (hfound.symm.trans hfound')
      -- the row of the linked document is the one that was followed
      obtain ⟨row', hrow', hlinked⟩ := findRow_of_link hlink hfound
      obtain rfl : row = row' :=
        Except.ok.inj ((mapRow_of_imp (fun _ _ => follow_nil) hrow).symm.trans hlinked)
      have hrendered := findRow_render hrow'
      obtain ⟨target, hshown⟩ := hname
      refine follow_eq_ok_iff.mpr ⟨renderedRow linked.globals row, ?_, hout, ?_⟩
      · exact (hfind _ _ _ hshown).trans hrendered
      · refine mapRow_rendered hrow fun v hv struct key target next hr hnext =>
          ih (struct, key) ?_ hnext
        -- the references of the row are shown where the row is found
        obtain ⟨w, hw, hvw⟩ := exists_mem_right (values_of_mapRow hrow) hv
        obtain ⟨u, hu, hwu⟩ := exists_mem_right (pointwise_renderedRow linked.globals row).values hw
        obtain ⟨_, hr⟩ := exists_holds_of_mapReferences hvw hr
        obtain ⟨target', hr⟩ := exists_shows_of_rendersTo hwu hr.shows
        obtain ⟨root, hroot, hheld⟩ := holds_of_findRow hrendered hu
        exact ⟨target', root, hroot, hheld.shows.trans hr⟩

/-- A document that was linked and rendered is linked to itself by indexes that find the same
rows. -/
theorem link_again (hlink : b.link = .ok linked) (hroots : i.roots = linked.render.roots)
    (hfind : linked.render.FindsAlike i) : i.link = .ok i := by
  apply link_eq_self
  intro u hu
  rw [hroots] at hu
  obtain ⟨w, hw, s, hs, rfl⟩ := exists_root_of_render hu
  obtain ⟨v, -, hvw⟩ := exists_root_of_link hlink hw
  refine mapReferences_rendered hvw (fun struct key target row hr hrow => ?_) hs
  apply follow_again hlink hfind ?_ hrow
  obtain ⟨_, hr⟩ := exists_holds_of_mapReferences hvw hr
  obtain ⟨target', hr⟩ := exists_shows_of_rendersTo ⟨s, hs, rfl⟩ hr.shows
  exact ⟨target', _, hu, hr⟩

/-- By the references of a linked document, each of which holds the row that it finds, other indexes
with which it is linked find the same rows. -/
theorem findsAlike_of_link (hd : d.link = .ok d) (he : e.link = .ok e) (hroots : e.roots = d.roots) :
    d.FindsAlike e := by
  rintro struct key target ⟨root, hroot, hr⟩
  obtain ⟨row, hrow, heq⟩ := target_of_link hd ⟨root, hroot, hr⟩
  obtain ⟨row', hrow', heq'⟩ := target_of_link he ⟨root, hroots ▸ hroot, hr⟩
  rw [heq] at heq'
  cases heq'
  rw [hrow, hrow']

/-! ## Contents -/

/-- The same globals, and the same structs with the same rows. Indexes may differ. -/
def SameContents (d e : Document) : Prop :=
  e.globals = d.globals ∧
    Entries.mapValues Table.rows e.tables = Entries.mapValues Table.rows d.tables

theorem sameContents_buildIndexes (d : Document) : d.SameContents d.buildIndexes := by
  refine ⟨rfl, ?_⟩
  unfold buildIndexes Entries.mapValues
  rw [List.map_map]
  rfl

/-- Linking that changes no contents changes nothing. -/
theorem eq_of_link (h : d.link = .ok e) (hsame : d.SameContents e) : e = d := by
  obtain ⟨-, htables⟩ := link_eq_ok_iff.mp h
  have hrows : ∀ {ts us : Entries Table}, Entries.Pointwise (LinkedTable d) ts us →
      Entries.mapValues Table.rows us = Entries.mapValues Table.rows ts → us = ts := by
    intro ts us hlinked hrows
    induction hlinked with
    | nil => rfl
    | @cons t u _ _ hhead _ ih =>
        obtain ⟨name, t⟩ := t
        obtain ⟨name', u⟩ := u
        obtain ⟨rfl, rows, -, rfl⟩ := hhead
        obtain ⟨heq, hmore⟩ := List.cons.inj hrows
        obtain rfl : rows = t.rows := (Prod.mk.inj heq).2
        rw [ih hmore]
  obtain ⟨globals, tables⟩ := e
  exact congrArg₂ Document.mk hsame.1 (hrows htables hsame.2)

/-! ## Keys that are no templates -/

/-- No row of a struct has a template as its key. -/
def PlainKeys (d : Document) : Prop :=
  ∀ entry ∈ d.tables, ∀ key, entry.2.key = some key → ∀ row ∈ entry.2.rows, ∀ source escapes,
    row.get? key ≠ some (.text (.template source escapes))

end Document

/-- Linking and rendering keep the text of what is no template. -/
theorem render_of_passes {follow : RowName → Except Fault Instance} {globals : Entries Value}
    {v u w : Value} (hplain : ∀ source escapes, v ≠ .text (.template source escapes))
    (hlink : mapReferences follow v = .ok u) (hrender : RendersTo globals u w) :
    w.isNull = v.isNull ∧ w.render = v.render := by
  obtain ⟨s, -, rfl⟩ := hrender
  cases v with
  | text t =>
      cases hlink
      cases t with
      | plain content => exact ⟨rfl, rfl⟩
      | template source escapes => exact absurd rfl (hplain source escapes)
  | array items =>
      obtain ⟨items', -, rfl⟩ := map_eq_ok_iff.mp hlink
      exact ⟨rfl, rfl⟩
  | «instance» row =>
      obtain ⟨row', -, rfl⟩ := map_eq_ok_iff.mp hlink
      exact ⟨rfl, rfl⟩
  | reference struct key target =>
      obtain ⟨row, -, rfl⟩ := mapReferences_reference_eq_ok_iff.mp hlink
      exact ⟨rfl, rfl⟩
  | _ =>
      cases hlink
      exact ⟨rfl, rfl⟩

/-- A key that is no template keeps its text. -/
theorem keyText?_of_passes {follow : RowName → Except Fault Instance} {row row' : Instance}
    {key : String} (hplain : ∀ source escapes, row.get? key ≠ some (.text (.template source escapes)))
    (hlink : mapRow follow row = .ok row') (globals : Entries Value) :
    Table.keyText? key (renderedRow globals row') = Table.keyText? key row := by
  unfold Table.keyText?
  cases hv : row.get? key with
  | some v =>
      obtain ⟨u, w, hvu, huw, hw⟩ := Document.exists_get?_renderedRow hv hlink globals
      have hv' : ∀ source escapes, v ≠ .text (.template source escapes) := by
        rintro source escapes rfl
        exact hplain source escapes hv
      obtain ⟨hnull, hrender⟩ := render_of_passes hv' hvu huw
      simp only [hw, hnull, hrender]
  | none =>
      have hnames : Entries.names (renderedRow globals row').fields = Entries.names row.fields := by
        rw [names_renderedRow, (mapFields_eq_ok_iff.mp (mapRow_eq_ok_iff.mp hlink).2.1).names_eq]
      have hnone : (renderedRow globals row').get? key = none := by
        rw [Record.get?, Entries.get?_eq_none]
        rw [hnames]
        intro hin
        obtain ⟨v, hv'⟩ := Entries.exists_get?_iff.mpr hin
        rw [Record.get?, hv'] at hv
        cases hv
      rw [hnone]

theorem Table.indexRows_congr {key : String} {rows rows' : List Instance}
    (h : List.Forall₂ (fun row row' => keyText? key row' = keyText? key row) rows rows')
    (position : Nat) (index : Entries Nat) :
    indexRows key position index rows' = indexRows key position index rows := by
  induction h generalizing position index with
  | nil => rfl
  | cons hkey _ ih =>
      rw [indexRows, indexRows, hkey]
      exact ih _ _

/-- An index stays right when the rows get others of the same keys. -/
theorem Table.buildIndex_of_keys {t : Table} {rows : List Instance}
    (h : ∀ key, t.key = some key →
      List.Forall₂ (fun row row' => keyText? key row' = keyText? key row) t.rows rows) :
    { t.buildIndex with rows := rows }.buildIndex = { t.buildIndex with rows := rows } := by
  obtain ⟨name, fields, key, before, index⟩ := t
  cases key with
  | none => rfl
  | some key => simp only [buildIndex, indexRows_congr (h key rfl)]

/-- Where no key is a template, linking and rendering leave the indexes right. -/
theorem Document.buildIndexes_render {b linked : Document} (hplain : b.PlainKeys)
    (hlink : b.buildIndexes.link = .ok linked) : linked.render.buildIndexes = linked.render := by
  have htables : ∀ entry ∈ linked.render.tables, entry.2.buildIndex = entry.2 := by
    intro entry'' hentry''
    obtain ⟨⟨name, u⟩, hentry', rfl⟩ := List.mem_map.mp hentry''
    obtain ⟨indexed, hindexed, -, rows, hrows, rfl⟩ :=
      exists_mem_left (link_eq_ok_iff.mp hlink).2 hentry'
    obtain ⟨⟨name', t⟩, hentry, rfl⟩ := List.mem_map.mp hindexed
    refine Table.buildIndex_of_keys fun key hkey => ?_
    rw [List.forall₂_map_right_iff]
    refine forall₂_imp_of_mem (fun row hrow row' hlinked => ?_) (linkRows_eq_ok_iff.mp hrows)
    exact keyText?_of_passes (hplain (name', t) hentry key hkey row hrow) hlinked linked.globals
  refine congrArg (Document.mk linked.render.globals) ?_
  calc linked.render.tables.map (fun entry => (entry.1, entry.2.buildIndex))
      = linked.render.tables.map id :=
        List.map_congr_left fun entry hentry => congrArg (Prod.mk entry.1) (htables entry hentry)
    _ = linked.render.tables := List.map_id _

/-! ## Resolving a compiled document -/

/-- Resolving a compiled document again links it by the indexes of its rendered rows. This succeeds
without changing a global or a row exactly if each reference that the document shows finds by these
indexes the row that it found before, and changes nothing at all if no key of a bound row was a
template. -/
theorem resolve_again {s : Sources} {input : Input} {c : Document} (h : compile s input = .ok c) :
    c.resolve = c.buildIndexes.link ∧
      ((∃ e, c.resolve = .ok e ∧ c.SameContents e) ↔ c.FindsAlike c.buildIndexes) ∧
      ∀ written bound, readDocument s input = .ok written → written.bind = .ok bound →
        bound.PlainKeys → c.resolve = .ok c := by
  obtain ⟨written, bound, linked, hread, hbound, hlinked, rfl⟩ := compile_eq_ok_iff.mp h
  have hroots := Document.roots_buildIndexes linked.render
  have hself : linked.render.link = .ok linked.render :=
    Document.link_again hlinked rfl fun _ _ _ _ => rfl
  have hbind : linked.render.bind = .ok linked.render := by
    refine Document.bind_of_outline hbound ?_
    rw [Document.outline_render, Document.outline_of_link hlinked, Document.outline_buildIndexes]
  have hresolve : linked.render.resolve = linked.render.buildIndexes.link := by
    unfold Document.resolve
    rw [hbind]
    show linked.render.buildIndexes.link.map Document.render = _
    cases hlink : linked.render.buildIndexes.link with
    | error fault => rfl
    | ok e =>
        refine congrArg Except.ok (Document.render_eq_self fun t ht => ?_)
        -- linking adds no texts, and those of the compiled document are rendered
        obtain ⟨v, ⟨root, hroot, hv⟩, hvt⟩ := Document.link_origin hlink ht
        obtain ⟨u, -, hrendered⟩ := Document.render_origin ⟨root, hroots ▸ hroot, hv.shows⟩
        cases v with
        | text t' =>
            cases hvt
            exact hrendered.eq_plain
        | array items => obtain ⟨_, -, heq⟩ := map_eq_ok_iff.mp hvt; cases heq
        | «instance» row => obtain ⟨_, -, heq⟩ := map_eq_ok_iff.mp hvt; cases heq
        | reference struct key target => obtain ⟨_, -, heq⟩ := map_eq_ok_iff.mp hvt; cases heq
        | _ => cases hvt
  refine ⟨hresolve, ⟨?_, fun hfind => ?_⟩, fun written' bound' hread' hbound' hplain => ?_⟩
  · rintro ⟨e, he, hsame⟩
    rw [hresolve] at he
    have hcontents : linked.render.buildIndexes.SameContents e :=
      ⟨hsame.1, hsame.2.trans (Document.sameContents_buildIndexes _).2.symm⟩
    rw [Document.eq_of_link he hcontents] at he
    exact Document.findsAlike_of_link hself he hroots
  · refine ⟨_, hresolve.trans (Document.link_again hlinked hroots hfind), ?_⟩
    exact Document.sameContents_buildIndexes _
  · rw [hread] at hread'
    cases hread'
    rw [hbound] at hbound'
    cases hbound'
    rw [hresolve, Document.buildIndexes_render hplain hlinked, hself]

/-- A struct with one row, its key of this text, and a global that refers to it. -/
def keyText (key : String) : String :=
  "str e: x\nS:\n *str k:\n - " ++ key ++ "\nS g: S(" ++ key ++ ")"

/-- The row of `keyText` with this key. -/
def keyRow (key : Text) : Instance := .ofFields "S" [("k", .text key)]

/-- The document of `keyText` with this row, which the global refers to by the key that is
written. -/
def keyDocument (key : String) (row : Instance) (target : Option Instance) (index : Entries Nat) :
    Document :=
  ⟨[("e", .text (.plain "x")), ("g", .reference "S" key target)],
    [("S", ⟨"S", [{ Field.ofType "k" ⟨.str, false⟩ with isKey := true }], some "k", [row], index⟩)]⟩

/-- The document with a plain key, once it is compiled. -/
def plainKeyDocument : Document :=
  keyDocument "a" (keyRow (.plain "a")) (some (keyRow (.plain "a"))) [("a", 0)]

theorem resolve_again_plain :
    compile .empty (.text "/" (keyText "a")) = .ok plainKeyDocument ∧
      plainKeyDocument.resolve = .ok plainKeyDocument ∧
      plainKeyDocument.FindsAlike plainKeyDocument.buildIndexes := by
  have hcompile : compile .empty (.text "/" (keyText "a")) = .ok plainKeyDocument := by
    decide +kernel
  have hread : readDocument .empty (.text "/" (keyText "a")) =
      .ok (keyDocument "a" (keyRow (.plain "a")) none []) := by
    decide +kernel
  have hbind : (keyDocument "a" (keyRow (.plain "a")) none []).bind =
      .ok (keyDocument "a" (keyRow (.plain "a")) none []) := by
    decide +kernel
  have hplain : (keyDocument "a" (keyRow (.plain "a")) none []).PlainKeys := by
    simp [Document.PlainKeys, keyDocument, keyRow, Record.ofFields, Record.get?, Entries.get?]
  obtain ⟨-, hfind, hagain⟩ := resolve_again hcompile
  have hresolve := hagain _ _ hread hbind hplain
  exact ⟨hcompile, hresolve, hfind.mp ⟨_, hresolve, rfl, rfl⟩⟩

/-- The document whose key is a template, once it is compiled. -/
def templateKeyDocument : Document :=
  keyDocument "{e}" (keyRow (.plain "x")) (some (keyRow (.plain "x"))) [("{e}", 0)]

/-- The reference keeps the key that was written, which no row has once it is rendered. -/
theorem not_resolve_again_template :
    compile .empty (.text "/" (keyText "{e}")) = .ok templateKeyDocument ∧
      templateKeyDocument.resolve = .error (.unknownKey "S" "{e}") := by
  constructor
  · decide +kernel
  · decide +kernel

end RowConfig
