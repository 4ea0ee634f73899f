import RowConfig.Proofs.Binding
import RowConfig.Proofs.Linking
import RowConfig.Proofs.Rendering
import RowConfig.Resolution

/-!
# Values that no pass changes

A value in which no inline row, reference or template is written is left alone by every pass, and a
bound row of such values by all passes after binding. A document that holds nothing else is resolved
as soon as it is bound and indexed (`Document.resolve_of_bind`).
-/

namespace RowConfig

namespace Value

/-- A pass has work to do at the value itself. -/
def isPending : Value → Bool
  | .instance _ => true
  | .reference .. => true
  | .text (.template ..) => true
  | _ => false

/-- No inline row, reference or template is written in the value. -/
def Settled (v : Value) : Prop := ∀ w, v.Holds w → w.isPending = false

variable {v : Value}

theorem Settled.part (h : v.Settled) {p : Value} (hp : p ∈ v.parts) : p.Settled :=
  fun w hw => h w (.of_part hp hw)

/-- A value is settled if nothing is to do at it and its parts are settled. -/
theorem settled_of_parts (hv : v.isPending = false) (h : ∀ p ∈ v.parts, p.Settled) : v.Settled := by
  intro w hw
  rcases holds_iff.mp hw with rfl | ⟨p, hp, hw⟩
  · exact hv
  · exact h p hp w hw

theorem settled_plain (content : String) : (Value.text (.plain content)).Settled :=
  settled_of_parts rfl fun p hp => by cases hp

theorem settled_null : Value.null.Settled := settled_of_parts rfl fun p hp => by cases hp

/-! ## One pass after another -/

theorem Settled.mapInstances_eq (h : v.Settled) (bind : Instance → Except Fault Instance) :
    Binding.mapInstances bind v = .ok v := by
  induction v using contents_induction with
  | step v ih =>
      cases v with
      | array items =>
          refine map_eq_ok_iff.mpr ⟨items, ?_, rfl⟩
          rw [Binding.mapInstances_items, List.forall₂_same]
          exact fun p hp => ih p hp (h.part hp)
      | «instance» row => exact Bool.noConfusion (h _ (.refl _))
      | _ => rfl

theorem Settled.mapReferences_eq (h : v.Settled) (follow : Linking.RowName → Except Fault Instance) :
    Linking.mapReferences follow v = .ok v := by
  induction v using contents_induction with
  | step v ih =>
      cases v with
      | array items =>
          refine map_eq_ok_iff.mpr ⟨items, ?_, rfl⟩
          rw [Linking.mapItems_eq_ok_iff, List.forall₂_same]
          exact fun p hp => ih p hp (h.part hp)
      | «instance» row => exact Bool.noConfusion (h _ (.refl _))
      | reference struct key target => exact Bool.noConfusion (h _ (.refl _))
      | _ => rfl

theorem Settled.rendered_eq (h : v.Settled) (s : Scope) : rendered s v = v := by
  induction v using contents_induction with
  | step v ih =>
      cases v with
      | array items =>
          rw [rendered, renderedItems_eq_map]
          congr 1
          conv => rhs; rw [← List.map_id items]
          exact List.map_congr_left fun p hp => ih p hp (h.part hp)
      | «instance» row => exact Bool.noConfusion (h _ (.refl _))
      | reference struct key target => exact Bool.noConfusion (h _ (.refl _))
      | text t =>
          cases t with
          | plain content => rfl
          | template source escapes => exact Bool.noConfusion (h _ (.refl _))
      | _ => rfl

end Value

open Value

/-! ## Rows of settled values -/

/-- All values of the fields are settled. -/
def Entries.Settled (fields : Entries Value) : Prop := ∀ v ∈ Entries.values fields, v.Settled

namespace Entries.Settled

variable {fields : Entries Value} {struct : String}

theorem tryMapValues_eq {f : Value → Except Fault Value} (h : fields.Settled)
    (hf : ∀ v : Value, v.Settled → f v = .ok v) : Entries.tryMapValues f fields = .ok fields := by
  rw [Entries.tryMapValues_eq_ok_iff, Entries.Pointwise, List.forall₂_same]
  exact fun entry hentry => ⟨rfl, hf _ (h _ (Entries.mem_values_of_mem hentry))⟩

theorem mapRow_eq (h : fields.Settled) (follow : Linking.RowName → Except Fault Instance) :
    Linking.mapRow follow (.ofFields struct fields) = .ok (.ofFields struct fields) := by
  refine Linking.mapRow_eq_ok_iff.mpr ⟨rfl, ?_, rfl⟩
  rw [Linking.mapFields_eq]
  exact h.tryMapValues_eq fun v hv => hv.mapReferences_eq follow

theorem renderedRow_eq (h : fields.Settled) (globals : Entries Value) :
    renderedRow globals (.ofFields struct fields) = .ofFields struct fields := by
  have hpointwise := pointwise_renderedRow globals (.ofFields struct fields)
  -- each field renders to itself, in whatever scope
  have hsame : Entries.Pointwise (· = ·) fields
      (renderedRow globals (.ofFields struct fields)).fields := by
    refine hpointwise.imp_of_mem ?_
    rintro v hv _ ⟨s, -, rfl⟩
    exact ((h v hv).rendered_eq s).symm
  show Record.mk struct (renderedRow globals (.ofFields struct fields)).fields none = _
  rw [← hsame.eq]
  rfl

/-- An instance that needs no more than to be arranged is bound by that. -/
theorem bindInstance_eq {tables : Entries Table} {row : Instance} (h : fields.Settled)
    (hrow : Binding.arrangeInstance tables row = .ok (.ofFields struct fields)) :
    bindInstance tables row = .ok (.ofFields struct fields) := by
  rw [bindInstance, maxDepth, Binding.bindWithin, hrow]
  show Except.map _ (Entries.tryMapValues _ fields) = _
  rw [h.tryMapValues_eq fun v hv => hv.mapInstances_eq _]
  rfl

end Entries.Settled

/-! ## Documents that are resolved once they are bound -/

/-- Neither linking nor rendering changes the value. -/
def Value.Inert (v : Value) : Prop :=
  (∀ follow, Linking.mapReferences follow v = .ok v) ∧ ∀ s, rendered s v = v

theorem Value.Settled.inert {v : Value} (h : v.Settled) : v.Inert :=
  ⟨h.mapReferences_eq, h.rendered_eq⟩

theorem Entries.Settled.inert {fields : Entries Value} (h : fields.Settled) (struct : String) :
    (Value.instance (.ofFields struct fields)).Inert := by
  refine ⟨fun follow => map_eq_ok_iff.mpr ⟨_, h.mapRow_eq follow, rfl⟩, fun s => ?_⟩
  rw [rendered, h.renderedRow_eq]

/-- Neither linking nor rendering changes anything in the document. -/
structure Document.Inert (d : Document) : Prop where
  globals : ∀ v ∈ Entries.values d.globals, v.Inert
  rows : ∀ entry ∈ d.tables, ∀ row ∈ entry.2.rows, (Value.instance row).Inert

namespace Document.Inert

variable {d : Document}

theorem link_eq (h : d.Inert) : d.link = .ok d := by
  refine link_eq_ok_iff.mpr ⟨?_, ?_⟩
  · rw [Entries.Pointwise, List.forall₂_same]
    exact fun entry hentry => ⟨rfl, (h.globals _ (Entries.mem_values_of_mem hentry)).1 _⟩
  · rw [Entries.Pointwise, List.forall₂_same]
    refine fun entry hentry => ⟨rfl, entry.2.rows, ?_, rfl⟩
    rw [Linking.linkRows_eq_ok_iff, List.forall₂_same]
    intro row hrow
    obtain ⟨row', hlinked, heq⟩ := map_eq_ok_iff.mp ((h.rows entry hentry row hrow).1 _)
    cases heq
    exact hlinked

theorem render_eq (h : d.Inert) : d.render = d := by
  have hglobals : Entries.mapValues (rendered ⟨none, d.globals⟩) d.globals = d.globals := by
    refine (Entries.pointwise_mapValues _ d.globals).imp_of_mem ?_ |>.eq.symm
    rintro v hv _ rfl
    exact ((h.globals v hv).2 _).symm
  have htables : Entries.mapValues (Table.rendered d.globals) d.tables = d.tables := by
    refine (Entries.pointwise_mapValues _ d.tables).imp_of_mem ?_ |>.eq.symm
    rintro t ht _ rfl
    obtain ⟨entry, hentry, rfl⟩ := List.mem_map.mp ht
    have hrows : entry.2.rows.map (renderedRow d.globals) = entry.2.rows := by
      conv => rhs; rw [← List.map_id entry.2.rows]
      refine List.map_congr_left fun row hrow => ?_
      have heq := (h.rows entry hentry row hrow).2 ⟨none, d.globals⟩
      rw [rendered] at heq
      exact Value.instance.inj heq
    rw [Table.rendered, hrows]
  show Document.mk _ _ = d
  rw [hglobals, htables]

end Document.Inert

/-- Where binding leaves only inert values, nothing but the indexes is added. -/
theorem Document.resolve_of_bind {d e : Document} (h : d.bind = .ok e) (he : e.Inert) :
    d.resolve = .ok e.buildIndexes := by
  have hindexed : e.buildIndexes.Inert := by
    refine ⟨he.globals, fun entry hentry row hrow => ?_⟩
    obtain ⟨entry', hentry', rfl⟩ := List.mem_map.mp hentry
    exact he.rows entry' hentry' row hrow
  unfold resolve
  rw [h]
  show Except.map _ e.buildIndexes.link = _
  rw [hindexed.link_eq]
  show Except.ok e.buildIndexes.render = _
  rw [hindexed.render_eq]

/-- Globals in which nothing is pending are compiled as they are read. -/
theorem Document.resolve_of_settled {globals : Entries Value} (h : globals.Settled) :
    (Document.mk globals []).resolve = .ok ⟨globals, []⟩ := by
  have hbind : (Document.mk globals []).bind = .ok ⟨globals, []⟩ := by
    have hvalues : Entries.tryMapValues (bindValue []) globals = .ok globals :=
      h.tryMapValues_eq fun v hv => hv.mapInstances_eq _
    unfold Document.bind
    simp only [hvalues, Entries.tryMapValues]
    rfl
  have hinert : (Document.mk globals []).Inert :=
    ⟨fun v hv => (h v hv).inert, fun entry hentry => by cases hentry⟩
  exact resolve_of_bind hbind hinert

end RowConfig
