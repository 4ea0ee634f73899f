import RowConfig.Proofs.Binding.Unbounded
import RowConfig.Proofs.Linking.Faults
import RowConfig.Proofs.Rows.Typed

/-!
# The calls that binding comes to

Every inline row of a document that was just read is a call as a reader made it, whether it stands
in a global, in a row or in a default (`Document.holdsCalls_of_ofLines`). Binding brings in more of
them: an argument is read when its call is bound, and may itself hold a call. So each instance that
binding comes to is a row of a struct or a call, at any depth (`Document.Enters.isCall`), and the
calls are what binding can refuse (`Document.exists_refused_of_bind`).
-/

namespace RowConfig

open Binding Relation Value

/-- The row is a call with these arguments, as a reader makes it. -/
def Record.IsCall (row : Instance) (arguments : List Char) : Prop :=
  ∃ (r : Reader) (s : Span) (name : List Char) (column : Nat),
    r.readCall s row.struct = .ok (.instance row) ∧
      Reader.splitCall? s = some (name, ⟨arguments, column⟩)

/-- Every inline row in the value is a call as a reader makes it. -/
def Value.HoldsCalls (v : Value) : Prop :=
  ∀ row, v.Holds (.instance row) → ∃ arguments, row.IsCall arguments

/-- Every inline row in a global, a row or a default is a call as a reader makes it. -/
structure Document.HoldsCalls (d : Document) : Prop where
  roots : ∀ v ∈ d.roots, v.HoldsCalls
  defaults : ∀ struct t, d.table? struct = some t → ∀ f ∈ t.fields, ∀ v, f.default = some v →
    v.HoldsCalls

namespace Value

theorem holdsCalls_of_scalar {v : Value} (hparts : v.parts = []) (hv : ∀ row, v ≠ .instance row) :
    v.HoldsCalls := by
  intro row hrow
  exact absurd hrow (not_holds_of_scalar hparts hv)

end Value

/-! ## Reading -/

namespace Reader

variable {r : Reader} {v : Value}

theorem holdsCalls_of_read {token : List Char} {type : FieldType} (h : r.read token type = .ok v) :
    v.HoldsCalls := by
  intro row hrow
  obtain ⟨s, expected, -, hread⟩ := exists_readCall_of_read h hrow
  obtain ⟨name, ⟨arguments, column⟩, fields, hsplit, -, rfl, -⟩ := exists_of_readCall hread
  exact ⟨arguments, r, s, name, column, hread, hsplit⟩

theorem holdsCalls_of_readFor {token : List Char} {field : Field}
    (h : r.readFor token field = .ok v) : v.HoldsCalls :=
  holdsCalls_of_read (read_of_readFor h)

end Reader

namespace Record

variable {row : Instance} {arguments : List Char}

/-- A call holds what its arguments are collected to. -/
theorem IsCall.collected (h : row.IsCall arguments) :
    ∃ column, Reader.collectArguments row.struct 0 [] false (Span.mk arguments column).arguments =
      .ok row.fields := by
  obtain ⟨r, s, name, column, hread, hsplit⟩ := h
  obtain ⟨name', arguments', fields, hsplit', -, hrow, hcollect⟩ := Reader.exists_of_readCall hread
  rw [hsplit] at hsplit'
  cases hsplit'
  refine ⟨column, hcollect.trans ?_⟩
  rw [hrow]

/-- The arguments of a call are texts, so nothing in them is a call yet. -/
theorem IsCall.holdsCalls_fields (h : row.IsCall arguments) :
    ∀ v ∈ Entries.values row.fields, v.HoldsCalls := by
  intro v hv
  obtain ⟨column, hcollect⟩ := h.collected
  obtain ⟨t, rfl⟩ := (Reader.texts_of_collectArguments hcollect).2 v hv
  exact holdsCalls_of_scalar rfl nofun

end Record

/-! ## Lines -/

namespace Builder

variable {b b' : Builder} {lines : List LogicalLine}

theorem globals_of_flush (h : b.flush = .ok b') : b'.document.globals = b.document.globals := by
  unfold flush at h
  split at h
  · cases h
    rfl
  · obtain ⟨t, row, -, -, rfl⟩ := addRow_eq_ok_iff.mp h
    rfl

/-- The inline rows in globals are calls as they were read. -/
theorem holdsCalls_globals (h : start.run lines = .ok b) :
    ∀ v ∈ Entries.values b.document.globals, v.HoldsCalls := by
  induction lines using List.reverseRecOn generalizing b with
  | nil =>
      cases h
      intro v hv
      cases hv
  | append_singleton lines l ih =>
      obtain ⟨before, hbefore, hfeed⟩ := run_snoc_eq_ok_iff.mp h
      have hglobals := ih hbefore
      rcases feed_cases hfeed with ⟨part, r, -, -, rfl⟩ | ⟨head, struct, flushed, -, hflush, -, rfl⟩ |
        ⟨kind, flushed, -, -, -, hflush, hdeclare⟩
      · exact hglobals
      · rw [← globals_of_flush hflush] at hglobals
        exact hglobals
      · rw [← globals_of_flush hflush] at hglobals
        cases declares_of_declare hdeclare with
        | header name =>
            rw [globals_header]
            exact hglobals
        | global _ hv =>
            intro w hw
            obtain ⟨entry, hentry, rfl⟩ := List.mem_map.mp hw
            rcases Entries.eq_or_mem_of_mem_insert hentry with rfl | hentry
            · split at hv
              · cases hv
                exact holdsCalls_of_scalar rfl nofun
              · exact Reader.holdsCalls_of_read hv
            · exact hglobals _ (Entries.mem_values_of_mem hentry)
        | _ => exact hglobals

/-- The inline rows in defaults are calls as they were read. -/
theorem holdsCalls_defaults (h : start.run lines = .ok b) (struct : String) :
    ∀ f ∈ b.document.fieldsOf struct, ∀ v, f.default = some v → v.HoldsCalls := by
  refine fieldsOf_induction
    (P := fun fields => ∀ f ∈ fields, ∀ v, f.default = some v → v.HoldsCalls) ?_ ?_ h struct
  · intro f hf
    cases hf
  · intro fields g hfields hg f hf v hv
    rcases Table.eq_or_mem_of_mem_placeField hf with rfl | hf
    · cases hg with
      | bare hbare =>
          rw [hbare.1] at hv
          cases hv
      | default _ _ hread =>
          cases hv
          exact Reader.holdsCalls_of_readFor hread
      | choices f' hbase _ =>
          -- choices leave the default as it was
          have hv : f'.default = some v := hv
          rcases hbase with hbare | hf'
          · rw [hbare.1] at hv
            cases hv
          · exact hfields f' (List.mem_of_find?_eq_some hf') v hv
    · exact hfields f hf v hv

end Builder

/-- Every inline row of a document that was just read is a call as a reader made it. -/
theorem Document.holdsCalls_of_ofLines {lines : List LogicalLine} {d : Document}
    (h : ofLines lines = .ok d) : d.HoldsCalls := by
  have hwritten := written_of_ofLines h
  obtain ⟨b, b', hrun, hflush, rfl⟩ := ofLines_eq_ok_iff.mp h
  constructor
  · intro v hv
    rcases mem_roots.mp hv with hv | ⟨entry, hentry, row, hrow, hv⟩
    · rw [Builder.globals_of_flush hflush] at hv
      exact Builder.holdsCalls_globals hrun v hv
    · have ht := Entries.get?_of_mem hwritten.nodup hentry
      obtain ⟨i, -, r, before, t, -, -, -, hread⟩ := exists_mem_left (built_of_ofLines h ht) hrow
      obtain ⟨e, he, rfl⟩ := List.mem_map.mp hv
      obtain ⟨g, -, -, reader, token, hvalue⟩ := RowText.origin_of_read hread e he
      exact Reader.holdsCalls_of_readFor hvalue
  · intro struct t ht
    have hdefaults := Builder.holdsCalls_defaults hrun struct
    rw [← Builder.fieldsOf_of_flush hflush, fieldsOf_of_table? ht] at hdefaults
    exact hdefaults

/-! ## Binding -/

namespace Binding

variable {tables : Entries Table} {row mid inner : Instance} {fault : Fault}

/-- The defaults of all fields hold calls only. -/
def DefaultCalls (tables : Entries Table) : Prop :=
  ∀ struct t, Entries.get? tables struct = some t → ∀ f ∈ t.fields, ∀ v, f.default = some v →
    v.HoldsCalls

/-- Arranging an instance reads the arguments of a call and brings in defaults. -/
theorem holdsCalls_of_arrangeInstance (htables : DefaultCalls tables)
    (hrow : ∀ v ∈ Entries.values row.fields, v.HoldsCalls)
    (h : arrangeInstance tables row = .ok mid) :
    ∀ v ∈ Entries.values mid.fields, v.HoldsCalls := by
  cases ht : Entries.get? tables row.struct with
  | none =>
      rw [arrangeInstance_of_undeclared ht] at h
      cases h
      exact hrow
  | some t =>
      obtain ⟨present, rfl, hpresent⟩ := arrangeInstance_cases ht h
      refine forall_mem_arrange ?_ (htables _ t ht) (holdsCalls_of_scalar rfl nofun)
      rcases hpresent with ⟨-, rfl⟩ | ⟨place, -, htyped⟩
      · exact hrow
      · intro v hv
        obtain ⟨e, he, rfl⟩ := List.mem_map.mp hv
        obtain ⟨argument, -, field, _, -, -, hread⟩ := origin_of_typeCall htyped e he
        exact Reader.holdsCalls_of_readFor hread

/-- An instance that is entered from a row is a call. The induction is on the instances between
them, each of which is the row itself or a call. -/
theorem isCall_of_enters (htables : DefaultCalls tables)
    (hrow : ∀ v ∈ Entries.values row.fields, v.HoldsCalls)
    (h : ReflTransGen (Enters tables) row inner) :
    inner = row ∨ ∃ arguments, inner.IsCall arguments := by
  induction h with
  | refl => exact .inl rfl
  | @tail outer inner _ hstep ih =>
      have houter : ∀ v ∈ Entries.values outer.fields, v.HoldsCalls := by
        rcases ih with rfl | ⟨arguments, hcall⟩
        · exact hrow
        · exact hcall.holdsCalls_fields
      obtain ⟨mid, harranged, hcomes⟩ := hstep
      have hmid := holdsCalls_of_arrangeInstance htables houter harranged
      obtain ⟨v, hv, hinner⟩ := mem_instancesOf.mp hcomes.mem
      exact .inr (hmid v hv inner (holds_of_mem_instances hinner))

/-- Binding an instance fails because one that it comes to is refused. -/
theorem Fails.exists_refused (h : Fails tables row fault) :
    ∃ inner, ReflTransGen (Enters tables) row inner ∧
      arrangeInstance tables inner = .error fault := by
  induction h with
  | @refused row _ hrefused => exact ⟨row, .refl, hrefused⟩
  | inside harranged hcomes _ ih =>
      obtain ⟨inner, hpath, hrefused⟩ := ih
      exact ⟨inner, .head ⟨_, harranged, hcomes⟩ hpath, hrefused⟩

/-- An instance that binding refuses, not for a circle, is one that it comes to. -/
theorem exists_refused_of_bindInstance (h : bindInstance tables row = .error fault)
    (hcircular : fault.isCircular = false) :
    ∃ inner, ReflTransGen (Enters tables) row inner ∧
      arrangeInstance tables inner = .error fault := by
  have houtcome : Outcome (Succeeds tables row) (Fails tables row) (Nests tables maxDepth row)
      (fault? (bindWithin tables maxDepth [] row)) := outcome_bindWithin maxDepth [] row
  rw [bindInstance] at h
  rw [h] at houtcome
  cases houtcome with
  | fault _ hfails => exact hfails.exists_refused
  | tooDeep htrue _ =>
      rw [hcircular] at htrue
      cases htrue

end Binding

/-! ## Documents -/

/-- Binding comes to the instance: it is a row or stands in a global, or is entered from one of
these, at any depth. -/
def Document.Enters (d : Document) (row : Instance) : Prop :=
  ∃ root, ((∃ v ∈ Entries.values d.globals, root ∈ v.instances) ∨
    ∃ entry ∈ d.tables, root ∈ entry.2.rows) ∧ ReflTransGen (Binding.Enters d.tables) root row

namespace Document

variable {d : Document} {row : Instance} {fault : Fault}

/-- A document that binding refuses, not for a circle, has an instance that is refused. -/
theorem exists_refused_of_bind (h : d.bind = .error fault) (hcircular : fault.isCircular = false) :
    ∃ row, d.Enters row ∧ arrangeInstance d.tables row = .error fault := by
  unfold bind at h
  split at h
  · next hglobals =>
    cases h
    obtain ⟨entry, hentry, hv⟩ := Entries.exists_of_tryMapValues hglobals
    have hfirst := fault?_eq_some_iff.mpr hv
    rw [fault?_bindValue] at hfirst
    obtain ⟨root, hroot, hfault⟩ := List.exists_of_findSome?_eq_some hfirst
    obtain ⟨inner, hpath, hrefused⟩ :=
      exists_refused_of_bindInstance (fault?_eq_some_iff.mp hfault) hcircular
    exact ⟨inner, ⟨root, .inl ⟨entry.2, Entries.mem_values_of_mem hentry, hroot⟩, hpath⟩, hrefused⟩
  · obtain ⟨entry, hentry, hrows⟩ := Entries.exists_of_tryMapValues (map_eq_error_iff.mp h)
    obtain ⟨root, hroot, hfault⟩ := exists_of_pass_eq_error (bindInstance d.tables)
      (bindRows d.tables) rfl
      (fun row rows => by rw [bindRows]; cases bindInstance d.tables row <;> rfl)
      (map_eq_error_iff.mp hrows)
    obtain ⟨inner, hpath, hrefused⟩ := exists_refused_of_bindInstance hfault hcircular
    exact ⟨inner, ⟨root, .inr ⟨entry, hentry, hroot⟩, hpath⟩, hrefused⟩

/-- What binding comes to is bound already, or a call. -/
theorem Enters.isCall {lines : List LogicalLine} (hd : ofLines lines = .ok d) (h : d.Enters row)
    (hcall : row.call.isSome) : ∃ arguments, row.IsCall arguments := by
  have hholds := holdsCalls_of_ofLines hd
  obtain ⟨root, ⟨v, hv, hroot⟩ | ⟨entry, hentry, hroot⟩, hpath⟩ := h
  · obtain ⟨arguments, hrootCall⟩ :=
      hholds.roots v (mem_roots.mpr (.inl hv)) root (holds_of_mem_instances hroot)
    rcases isCall_of_enters hholds.defaults hrootCall.holdsCalls_fields hpath with rfl | hinner
    · exact ⟨arguments, hrootCall⟩
    · exact hinner
  · have hfields : ∀ v ∈ Entries.values root.fields, v.HoldsCalls := fun v hv =>
      hholds.roots v (mem_roots.mpr (.inr ⟨entry, hentry, root, hroot, hv⟩))
    rcases isCall_of_enters hholds.defaults hfields hpath with rfl | hinner
    · -- the rows of a struct are bound
      have hwritten := (written_of_ofLines hd).tables entry hentry
      rw [(hwritten.rows row hroot).bound] at hcall
      cases hcall
    · exact hinner

end Document

end RowConfig
