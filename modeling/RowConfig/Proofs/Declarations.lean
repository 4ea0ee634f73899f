import RowConfig.Proofs.Exporting
import RowConfig.Proofs.Indexing

/-!
# The declarations of a struct

What lines make of a struct are changes to a new one, one after the other, and the fields that these
changes declare are those of the field lines under the struct's header (`Builder.changesTo_of_run`).
What holds of a new struct and is kept by every change thus holds of the structs of a document,
after each of its lines.
-/

namespace RowConfig

/-! ## Declarations -/

/-- The name of a field, and whether it is marked as primary key. -/
def Field.mark (f : Field) : String × Bool := (f.name, f.isKey)

/-- The name and the mark of the field that a change declares. -/
def Table.Change.declared? : Table.Change → Option (String × Bool)
  | .addField f => some f.mark
  | _ => none

/-- The name and the mark of the field of a struct that a line declares. -/
def LogicalLine.declared? (l : LogicalLine) : Option (String × Bool) :=
  match LineKind.ofLine? l.text.toList with
  | some (.field f) => if f.isGlobal then none else some (String.ofList f.name.text, f.isKey)
  | _ => none

/-- A line that continues a row declares no field. -/
theorem LogicalLine.declared?_of_continuation? {l : LogicalLine} {part : RowPart}
    (h : l.continuation? = some part) : l.declared? = none := by
  obtain ⟨text, hkind, -⟩ := exists_continuation h
  rw [declared?, hkind]

/-- A line that begins a row declares no field. -/
theorem LogicalLine.declared?_of_rowPart? {l : LogicalLine} {head : RowPart}
    (h : l.rowPart? = some head) : l.declared? = none := by
  obtain ⟨arguments, hkind, -⟩ := exists_arguments h
  rw [declared?, hkind]

/-- The declarations of fields that lines make while the struct's header is the last one. -/
def declarations (lines : List LogicalLine) (struct : String) : List (String × Bool) :=
  (List.range lines.length).filterMap fun i =>
    if openStruct? (lines.take i) = some struct then lines[i]?.bind LogicalLine.declared? else none

theorem declarations_snoc (lines : List LogicalLine) (l : LogicalLine) (struct : String) :
    declarations (lines ++ [l]) struct = declarations lines struct ++
      if openStruct? lines = some struct then l.declared?.toList else [] := by
  unfold declarations
  rw [List.length_append, List.length_singleton, List.range_succ, List.filterMap_append]
  congr 1
  · apply List.filterMap_congr
    intro i hi
    have hlt : i < lines.length := List.mem_range.mp hi
    rw [List.take_append_of_le_length (Nat.le_of_lt hlt), List.getElem?_append_left hlt]
  · rw [List.filterMap_cons, List.filterMap_nil, List.take_left, List.getElem?_concat_length,
      Option.bind_some]
    by_cases hopen : openStruct? lines = some struct
    · rw [if_pos hopen, if_pos hopen]
      cases l.declared? <;> rfl
    · rw [if_neg hopen, if_neg hopen]

/-! ## Changes that lines make -/

namespace Document

variable {c d e : Document} {struct name : String} {t : Table} {declared more : List (String × Bool)}

/-- A struct as it is declared so far, a new one if it is not declared. -/
def tableOf (d : Document) (struct : String) : Table := (d.table? struct).getD (.empty struct)

theorem tableOf_of_table? (ht : d.table? struct = some t) : d.tableOf struct = t := by
  rw [tableOf, ht, Option.getD_some]

theorem tableOf_modifyTable (ht : d.table? name = some t) (change : Table → Table)
    (struct : String) :
    (d.modifyTable name change).tableOf struct =
      if struct = name then change t else d.tableOf struct := by
  rw [tableOf, table?_modifyTable, tableOf]
  by_cases heq : struct = name
  · subst heq
    simp [ht]
  · simp [heq]

/-- Changes that declare these fields make the struct of one document that of the other. -/
def ChangesTo (declared : List (String × Bool)) (struct : String) (d e : Document) : Prop :=
  ∃ changes, e.tableOf struct = (d.tableOf struct).applyAll changes ∧
    changes.filterMap Table.Change.declared? = declared

namespace ChangesTo

theorem of_eq (h : e.tableOf struct = d.tableOf struct) : ChangesTo [] struct d e :=
  ⟨[], h, rfl⟩

theorem trans (h : ChangesTo declared struct c d) (h' : ChangesTo more struct d e) :
    ChangesTo (declared ++ more) struct c e := by
  obtain ⟨changes, hd, hdeclared⟩ := h
  obtain ⟨changes', he, hmore⟩ := h'
  refine ⟨changes ++ changes', ?_, ?_⟩
  · rw [he, hd, Table.applyAll, Table.applyAll, Table.applyAll, List.foldl_append]
  · rw [List.filterMap_append, hdeclared, hmore]

/-- Changes of one struct leave the others as they are. -/
theorem modifyTable {change : Table → Table} (ht : d.table? name = some t)
    (h : ∃ changes, change t = t.applyAll changes ∧
      changes.filterMap Table.Change.declared? = declared) :
    ChangesTo (if name = struct then declared else []) struct d (d.modifyTable name change) := by
  by_cases heq : name = struct
  · subst heq
    rw [if_pos rfl]
    obtain ⟨changes, hchange, hdeclared⟩ := h
    refine ⟨changes, ?_, hdeclared⟩
    rw [tableOf_modifyTable ht, if_pos rfl, hchange, tableOf_of_table? ht]
  · rw [if_neg heq]
    apply of_eq
    rw [tableOf_modifyTable ht, if_neg (Ne.symm heq)]

/-- Changes that declare nothing do so for every struct. -/
theorem modifyTable_of_nil {change : Table → Table} (ht : d.table? name = some t)
    (h : ∃ changes, change t = t.applyAll changes ∧
      changes.filterMap Table.Change.declared? = []) :
    ChangesTo [] struct d (d.modifyTable name change) := by
  have hchanges : ChangesTo (if name = struct then [] else []) struct d (d.modifyTable name change) :=
    modifyTable ht h
  rwa [ite_self] at hchanges

end ChangesTo

end Document

open Document Table

namespace Builder

variable {b b' : Builder} {l : LogicalLine} {lines : List LogicalLine} {struct : String}

theorem current_of_flush (h : b.flush = .ok b') : b'.current = b.current := by
  unfold flush at h
  split at h
  · cases h
    rfl
  · obtain ⟨t, row, -, -, rfl⟩ := addRow_eq_ok_iff.mp h
    rfl

/-- A header opens its struct, and no other line does. -/
theorem current_of_feed (h : b.feed l = .ok b') : b'.current = l.header?.or b.current := by
  rcases feed_cases h with ⟨part, r, hpart, -, rfl⟩ | ⟨head, struct, flushed, hhead, hflush, -, rfl⟩ |
    ⟨kind, flushed, hkind, hcontinuation, hpart, hflush, hdeclare⟩
  · rw [(of_continuation? hpart).1]
    rfl
  · rw [(of_rowPart? hhead).1]
    show flushed.current = _
    rw [current_of_flush hflush]
    rfl
  · rw [(declare_effect hkind hcontinuation hpart hdeclare).2.1, current_of_flush hflush]

theorem current_of_run (h : start.run lines = .ok b) : b.current = openStruct? lines := by
  induction lines using List.reverseRecOn generalizing b with
  | nil =>
      cases h
      rfl
  | append_singleton lines l ih =>
      obtain ⟨before, hbefore, hfeed⟩ := run_snoc_eq_ok_iff.mp h
      rw [current_of_feed hfeed, ih hbefore, openStruct?_append, openStruct?_singleton]

/-- The struct that is open is declared. -/
theorem exists_open_of_run (h : start.run lines = .ok b) {name : String}
    (hname : b.current = some name) : ∃ t, b.document.table? name = some t := by
  apply Entries.exists_get?_iff.mpr
  have hnames := (Prod.mk.inj (namesOf_of_run h)).2
  show name ∈ b.document.structNames
  rw [hnames, List.mem_eraseDups]
  rw [current_of_run h] at hname
  exact List.mem_of_getLast? hname

theorem changesTo_of_flush (h : b.flush = .ok b') (struct : String) :
    ChangesTo [] struct b.document b'.document := by
  unfold flush at h
  split at h
  · cases h
    exact .of_eq rfl
  · obtain ⟨t, row, ht, -, rfl⟩ := addRow_eq_ok_iff.mp h
    exact .modifyTable_of_nil ht ⟨[.addRow row], rfl, rfl⟩

theorem tableOf_header (b : Builder) (name struct : String) :
    (b.header name).document.tableOf struct = b.document.tableOf struct := by
  unfold header
  simp only
  split
  · rfl
  · next hnone =>
    unfold tableOf table? at *
    simp only [Entries.get?_insert]
    by_cases heq : name = struct
    · -- the new struct is the one that stood for it
      subst heq
      rw [hnone, if_pos rfl]
      rfl
    · rw [if_neg heq]

/-- A field line declares the field that it names. -/
theorem mark_of_fieldOf {f : FieldLine} {g : Field} (h : b.fieldOf l f = .ok g) :
    g.mark = (String.ofList f.name.text, f.isKey) := by
  unfold fieldOf at h
  simp only at h
  split at h
  · cases h
    rfl
  · split at h
    · obtain ⟨_, -, rfl⟩ := map_eq_ok_iff.mp h
      rfl
    · obtain ⟨_, -, rfl⟩ := map_eq_ok_iff.mp h
      rfl

theorem apply_of_setDefault {t u : Table} {name : String} {default : Option Value}
    (h : t.setDefault name default = .ok u) : t.apply (.setDefault name default) = u := by
  rw [apply, h]
  rfl

theorem apply_of_setChoices {t u : Table} {name : String} {choices : Option (List Value)}
    (h : t.setChoices name choices = .ok u) : t.apply (.setChoices name choices) = u := by
  rw [apply, h]
  rfl

/-- An override makes changes that declare no field. -/
theorem exists_changes_of_overridden {t u : Table} {field : Field} {value : Part}
    (h : b.overridden l t field value = .ok u) :
    ∃ changes, u = t.applyAll changes ∧ changes.filterMap Change.declared? = [] := by
  unfold overridden at h
  split at h
  · split at h
    · cases h
    · next t' hdefault =>
      refine ⟨[.setDefault field.name none, .setChoices field.name none], ?_, rfl⟩
      rw [← apply_of_setChoices h, ← apply_of_setDefault hdefault]
      rfl
  · split at h
    · split at h
      · cases h
      · exact ⟨[.setChoices field.name _], (apply_of_setChoices h).symm, rfl⟩
    · split at h
      · cases h
      · exact ⟨[.setDefault field.name _], (apply_of_setDefault h).symm, rfl⟩

theorem changesTo_of_declare {kind : LineKind} (hkind : LineKind.ofLine? l.text.toList = some kind)
    (hopen : ∀ name, b.current = some name → ∃ t, b.document.table? name = some t)
    (h : b.declare l kind = .ok b') (struct : String) :
    ChangesTo (if b.current = some struct then l.declared?.toList else []) struct b.document
      b'.document := by
  unfold LogicalLine.declared?
  rw [hkind]
  cases declares_of_declare h with
  | @field f name g hfield hcurrent hg =>
      obtain ⟨t, ht⟩ := hopen name hcurrent
      simp only [hfield, hcurrent, Option.some.injEq]
      refine .modifyTable ht ⟨[.addField g], rfl, ?_⟩
      rw [← mark_of_fieldOf hg]
      rfl
  | header name =>
      rw [Option.toList_none, ite_self]
      exact .of_eq (tableOf_header b _ struct)
  | global hglobal _ =>
      simp only [hglobal, if_true, Option.toList_none, ite_self]
      exact .of_eq rfl
  | override _ ht _ hu =>
      rw [Option.toList_none, ite_self]
      exact .modifyTable_of_nil ht (exists_changes_of_overridden hu)
  | _ =>
      rw [Option.toList_none, ite_self]
      exact .of_eq rfl

/-- A line makes changes of the struct that is open, which declare the field that it declares. -/
theorem changesTo_of_feed
    (hopen : ∀ name, b.current = some name → ∃ t, b.document.table? name = some t)
    (h : b.feed l = .ok b') (struct : String) :
    ChangesTo (if b.current = some struct then l.declared?.toList else []) struct b.document
      b'.document := by
  rcases feed_cases h with ⟨part, r, hpart, -, rfl⟩ | ⟨head, open', flushed, hhead, hflush, -, rfl⟩ |
    ⟨kind, flushed, hkind, -, -, hflush, hdeclare⟩
  · rw [LogicalLine.declared?_of_continuation? hpart, Option.toList_none, ite_self]
    exact .of_eq rfl
  · rw [LogicalLine.declared?_of_rowPart? hhead, Option.toList_none, ite_self]
    exact changesTo_of_flush hflush struct
  · have hflushed : ∀ name, flushed.current = some name →
        ∃ t, flushed.document.table? name = some t := by
      intro name hname
      rw [current_of_flush hflush] at hname
      obtain ⟨t, ht⟩ := hopen name hname
      have hnames := (Prod.mk.inj (namesOf_of_flush hflush)).2
      apply Entries.exists_get?_iff.mpr
      show name ∈ flushed.document.structNames
      rw [hnames]
      exact Entries.exists_get?_iff.mp ⟨t, ht⟩
    have hchanges := changesTo_of_declare hkind hflushed hdeclare struct
    rw [current_of_flush hflush] at hchanges
    exact (changesTo_of_flush hflush struct).trans hchanges

/-- A struct is what changes make of a new one, which declare the fields that the lines declare. -/
theorem changesTo_of_run (h : start.run lines = .ok b) (struct : String) :
    ChangesTo (declarations lines struct) struct .empty b.document := by
  induction lines using List.reverseRecOn generalizing b with
  | nil =>
      cases h
      exact .of_eq rfl
  | append_singleton lines l ih =>
      obtain ⟨before, hbefore, hfeed⟩ := run_snoc_eq_ok_iff.mp h
      have hline := changesTo_of_feed (fun _ => exists_open_of_run hbefore) hfeed struct
      rw [declarations_snoc, ← current_of_run hbefore]
      exact (ih hbefore).trans hline

end Builder

theorem Document.changesTo_of_ofLines {lines : List LogicalLine} {d : Document}
    (h : ofLines lines = .ok d) (struct : String) :
    ChangesTo (declarations lines struct) struct .empty d := by
  obtain ⟨b, b', hrun, hflush, rfl⟩ := ofLines_eq_ok_iff.mp h
  have hchanges := (Builder.changesTo_of_run hrun struct).trans
    (Builder.changesTo_of_flush hflush struct)
  rwa [List.append_nil] at hchanges

end RowConfig
