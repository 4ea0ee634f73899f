import RowConfig.Proofs.Rows.Exported

/-!
# The entries of the output

Globals and structs stand in the order in which lines first declare them. The output has an entry
for each global, and then one for each struct that has a key, in these orders; only a global and
such a struct with one name share an entry, the rows of the struct in the place of the global
(`exports_of_compile`).
-/

namespace RowConfig

/-! ## Names in the order of their first occurrence -/

theorem eraseDups_snoc (names : List String) (name : String) :
    (names ++ [name]).eraseDups = withName names.eraseDups name := by
  rw [List.eraseDups_append, withName]
  by_cases hin : name ∈ names
  · simp [List.removeAll, hin]
  · simp [List.removeAll, hin, List.eraseDups_cons]

theorem nodup_eraseDups (names : List String) : names.eraseDups.Nodup := by
  induction names using List.reverseRecOn with
  | nil => exact List.nodup_nil
  | append_singleton names name ih =>
      rw [eraseDups_snoc]
      exact nodup_withName ih name

/-- The names once a line, or what else may give a name, has been read. -/
def withName? (names : List String) : Option String → List String
  | some name => withName names name
  | none => names

/-- What the elements of a list name, each name at its first occurrence. -/
theorem eraseDups_filterMap_snoc {α : Type} (name? : α → Option String) (as : List α) (a : α) :
    ((as ++ [a]).filterMap name?).eraseDups = withName? (as.filterMap name?).eraseDups (name? a) := by
  rw [List.filterMap_append, List.filterMap_cons]
  cases name? a with
  | none =>
      rw [List.filterMap_nil, List.append_nil]
      rfl
  | some name => exact eraseDups_snoc _ name

namespace Entries

variable {α β : Type}

/-- Giving a name that is there a value changes the one entry of that name. -/
theorem insert_of_mem {es : Entries α} {name : String} (hnodup : (names es).Nodup)
    (h : name ∈ names es) (v : α) :
    insert name v es = es.map fun e => if e.1 = name then (name, v) else e := by
  induction es with
  | nil => cases h
  | cons e es ih =>
      obtain ⟨k, w⟩ := e
      obtain ⟨hk, hnodup⟩ := List.nodup_cons.mp hnodup
      rw [insert, List.map_cons]
      by_cases heq : k = name
      · subst heq
        rw [if_pos rfl, if_pos rfl]
        congr 1
        -- the other entries have other names
        have hstay : ∀ e ∈ es, (if e.1 = k then (k, v) else e) = e := by
          intro e he
          rw [if_neg]
          intro heq
          have hin := mem_names_of_mem he
          rw [heq] at hin
          exact hk hin
        rw [List.map_congr_left hstay, List.map_id']
      · rw [if_neg heq, if_neg heq]
        congr 1
        apply ih hnodup
        rcases List.mem_cons.mp h with hname | hin
        · exact absurd hname.symm heq
        · exact hin

/-- Inserting pairs, no two of one name: entries keep their places and get the values of the pairs
of their names, and the pairs of other names follow. -/
theorem foldl_insert_eq (f : α → β) {pairs : Entries α} {es : Entries β}
    (hpairs : (names pairs).Nodup) (hes : (names es).Nodup) :
    pairs.foldl (fun es (k, v) => insert k (f v) es) es =
      (es.map fun e => (e.1, ((get? pairs e.1).map f).getD e.2)) ++
        mapValues f (pairs.filter fun p => p.1 ∉ names es) := by
  induction pairs generalizing es with
  | nil => simp [get?, mapValues]
  | cons pair pairs ih =>
      obtain ⟨k, v⟩ := pair
      obtain ⟨hk, hpairs⟩ := List.nodup_cons.mp hpairs
      rw [List.foldl_cons, ih hpairs (nodup_names_insert hes), names_insert]
      by_cases hin : k ∈ names es
      · rw [if_pos hin, insert_of_mem hes hin, List.map_map]
        congr 1
        · apply List.map_congr_left
          intro e _
          by_cases heq : e.1 = k
          · simp [get?, heq, get?_eq_none hk]
          · simp [get?, heq, Ne.symm heq]
        · rw [List.filter_cons_of_neg]
          simpa using hin
      · rw [if_neg hin, insert_of_not_mem hin, List.map_append, List.append_assoc]
        congr 1
        · apply List.map_congr_left
          intro e he
          have hne : k ≠ e.1 := by
            rintro rfl
            exact hin (mem_names_of_mem he)
          simp [get?, hne]
        · -- the pair comes before those after it, none of which has its name
          have hrest : pairs.filter (fun p => p.1 ∉ names es ++ [k]) =
              pairs.filter fun p => p.1 ∉ names es := by
            apply List.filter_congr
            intro p hp
            have hne : p.1 ≠ k := by
              intro heq
              have hin := mem_names_of_mem hp
              rw [heq] at hin
              exact hk hin
            simp [hne]
          rw [hrest, List.filter_cons_of_pos (by simpa using hin)]
          simp [mapValues, get?_eq_none hk]

end Entries

/-! ## Names that lines declare -/

/-- The name of the global that a line declares. -/
def LogicalLine.global? (l : LogicalLine) : Option String :=
  match LineKind.ofLine? l.text.toList with
  | some (.field f) => if f.isGlobal then some (String.ofList f.name.text) else none
  | _ => none

/-- The names of the globals and of the structs, in their order. -/
def Document.namesOf (d : Document) : List String × List String :=
  (Entries.names d.globals, d.structNames)

theorem of_continuation?_global {l : LogicalLine} {part : RowPart} (h : l.continuation? = some part) :
    l.global? = none := by
  obtain ⟨text, hkind, -⟩ := exists_continuation h
  rw [LogicalLine.global?, hkind]

theorem of_rowPart?_global {l : LogicalLine} {part : RowPart} (h : l.rowPart? = some part) :
    l.global? = none := by
  obtain ⟨arguments, hkind, -⟩ := exists_arguments h
  rw [LogicalLine.global?, hkind]

namespace Builder

variable {b b' : Builder} {l : LogicalLine}

theorem namesOf_modifyTable (d : Document) (name : String) (change : Table → Table) :
    (d.modifyTable name change).namesOf = d.namesOf := by
  unfold Document.namesOf Document.structNames Document.modifyTable
  simp only
  rw [Entries.names_modify]

/-- Completing a row declares no name. -/
theorem namesOf_of_flush (h : b.flush = .ok b') : b'.document.namesOf = b.document.namesOf := by
  unfold flush at h
  split at h
  · cases h
    rfl
  · obtain ⟨t, row, -, -, rfl⟩ := addRow_eq_ok_iff.mp h
    exact namesOf_modifyTable b.document _ _

theorem structNames_header (b : Builder) (name : String) :
    (b.header name).document.structNames = withName b.document.structNames name := by
  unfold header
  simp only
  split
  · next t ht =>
    have hin : name ∈ b.document.structNames := Entries.exists_get?_iff.mp ⟨t, ht⟩
    rw [withName, if_pos hin]
  · exact Entries.names_insert b.document.tables name (.empty name)

/-- A line declares the global or the struct that it names, unless it is declared already. -/
theorem namesOf_of_declare {kind : LineKind} (hkind : LineKind.ofLine? l.text.toList = some kind)
    (h : b.declare l kind = .ok b') :
    b'.document.namesOf = (withName? (Entries.names b.document.globals) l.global?,
      withName? b.document.structNames l.header?) := by
  unfold LogicalLine.global? LogicalLine.header?
  rw [hkind]
  cases declares_of_declare h with
  | header name =>
      rw [Document.namesOf, globals_header, structNames_header]
      rfl
  | @global f v hglobal _ =>
      simp only [hglobal, if_true]
      rw [withName?, withName, ← Entries.names_insert b.document.globals _ v]
      rfl
  | field hfield _ _ =>
      simp only [hfield]
      exact namesOf_modifyTable b.document _ _
  | undeclared _ _ => rfl
  | override _ _ _ _ => exact namesOf_modifyTable b.document _ _
  | row _ => rfl
  | continuation _ => rfl

theorem namesOf_of_feed (h : b.feed l = .ok b') :
    b'.document.namesOf = (withName? (Entries.names b.document.globals) l.global?,
      withName? b.document.structNames l.header?) := by
  rcases feed_cases h with ⟨part, r, hpart, -, rfl⟩ | ⟨head, struct, flushed, hhead, hflush, -, rfl⟩ |
    ⟨kind, flushed, hkind, -, -, hflush, hdeclare⟩
  · rw [of_continuation?_global hpart, (of_continuation? hpart).1]
    rfl
  · rw [of_rowPart?_global hhead, (of_rowPart? hhead).1]
    show flushed.document.namesOf = b.document.namesOf
    exact namesOf_of_flush hflush
  · have hnames := namesOf_of_flush hflush
    rw [Document.namesOf, Document.namesOf, Prod.mk.injEq] at hnames
    rw [namesOf_of_declare hkind hdeclare, hnames.1, hnames.2]

/-- Globals and structs stand in the order in which lines declare them first. -/
theorem namesOf_of_run {lines : List LogicalLine} (h : start.run lines = .ok b) :
    b.document.namesOf = ((lines.filterMap LogicalLine.global?).eraseDups,
      (lines.filterMap LogicalLine.header?).eraseDups) := by
  induction lines using List.reverseRecOn generalizing b with
  | nil =>
      cases h
      rfl
  | append_singleton lines l ih =>
      obtain ⟨before, hbefore, hfeed⟩ := run_snoc_eq_ok_iff.mp h
      have hnames := ih hbefore
      rw [Document.namesOf, Prod.mk.injEq] at hnames
      rw [namesOf_of_feed hfeed, hnames.1, hnames.2, eraseDups_filterMap_snoc,
        eraseDups_filterMap_snoc]

end Builder

namespace Document

variable {d e : Document} {lines : List LogicalLine}

theorem namesOf_of_ofLines (h : ofLines lines = .ok d) :
    d.namesOf = ((lines.filterMap LogicalLine.global?).eraseDups,
      (lines.filterMap LogicalLine.header?).eraseDups) := by
  obtain ⟨b, b', hrun, hflush, rfl⟩ := ofLines_eq_ok_iff.mp h
  rw [Builder.namesOf_of_flush hflush]
  exact Builder.namesOf_of_run hrun

/-- The passes keep all names. -/
theorem namesOf_resolve (h : d.resolve = .ok e) : e.namesOf = d.namesOf := by
  rw [namesOf, structNames_resolve h]
  obtain ⟨bound, linked, hbound, hlinked, rfl⟩ := resolve_eq_ok_iff.mp h
  have hglobals : Entries.names linked.render.globals = Entries.names d.globals := calc
    Entries.names linked.render.globals
      = Entries.names linked.globals := (Entries.pointwise_mapValues _ linked.globals).names_eq.symm
    _ = Entries.names bound.globals := (link_eq_ok_iff.mp hlinked).1.names_eq.symm
    _ = Entries.names d.globals := (pointwise_of_bind hbound).1.names_eq.symm
  rw [hglobals]
  rfl

/-! ## The output -/

/-- The structs that have a key. -/
def keyedTables (d : Document) : Entries Table := d.tables.filter fun e => e.2.key.isSome

/-- What the output has in the place of a global: the rows of the keyed struct of its name, if there
is one. -/
def globalNode (d : Document) (name : String) (v : Value) : Node :=
  match Entries.get? d.keyedTables name with
  | some t => rowsNode t
  | none => v.toNode

/-- The output has one entry for each global, then one for each struct with a key. -/
def ExportsAll (d : Document) : Prop :=
  d.exportEntries =
      Entries.mapValues Value.toNode d.globals ++ Entries.mapValues rowsNode d.keyedTables ∧
    d.exportEntries.length = d.globals.length + d.keyedTables.length

theorem exportEntries_eq (hglobals : (Entries.names d.globals).Nodup)
    (hstructs : d.structNames.Nodup) :
    d.exportEntries = (d.globals.map fun e => (e.1, d.globalNode e.1 e.2)) ++
      Entries.mapValues rowsNode
        (d.keyedTables.filter fun e => e.1 ∉ Entries.names d.globals) := by
  have hkeyed : (Entries.names d.keyedTables).Nodup :=
    hstructs.sublist (List.filter_sublist.map Prod.fst)
  have hnames : Entries.names (Entries.mapValues Value.toNode d.globals) = Entries.names d.globals :=
    (Entries.pointwise_mapValues Value.toNode d.globals).names_eq.symm
  have hexport := Entries.foldl_insert_eq rowsNode hkeyed (hnames ▸ hglobals)
  rw [hnames] at hexport
  refine hexport.trans ?_
  congr 1
  rw [Entries.mapValues, List.map_map]
  apply List.map_congr_left
  rintro ⟨name, v⟩ _
  show (name, _) = (name, d.globalNode name v)
  rw [globalNode]
  cases Entries.get? d.keyedTables name <;> rfl

/-- Nothing is missing from the output unless a global has the name of a struct with a key. -/
theorem exportsAll_iff (hglobals : (Entries.names d.globals).Nodup) (hstructs : d.structNames.Nodup) :
    d.ExportsAll ↔ ∀ name ∈ Entries.names d.globals, name ∉ Entries.names d.keyedTables := by
  have hexport := exportEntries_eq hglobals hstructs
  constructor
  · rintro ⟨-, hlength⟩ name hname hkeyed
    obtain ⟨t, ht⟩ := Entries.exists_get?_iff.mpr hkeyed
    -- the struct has no entry of its own, so that there are too few
    rw [hexport, List.length_append, List.length_map, Entries.mapValues, List.length_map] at hlength
    have hall := List.length_filter_eq_length_iff.mp (Nat.add_left_cancel hlength) _
      (Entries.mem_of_get? ht)
    simp [hname] at hall
  · intro hdisjoint
    have hall : d.exportEntries =
        Entries.mapValues Value.toNode d.globals ++ Entries.mapValues rowsNode d.keyedTables := by
      rw [hexport]
      congr 1
      · apply List.map_congr_left
        rintro ⟨name, v⟩ hin
        have hnone := Entries.get?_eq_none (hdisjoint name (Entries.mem_names_of_mem hin))
        show (name, d.globalNode name v) = (name, v.toNode)
        rw [globalNode, hnone]
      · rw [List.filter_eq_self.mpr]
        intro e he
        have hout : e.1 ∉ Entries.names d.globals := by
          intro hin
          exact hdisjoint e.1 hin (Entries.mem_names_of_mem he)
        simpa using hout
    refine ⟨hall, ?_⟩
    rw [hall, List.length_append, Entries.mapValues, List.length_map, Entries.mapValues,
      List.length_map]

end Document

/-- Globals and structs with a key are exported in the order in which lines first declare them,
except that a struct with the name of a global takes the global's place. Unless there is such a
struct, every global and every struct with a key has an entry of its own. -/
theorem exports_of_compile {s : Sources} {input : Input} {e : Document}
    (h : compile s input = .ok e) :
    ∃ physical lines, input.lines s = .ok physical ∧ assemble physical = .ok lines ∧
      Entries.names e.globals = (lines.filterMap LogicalLine.global?).eraseDups ∧
      e.structNames = (lines.filterMap LogicalLine.header?).eraseDups ∧
      e.exportEntries = (e.globals.map fun g => (g.1, e.globalNode g.1 g.2)) ++
        Entries.mapValues Document.rowsNode
          (e.keyedTables.filter fun k => k.1 ∉ Entries.names e.globals) ∧
      (e.ExportsAll ↔
        ∀ name ∈ Entries.names e.globals, name ∉ Entries.names e.keyedTables) := by
  obtain ⟨physical, lines, d, hphysical, hlines, hd, he⟩ := exists_lines_of_compile h
  have hnames := (Document.namesOf_resolve he).trans (Document.namesOf_of_ofLines hd)
  rw [Document.namesOf, Prod.mk.injEq] at hnames
  have hglobals : (Entries.names e.globals).Nodup := hnames.1 ▸ nodup_eraseDups _
  have hstructs : e.structNames.Nodup := hnames.2 ▸ nodup_eraseDups _
  exact ⟨physical, lines, hphysical, hlines, hnames.1, hnames.2,
    Document.exportEntries_eq hglobals hstructs, Document.exportsAll_iff hglobals hstructs⟩

/-- A global and a struct of one name. -/
def sharedText : String := "str Host: x\nHost:\n  *str name:\n  - a\n"

/-- The struct of `sharedText`. -/
def sharedTable : Table :=
  ⟨"Host", [{ Field.ofType "name" ⟨.str, false⟩ with isKey := true }], some "name",
    [.ofFields "Host" [("name", .text (.plain "a"))]], [("a", 0)]⟩

/-- What `sharedText` compiles to. -/
def sharedDocument : Document := ⟨[("Host", .text (.plain "x"))], [("Host", sharedTable)]⟩

theorem compile_sharedText : compile .empty (.text "/" sharedText) = .ok sharedDocument := by
  decide +kernel

theorem exports_of_compile_shared :
    compile .empty (.text "/" sharedText) = .ok sharedDocument ∧
      ∃ physical lines, (Input.text "/" sharedText).lines .empty = .ok physical ∧
        assemble physical = .ok lines ∧
        ["Host"] = (lines.filterMap LogicalLine.global?).eraseDups ∧
        ["Host"] = (lines.filterMap LogicalLine.header?).eraseDups ∧
        sharedDocument.exportEntries = [("Host", Document.rowsNode sharedTable)] := by
  obtain ⟨physical, lines, hphysical, hlines, hglobals, hstructs, hexport, -⟩ :=
    exports_of_compile compile_sharedText
  exact ⟨compile_sharedText, physical, lines, hphysical, hlines, hglobals, hstructs, hexport⟩

/-- The global is missing from the output. -/
theorem not_exportsAll_shared :
    compile .empty (.text "/" sharedText) = .ok sharedDocument ∧ ¬ sharedDocument.ExportsAll := by
  refine ⟨compile_sharedText, ?_⟩
  rintro ⟨-, hlength⟩
  have hone : sharedDocument.exportEntries.length = 1 := by decide
  rw [hone] at hlength
  revert hlength
  decide

end RowConfig
