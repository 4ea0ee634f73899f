import RowConfig.Proofs.Exporting

/-!
# Lines that follow others

What lines declare, further lines can only add to (`Document.Extends`): no struct, global or row is
lost, changes its place or becomes another one, except that a global gets a new value where a line
declares it again. Each line extends the document (`Builder.extends_of_feed`), hence so do all of
them. Where the further lines begin with no continuation, they find the row that waits at the end of
the others complete, and it is read as it would be without them (`Document.ofLines_append`).
-/

namespace RowConfig

/-- Structs, globals and rows of `d` are the first of those of `e`, in the same order. Only a global
that is declared in between may have another value. -/
structure Document.Extends (declared : List String) (d e : Document) : Prop where
  structs : d.structNames <+: e.structNames
  globals : Entries.names d.globals <+: Entries.names e.globals
  rows : ∀ struct, d.rowsOf struct <+: e.rowsOf struct
  kept : ∀ name, name ∉ declared → e.global? name = d.global? name

namespace Document.Extends

variable {declared more : List String} {c d e : Document}

theorem refl (declared : List String) (d : Document) : d.Extends declared d where
  structs := List.prefix_rfl
  globals := List.prefix_rfl
  rows _ := List.prefix_rfl
  kept _ _ := rfl

theorem trans (h : c.Extends declared d) (h' : d.Extends more e) :
    c.Extends (declared ++ more) e where
  structs := h.structs.trans h'.structs
  globals := h.globals.trans h'.globals
  rows struct := (h.rows struct).trans (h'.rows struct)
  kept name hname := by
    rw [List.mem_append, not_or] at hname
    rw [h'.kept name hname.2, h.kept name hname.1]

/-- Giving a global a value extends a document. -/
theorem setGlobal (d : Document) (name : String) (v : Value) :
    d.Extends [name] (d.setGlobal name v) where
  structs := List.prefix_rfl
  globals := by
    show _ <+: Entries.names (Entries.insert name v d.globals)
    rw [Entries.names_insert]
    split
    · exact List.prefix_rfl
    · exact List.prefix_append _ _
  rows _ := List.prefix_rfl
  kept other hother := by
    have hne : name ≠ other := by
      rintro rfl
      exact hother List.mem_cons_self
    rw [global?, Document.setGlobal, Entries.get?_insert, if_neg hne]
    rfl

/-- A change of a struct that leaves its rows first extends a document. -/
theorem modifyTable {name : String} {change : Table → Table}
    (h : ∀ t, d.table? name = some t → t.rows <+: (change t).rows) :
    d.Extends [] (d.modifyTable name change) where
  structs := by
    show _ <+: Entries.names (Entries.modify name change d.tables)
    rw [Entries.names_modify]
    exact List.prefix_rfl
  globals := List.prefix_rfl
  rows struct := by
    rw [rowsOf, rowsOf, table?_modifyTable]
    cases ht : d.table? struct with
    | none => exact List.prefix_rfl
    | some t =>
        show t.rows <+: (if struct = name then change t else t).rows
        split
        · next heq =>
          subst heq
          exact h t ht
        · exact List.prefix_rfl
  kept _ _ := rfl

end Document.Extends

namespace Builder

variable {b b' : Builder} {l : LogicalLine} {lines : List LogicalLine} {d : Document}

/-- Completing a row adds it after the rows that are there. -/
theorem extends_of_flush (h : b.flush = .ok b') : b.document.Extends [] b'.document := by
  unfold flush at h
  split at h
  · cases h
    exact .refl _ _
  · obtain ⟨t, row, -, -, rfl⟩ := addRow_eq_ok_iff.mp h
    exact .modifyTable fun t _ => List.prefix_append t.rows [row]

theorem extends_header (b : Builder) (name : String) :
    b.document.Extends [] (b.header name).document where
  structs := by
    rw [structNames_header, withName]
    split
    · exact List.prefix_rfl
    · exact List.prefix_append _ _
  globals := (congrArg Entries.names (globals_header b name)).symm ▸ List.prefix_rfl
  rows struct := (rowsOf_header b name struct).symm ▸ List.prefix_rfl
  kept other _ := by rw [Document.global?, globals_header, Document.global?]

/-- A line that declares something extends the document, the global that it names being the only one
whose value it may change. -/
theorem extends_of_declare {kind : LineKind} (hkind : LineKind.ofLine? l.text.toList = some kind)
    (h : b.declare l kind = .ok b') : b.document.Extends l.global?.toList b'.document := by
  unfold LogicalLine.global?
  rw [hkind]
  cases declares_of_declare h with
  | header name => exact extends_header b _
  | @global f v hglobal _ =>
      simp only [hglobal, if_true, Option.toList_some]
      exact .setGlobal _ _ v
  | field hfield _ _ =>
      simp only [hfield]
      exact .modifyTable fun _ _ => List.prefix_rfl
  | undeclared _ _ => exact .refl _ _
  | override _ ht _ hu =>
      apply Document.Extends.modifyTable
      intro t' ht'
      rw [ht] at ht'
      cases ht'
      exact (rows_of_overridden hu).symm ▸ List.prefix_rfl
  | row _ => exact .refl _ _
  | continuation _ => exact .refl _ _

theorem extends_of_feed (h : b.feed l = .ok b') :
    b.document.Extends l.global?.toList b'.document := by
  rcases feed_cases h with ⟨part, r, -, -, rfl⟩ | ⟨head, struct, flushed, hhead, hflush, -, rfl⟩ |
    ⟨kind, flushed, hkind, -, -, hflush, hdeclare⟩
  · exact .refl _ _
  · rw [of_rowPart?_global hhead]
    show b.document.Extends [] flushed.document
    exact extends_of_flush hflush
  · exact (extends_of_flush hflush).trans (extends_of_declare hkind hdeclare)

/-- A document extends that to which its last lines were added. -/
theorem extends_of_feedAll (h : b.feedAll lines = .ok d) :
    b.document.Extends (lines.filterMap LogicalLine.global?) d := by
  induction lines generalizing b with
  | nil =>
      obtain ⟨b', hflush, rfl⟩ := map_eq_ok_iff.mp h
      exact extends_of_flush hflush
  | cons l lines ih =>
      rw [feedAll] at h
      split at h
      · cases h
      · next b' hfeed =>
        have hnames : (l :: lines).filterMap LogicalLine.global? =
            l.global?.toList ++ lines.filterMap LogicalLine.global? := by
          rw [List.filterMap_cons]
          cases l.global? <;> rfl
        rw [hnames]
        exact (extends_of_feed hfeed).trans (ih h)

/-! ## Where further lines begin -/

theorem flush_of_row_eq_none (h : b.row = none) : b.flush = .ok b := by
  rw [flush, h]

/-- A line that is no continuation is read once the row before it is complete. -/
theorem feed_eq_bind_flush {kind : LineKind} (hkind : LineKind.ofLine? l.text.toList = some kind)
    (hcontinuation : l.continuation? = none) (b : Builder) :
    b.feed l = b.flush.bind fun flushed => flushed.feed l := by
  unfold LogicalLine.continuation? at hcontinuation
  have hfeed : ∀ b : Builder, b.feed l = b.flush.bind fun flushed => flushed.declare l kind := by
    intro b
    rw [hkind] at hcontinuation
    unfold feed
    rw [hkind]
    cases kind with
    | continuation text => cases hcontinuation
    | header name => rfl
    | field f => rfl
    | override name value => rfl
    | row arguments => rfl
  rw [hfeed b]
  cases hflush : b.flush with
  | error e => rfl
  | ok flushed =>
      -- there is nothing more to complete
      show flushed.declare l kind = flushed.feed l
      rw [hfeed flushed, flush_of_row_eq_none (row_of_flush hflush)]
      rfl

end Builder

/-- Further lines that begin with no continuation are read after a document that is complete. -/
theorem Document.ofLines_append {lines more : List LogicalLine} {l : LogicalLine} {kind : LineKind}
    (hkind : LineKind.ofLine? l.text.toList = some kind) (hcontinuation : l.continuation? = none) :
    ofLines (lines ++ l :: more) = (Builder.start.run lines).bind fun b =>
      b.flush.bind fun flushed => flushed.feedAll (l :: more) := by
  rw [ofLines, Builder.feedAll_eq, Builder.run_append]
  cases Builder.start.run lines with
  | error e => rfl
  | ok b =>
      show (b.run (l :: more)).bind _ = b.flush.bind _
      rw [Builder.run, Builder.feed_eq_bind_flush hkind hcontinuation]
      cases b.flush with
      | error e => rfl
      | ok flushed => exact (Builder.feedAll_eq flushed (l :: more)).symm

/-- Lines that follow others and begin with no continuation change nothing of what these declare: a
fault in the first lines stays the fault of all of them, and a document made of all extends the one
made of the first, with new values for those globals only that a later line declares. -/
theorem extends_of_append {lines more : List LogicalLine} {l : LogicalLine} {kind : LineKind}
    (hkind : LineKind.ofLine? l.text.toList = some kind) (hcontinuation : l.continuation? = none) :
    (∀ fault, Document.ofLines lines = .error fault →
      Document.ofLines (lines ++ l :: more) = .error fault) ∧
    ∀ d e, Document.ofLines lines = .ok d → Document.ofLines (lines ++ l :: more) = .ok e →
      d.Extends ((l :: more).filterMap LogicalLine.global?) e := by
  rw [Document.ofLines_append hkind hcontinuation, Document.ofLines, Builder.feedAll_eq]
  cases Builder.start.run lines with
  | error fault =>
      constructor
      · rintro _ ⟨⟩
        rfl
      · rintro d e ⟨⟩
  | ok b =>
      show (∀ fault, b.flush.map Builder.document = .error fault → b.flush.bind _ = .error fault) ∧
        ∀ d e, b.flush.map Builder.document = .ok d → b.flush.bind _ = .ok e → _
      cases b.flush with
      | error fault =>
          constructor
          · rintro _ ⟨⟩
            rfl
          · rintro d e ⟨⟩
      | ok flushed =>
          constructor
          · rintro fault ⟨⟩
          · rintro d e ⟨⟩ he
            exact Builder.extends_of_feedAll he

namespace Document

/-- A global, and a struct with a row that may go on. -/
def regionLines : List LogicalLine :=
  ["str region: eu", "Port:", "  *str id:", "  - a"].zipIdx.map fun (text, i) =>
    ⟨text, ⟨text, none, i + 1⟩⟩

/-- The struct of `regionLines` is opened again. -/
def reopening : LogicalLine := ⟨"Port:", ⟨"Port:", none, 5⟩⟩

/-- A row of the struct that was opened again, and the global of `regionLines` once more. -/
def laterLines : List LogicalLine :=
  ["  - b", "str region: us"].zipIdx.map fun (text, i) => ⟨text, ⟨text, none, i + 6⟩⟩

/-- The document with a region and with ports of these names. -/
def region (name : String) (ids : List String) : Document :=
  ⟨[("region", .text (.plain name))],
    [("Port", ⟨"Port", [{ Field.ofType "id" ⟨.str, false⟩ with isKey := true }], some "id",
      ids.map fun id => .ofFields "Port" [("id", .text (.plain id))], []⟩)]⟩

theorem extends_of_append_reopened :
    LineKind.ofLine? reopening.text.toList = some (.header "Port".toList) ∧
      ofLines regionLines = .ok (region "eu" ["a"]) ∧
      ofLines (regionLines ++ reopening :: laterLines) = .ok (region "us" ["a", "b"]) ∧
      (region "eu" ["a"]).Extends ["region"] (region "us" ["a", "b"]) := by
  have hkind : LineKind.ofLine? reopening.text.toList = some (.header "Port".toList) := by
    decide +kernel
  have hfirst : ofLines regionLines = .ok (region "eu" ["a"]) := by decide +kernel
  have hall : ofLines (regionLines ++ reopening :: laterLines) = .ok (region "us" ["a", "b"]) := by
    decide +kernel
  have hnames : (reopening :: laterLines).filterMap LogicalLine.global? = ["region"] := by
    decide +kernel
  have hextends := (extends_of_append hkind (by decide +kernel)).2 _ _ hfirst hall
  rw [hnames] at hextends
  exact ⟨hkind, hfirst, hall, hextends⟩

end Document

end RowConfig
