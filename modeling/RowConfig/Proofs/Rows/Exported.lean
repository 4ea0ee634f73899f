import RowConfig.Proofs.Binding
import RowConfig.Proofs.Resolution
import RowConfig.Proofs.Rows

/-!
# Rows from their lines to the output

The rows that lines make go through the passes one by one, and each struct with a key is exported as
the array of what the passes make of its rows (`Document.rows_of_ofLines`).
-/

namespace RowConfig

/-! ## The entries of the output -/

namespace Document

variable {d e : Document} {struct : String} {t : Table}

/-- A struct with a key is exported under its name. -/
theorem get?_exportEntries (hnodup : d.structNames.Nodup) (ht : d.table? struct = some t)
    (hkey : t.key.isSome) : Entries.get? d.exportEntries struct = some (rowsNode t) := by
  have hkept : (struct, t) ∈ d.tables.filter fun entry => entry.2.key.isSome :=
    List.mem_filter.mpr ⟨Entries.mem_of_get? ht, hkey⟩
  exact Entries.get?_foldl_insert rowsNode _
    (hnodup.sublist (List.filter_sublist.map Prod.fst)) hkept

/-! ## The passes -/

/-- What the passes over a document make of one of its rows. -/
def ResolvesRow (d : Document) (row row' : Instance) : Prop :=
  ∃ bound linked boundRow linkedRow, d.bind = .ok bound ∧ bound.buildIndexes.link = .ok linked ∧
    bindInstance d.tables row = .ok boundRow ∧
    Linking.mapRow (Linking.follow bound.buildIndexes []) boundRow = .ok linkedRow ∧
    row' = Value.renderedRow linked.globals linkedRow

theorem structNames_resolve (h : d.resolve = .ok e) : e.structNames = d.structNames := by
  obtain ⟨bound, linked, hbound, hlinked, rfl⟩ := resolve_eq_ok_iff.mp h
  calc linked.render.structNames
      = Entries.names linked.tables := (Entries.pointwise_mapValues _ linked.tables).names_eq.symm
    _ = Entries.names bound.buildIndexes.tables := (link_eq_ok_iff.mp hlinked).2.names_eq.symm
    _ = Entries.names bound.tables := (Entries.pointwise_mapValues _ bound.tables).names_eq.symm
    _ = d.structNames := (pointwise_of_bind hbound).2.names_eq.symm

/-- Each pass keeps the fields and the key of a struct and maps its rows one by one. -/
theorem resolved_table? (h : d.resolve = .ok e) (ht : d.table? struct = some t) :
    ∃ u, e.table? struct = some u ∧ u.fields = t.fields ∧ u.key = t.key ∧
      List.Forall₂ d.ResolvesRow t.rows u.rows := by
  obtain ⟨bound, linked, hbound, hlinked, rfl⟩ := resolve_eq_ok_iff.mp h
  obtain ⟨_, ht₁, rows₁, hrows₁, rfl⟩ := (pointwise_of_bind hbound).2.get?_eq_some_left ht
  have ht₁ : Entries.get? bound.buildIndexes.tables struct =
      some (Table.buildIndex { t with rows := rows₁ }) := by
    rw [buildIndexes, Entries.get?_mapValues, ht₁]
    rfl
  obtain ⟨_, ht₂, rows₂, hrows₂, rfl⟩ := (link_eq_ok_iff.mp hlinked).2.get?_eq_some_left ht₁
  refine ⟨_, (table?_render linked struct).trans (congrArg _ ht₂), rfl, rfl, ?_⟩
  show List.Forall₂ d.ResolvesRow t.rows (rows₂.map (Value.renderedRow linked.globals))
  rw [List.forall₂_map_right_iff]
  exact forall₂_comp (bindRows_eq_ok_iff.mp hrows₁) (Linking.linkRows_eq_ok_iff.mp hrows₂)
    fun row boundRow linkedRow hbind hlink =>
      ⟨bound, linked, boundRow, linkedRow, hbound, hlinked, hbind, hlink, rfl⟩

/-- Each pass maps the rows of a struct one by one. -/
theorem table?_resolve (h : d.resolve = .ok e) (ht : d.table? struct = some t) :
    ∃ u, e.table? struct = some u ∧ u.key = t.key ∧ List.Forall₂ d.ResolvesRow t.rows u.rows := by
  obtain ⟨u, hu, -, hkey, hrows⟩ := resolved_table? h ht
  exact ⟨u, hu, hkey, hrows⟩

/-- Reading lines makes a row of each line that begins one, for the struct whose header came last,
and no other rows; the rows of a struct are in the order of their lines. If the document can be
resolved, each struct with a key is exported as what becomes of its rows, in the same order. -/
theorem rows_of_ofLines {lines : List LogicalLine} (h : Document.ofLines lines = .ok d) :
    (∀ i line part, lines[i]? = some line → line.rowPart? = some part →
      ∃ r, rowAt? lines i = some r ∧ (d.table? r.struct).isSome ∧
        r.text = [' '].intercalate ((r.head :: r.tail).map RowPart.text)) ∧
      (∀ struct t, d.table? struct = some t →
        List.Forall₂ (BuiltAt lines) (rowPositions lines struct) t.rows) ∧
      ∀ e, d.resolve = .ok e → ∀ struct t, d.table? struct = some t → t.key.isSome →
        ∃ rows, List.Forall₂ d.ResolvesRow t.rows rows ∧
          Entries.get? e.exportEntries struct = some (.array (rows.map Value.nodeOfRow)) := by
  have hall := h
  rw [ofLines, Builder.feedAll_eq] at hall
  obtain ⟨last, hrun, hlast⟩ := bind_eq_ok_iff.mp hall
  obtain ⟨b, hflush, rfl⟩ := map_eq_ok_iff.mp hlast
  have hreads := Builder.reads_of_flush hrun (Builder.reads_or_waits_of_run hrun) hflush
  refine ⟨fun i line part hline hpart => ?_, fun struct t ht => ?_, fun e he struct t ht hkey => ?_⟩
  · obtain ⟨r, hr⟩ := Builder.exists_rowAt? hreads hline hpart
    refine ⟨r, hr, ?_, r.text_eq_intercalate⟩
    -- a struct that is not declared has no rows, and this one has
    have hrows := Builder.rows_of_reads hreads r.struct
    have hi : i ∈ rowPositions lines r.struct :=
      List.mem_filter.mpr ⟨List.mem_range.mpr (lt_of_rowAt? hr), by simp [hr]⟩
    cases ht : b.document.table? r.struct with
    | some t => rfl
    | none =>
        rw [rowsOf, ht] at hrows
        rw [List.forall₂_nil_right_iff.mp hrows] at hi
        cases hi
  · have hrows := Builder.rows_of_reads hreads struct
    rw [rowsOf, ht] at hrows
    exact hrows
  · obtain ⟨u, hu, hkey', hrows⟩ := table?_resolve he ht
    refine ⟨u.rows, hrows, get?_exportEntries ?_ hu (hkey' ▸ hkey)⟩
    rw [structNames_resolve he]
    exact (written_of_ofLines h).nodup

/-- A struct that is opened twice, with a row on two lines before another struct and one after. -/
def portLines : List LogicalLine :=
  ["Port:", "  *str id:", "  int number:", "  - a,", "    80", "Host:", "Port:",
    "  - c, 8080"].zipIdx.map fun (text, i) => ⟨text, ⟨text, none, i + 1⟩⟩

/-- What the lines declare, with the index that the struct of ports has. -/
def ports (index : Entries Nat) : Document :=
  ⟨[], [("Port", ⟨"Port", [{ Field.ofType "id" ⟨.str, false⟩ with isKey := true },
    .ofType "number" ⟨.int, false⟩], some "id", [port "a" 80, port "c" 8080], index⟩),
    ("Host", ⟨"Host", [], none, [], []⟩)]⟩
where
  port (id : String) (number : Int) : Instance :=
    .ofFields "Port" [("id", .text (.plain id)), ("number", .int number)]

theorem ofLines_portLines : Document.ofLines portLines = .ok (ports []) := by
  decide +kernel

theorem resolve_ports : (ports []).resolve = .ok (ports [("a", 0), ("c", 1)]) := by
  decide +kernel

theorem rows_of_ofLines_ports :
    Document.ofLines portLines = .ok (ports []) ∧ rowPositions portLines "Port" = [3, 7] ∧
      List.Forall₂ (BuiltAt portLines) [3, 7] [ports.port "a" 80, ports.port "c" 8080] ∧
      ∃ rows, List.Forall₂ (ports []).ResolvesRow [ports.port "a" 80, ports.port "c" 8080] rows ∧
        Entries.get? (ports [("a", 0), ("c", 1)]).exportEntries "Port" =
          some (.array (rows.map Value.nodeOfRow)) := by
  have hpositions : rowPositions portLines "Port" = [3, 7] := by decide +kernel
  obtain ⟨-, hbuilt, hexported⟩ := rows_of_ofLines ofLines_portLines
  have hrows := hbuilt "Port" _ rfl
  rw [hpositions] at hrows
  exact ⟨ofLines_portLines, hpositions, hrows, hexported _ resolve_ports "Port" _ rfl rfl⟩

end Document

end RowConfig
