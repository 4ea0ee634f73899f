import RowConfig.Compile
import RowConfig.Proofs.Equality
import RowConfig.Proofs.Linking
import RowConfig.Proofs.Rendering

/-!
# Resolved documents

A compiled document went through four passes in a row. The copy of a row that a reference gets in
the third pass is rendered apart from the row itself in the fourth, yet the two stay equal
(`target_of_compile`): linking does not depend on where the reference stands, and a row renders in a
scope of its own.
-/

namespace RowConfig

/-- Resolving a document is running the passes over it, each on the result of the one before. -/
theorem Document.resolve_eq_ok_iff {d e : Document} :
    d.resolve = .ok e ↔
      ∃ bound linked, d.bind = .ok bound ∧ bound.buildIndexes.link = .ok linked ∧
        linked.render = e := by
  unfold Document.resolve
  cases hbound : d.bind with
  | error e => simp
  | ok bound => simp [map_eq_ok_iff]

/-- The document of an input is the one that its logical lines declare. -/
theorem readDocument_eq_ok_iff {s : Sources} {input : Input} {d : Document} :
    readDocument s input = .ok d ↔
      ∃ physical lines, input.lines s = .ok physical ∧ assemble physical = .ok lines ∧
        Document.ofLines lines = .ok d := by
  unfold readDocument Document.ofSource
  cases input.lines s with
  | error e => simp
  | ok physical =>
      cases hlines : assemble physical with
      | error e => simp [hlines]
      | ok lines => simp [hlines]

/-- Compiling is reading a document and running the passes over it, each on the result of the one
before. -/
theorem compile_eq_ok_iff {s : Sources} {input : Input} {d : Document} :
    compile s input = .ok d ↔
      ∃ written bound linked, readDocument s input = .ok written ∧ written.bind = .ok bound ∧
        bound.buildIndexes.link = .ok linked ∧ linked.render = d := by
  unfold compile
  cases readDocument s input with
  | error e => simp
  | ok written => simp [Document.resolve_eq_ok_iff]

/-- A compiled document is what the logical lines of its input declare, resolved. -/
theorem exists_lines_of_compile {s : Sources} {input : Input} {e : Document}
    (h : compile s input = .ok e) :
    ∃ physical lines d, input.lines s = .ok physical ∧ assemble physical = .ok lines ∧
      Document.ofLines lines = .ok d ∧ d.resolve = .ok e := by
  unfold compile at h
  split at h
  · cases h
  · next d hread =>
    obtain ⟨physical, lines, hphysical, hlines, hd⟩ := readDocument_eq_ok_iff.mp hread
    exact ⟨physical, lines, d, hphysical, hlines, hd, h⟩

/-- A rendered document finds the rendered form of each row that it found before. -/
theorem Document.findRow_render {d : Document} {name : Linking.RowName} {row : Instance}
    (h : Linking.findRow d name = .ok row) :
    Linking.findRow d.render name = .ok (Value.renderedRow d.globals row) := by
  obtain ⟨t, ht, hrow⟩ := Linking.findRow_eq_ok_iff.mp h
  refine Linking.findRow_eq_ok_iff.mpr ⟨t.rendered d.globals, ?_, ?_⟩
  · rw [table?_render, ht]
    rfl
  · rw [Table.find?_rendered, hrow]
    rfl

/-- In a compiled document the target of every reference, however deep in arrays, inline instances
and other targets it stands, is the very row that its key finds in that document. -/
theorem target_of_compile {s : Sources} {input : Input} {d : Document}
    (h : compile s input = .ok d) {struct key : String} {target : Option Instance}
    (hr : d.Shows (.reference struct key target)) :
    ∃ t row, d.table? struct = some t ∧ t.find? key = some row ∧ target = some row := by
  obtain ⟨_, bound, linked, -, -, hlinked, rfl⟩ := compile_eq_ok_iff.mp h
  obtain ⟨v, hv, hrendered⟩ := Document.render_origin hr
  obtain ⟨old, rfl, rfl⟩ := hrendered.eq_reference
  -- before rendering the reference held the row as it then was
  obtain ⟨row, hrow, rfl⟩ := Document.target_of_link hlinked hv
  obtain ⟨t, ht, hfound⟩ := Linking.findRow_eq_ok_iff.mp (Document.findRow_render hrow)
  exact ⟨t, _, ht, hfound, rfl⟩

/-- A host in a region whose name is a template. -/
def hostText : String :=
  "R:\n *str k:\n str n: {k}!\n - e\nH:\n *str i:\n R r:\n - a, R(e)\nH h: H(a)"

/-- The region of `hostText` once it is resolved. -/
def regionRow : Instance :=
  .ofFields "R" [("k", .text (.plain "e")), ("n", .text (.plain "e!"))]

/-- The host of `hostText` once it is resolved. -/
def hostRow : Instance :=
  .ofFields "H" [("i", .text (.plain "a")), ("r", .reference "R" "e" (some regionRow))]

/-- The struct of regions. -/
def regionTable : Table :=
  ⟨"R", [{ Field.ofType "k" ⟨.str, false⟩ with isKey := true },
    { Field.ofType "n" ⟨.str, false⟩ with default := some (.text (.template "{k}!" false)) }],
    some "k", [regionRow], [("e", 0)]⟩

/-- The struct of hosts. -/
def hostTable : Table :=
  ⟨"H", [{ Field.ofType "i" ⟨.str, false⟩ with isKey := true },
    Field.ofType "r" ⟨.struct "R", false⟩], some "i", [hostRow], [("a", 0)]⟩

/-- What `hostText` compiles to. -/
def hostDocument : Document :=
  ⟨[("h", .reference "H" "a" (some hostRow))], [("R", regionTable), ("H", hostTable)]⟩

theorem compile_hostText : compile .empty (.text "/" hostText) = .ok hostDocument := by
  decide +kernel

/-- The region is seen through the host that the global refers to. -/
theorem hostDocument_shows_region :
    hostDocument.Shows (.reference "R" "e" (some regionRow)) := by
  refine ⟨.reference "H" "a" (some hostRow), List.mem_cons_self, ?_⟩
  exact .of_content (List.mem_cons_of_mem _ List.mem_cons_self) (.refl _)

theorem target_of_compile_region :
    compile .empty (.text "/" hostText) = .ok hostDocument ∧
      hostDocument.Shows (.reference "R" "e" (some regionRow)) ∧
      ∃ t row, hostDocument.table? "R" = some t ∧ t.find? "e" = some row ∧
        some regionRow = some row :=
  ⟨compile_hostText, hostDocument_shows_region,
    target_of_compile compile_hostText hostDocument_shows_region⟩

end RowConfig
