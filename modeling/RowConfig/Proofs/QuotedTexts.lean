import RowConfig.Proofs.GlobalLines
import RowConfig.Proofs.Settled
import RowConfig.Proofs.TextRows

/-!
# Literals in lists and rows

A string that is written as a literal comes out of a compiled document as it went in, whatever it
holds: as an element of an array (`compile_arrayLine`) and as an argument of a row
(`compile_rowLine`).
-/

namespace RowConfig

open Chars

/-! ## Arrays -/

section Arrays

variable {g : String} {gap : Nat} {texts : List String}

/-- A list of literals. -/
def listText (gap : Nat) (texts : List String) : List Char :=
  bracketed [] '[' ']' (joined gap (texts.map quoted))

/-- A global array of literals. -/
def arrayLine (g : String) (gap : Nat) (texts : List String) : List Char :=
  globalLine ['s', 't', 'r'] true g (listText gap texts)

theorem passes_of_mem_quoted : ∀ a ∈ texts.map quoted, Passes IsArgumentCode a := by
  intro a ha
  obtain ⟨t, -, rfl⟩ := List.mem_map.mp ha
  exact (passes_quoted t).imp fun c => False.elim

theorem solid_of_mem_quoted : ∀ a ∈ texts.map quoted, Solid a := by
  intro a ha
  obtain ⟨t, -, rfl⟩ := List.mem_map.mp ha
  exact solid_quoted t

theorem solid_listText : Solid (listText gap texts) := solid_bracketed rfl (by decide) (by decide)

theorem completeLine_arrayLine (hg : isIdentifier g.toList) (hne : texts ≠ []) :
    CompleteLine (arrayLine g gap texts) := by
  have hargs : texts.map quoted ≠ [] := fun h => hne (List.map_eq_nil_iff.mp h)
  apply completeLine_globalLine (by decide) hg
  · intro c hc
    cases hc
  · exact isPair_square
  · exact ⟨by decide, by decide⟩
  · exact passes_joined hargs passes_of_mem_quoted
  · apply not_mem_joined
    intro a ha
    obtain ⟨t, -, rfl⟩ := List.mem_map.mp ha
    exact not_mem_quoted t

/-- A list of literals is read as the array of their strings. -/
theorem read_listText (r : Reader) (hne : texts ≠ []) :
    r.read (listText gap texts) ⟨.str, true⟩ =
      .ok (.array (texts.map fun t => .text (.plain t))) := by
  have hargs : texts.map quoted ≠ [] := fun h => hne (List.map_eq_nil_iff.mp h)
  have hbody : isBalanced (joined gap (texts.map quoted)) :=
    isBalanced_joined hargs passes_of_mem_quoted
  have helements : r.readElements .str (Span.arguments ⟨joined gap (texts.map quoted), 1⟩) =
      .ok (texts.map fun t => .text (.plain t)) :=
    readElements_quoted r (map_trim_arguments hargs 1 passes_of_mem_quoted solid_of_mem_quoted)
  rw [listText, r.read_list hbody, helements]
  rfl

/-- An array of literals compiles to the array of their strings. -/
theorem compile_arrayLine (s : Sources) (dir : String) (hg : isIdentifier g.toList)
    (hne : texts ≠ []) :
    compile s (.text dir (textOf [arrayLine g gap texts])) =
      .ok ⟨[(g, .array (texts.map fun t => .text (.plain t)))], []⟩ := by
  have hcomplete : ∀ l ∈ [arrayLine g gap texts], CompleteLine l :=
    List.forall_mem_singleton.mpr (completeLine_arrayLine hg hne)
  obtain ⟨lines, hlines, hread⟩ := readDocument_of_complete s dir hcomplete
  obtain ⟨l, rfl, hl⟩ := List.map_eq_singleton_iff.mp hlines
  have hhead : (listText gap texts).head? ≠ some '(' := by
    rw [listText, head?_bracketed]
    decide
  obtain ⟨location, hfeed⟩ := Builder.feedAll_global (b := Builder.start) rfl (by decide) hg
    solid_listText hhead hl
  have hsettled : (Value.array (texts.map fun t => .text (.plain t))).Settled := by
    refine Value.settled_of_parts rfl fun p hp => ?_
    obtain ⟨t, -, rfl⟩ := List.mem_map.mp hp
    exact Value.settled_plain t
  have hdocument : Document.ofLines [l] =
      .ok ⟨[(g, .array (texts.map fun t => .text (.plain t)))], []⟩ := by
    rw [Document.ofLines, hfeed]
    show Except.map _ (Reader.read _ _ ⟨.str, true⟩) = _
    rw [read_listText _ hne]
    rfl
  rw [compile, hread, hdocument]
  apply Document.resolve_of_settled
  intro v hv
  rw [List.mem_singleton.mp hv]
  exact hsettled

end Arrays

/-! ## Rows -/

section Rows

variable {t : TextStruct} {values : String → String}

/-- The line of a row. -/
def rowLine (a : TextArguments t) (values : String → String) : List Char :=
  [' ', ' '] ++ '-' :: ' ' :: joined a.gap (a.texts values)

theorem completeLine_rowLine (a : TextArguments t) : CompleteLine (rowLine a values) := by
  have hbare : [' ', ' ', '-', ' '].all isBare := by decide
  have hlead : ∀ c ∈ [' ', ' ', '-', ' '], Scan.isPlain c ∧ c ≠ '#' := by
    intro c hc
    obtain ⟨hplain, hhash, -⟩ := isBare_iff.mp (List.all_eq_true.mp hbare c hc)
    exact ⟨hplain, hhash⟩
  have hlast : (rowLine a values).getLast? = some '"' := by
    rw [rowLine, List.getLast?_append, List.getLast?_cons_cons, List.getLast?_cons,
      a.getLast?_texts]
    rfl
  obtain ⟨front, hfront⟩ := List.getLast?_eq_some_iff.mp hlast
  refine completeLine_of_passes (l := [' ', ' ', '-', ' '] ++ joined a.gap (a.texts values)) ?_ ?_
    ⟨front, '"', hfront, by decide, by decide⟩
  · refine a.passes_texts.append (fun c hc => (hlead c hc).1) hlead fun c hc => ?_
    cases hc
    rfl
  · rw [List.mem_append, List.mem_append, not_or, not_or]
    exact ⟨⟨by decide, a.not_mem_texts.1⟩, by decide, a.not_mem_texts.2⟩

theorem settled_entries : Entries.Settled (t.entries values) := by
  intro v hv
  obtain ⟨entry, hentry, rfl⟩ := List.mem_map.mp hv
  obtain ⟨name, -, rfl⟩ := List.mem_map.mp hentry
  exact Value.settled_plain _

theorem names_entries : Entries.names (t.entries values) = t.names := by
  rw [Entries.names, TextStruct.entries, List.map_map]
  exact List.map_id _

/-- The line of a row is recognised, and its arguments are what was written. -/
theorem ofLine?_rowLine (a : TextArguments t) : LineKind.ofLine? (rowLine a values) =
    some (.row ⟨' ' :: joined a.gap (a.texts values), byteSize [' ', ' '] + 1⟩) :=
  LineKind.ofLine?_row (isBlank_of_mem_replicate (n := 2)) (show isBlank ' ' by decide)

/-- The arguments are cut into the texts that were joined. -/
theorem map_trim_rowLine (a : TextArguments t) :
    (splitTop ',' (' ' :: joined a.gap (a.texts values))).map (fun p => trim p.2) =
      a.texts values := by
  have htrim : (Scan.start.pieces ',' (' ' :: joined a.gap (a.texts values))).map trim =
      a.texts values :=
    map_trim_pieces a.texts_ne_nil 1 (a.forall_mem_texts fun _ s h => passes_argumentText h s)
      (a.forall_mem_texts fun _ s h => solid_argumentText h s)
  rw [← map_snd_splitTop, List.map_map] at htrim
  exact htrim

/-- The document that a struct with one row declares. -/
theorem feedAll_rowLine {a : TextArguments t} {l : LogicalLine}
    (hl : l.text.toList = rowLine a values) :
    (t.builder t.table).feedAll [l] =
      .ok ⟨[], [(t.name, t.table.addRow (.ofFields t.name (a.order.map (textEntry values))))]⟩ := by
  let arguments := ' ' :: joined a.gap (a.texts values)
  let row : RowText := ⟨t.name, ⟨arguments, l, byteSize [' ', ' '] + 1⟩, []⟩
  have hfeed : (t.builder t.table).feed l = .ok { t.builder t.table with row := some row } := by
    unfold Builder.feed
    simp only [hl, ofLine?_rowLine]
    rfl
  have htable : Entries.get? [(t.name, t.table)] t.name = some t.table := if_pos rfl
  have hread : readRow [(t.name, t.table)] t.table row (splitTop ',' row.text).length 0 false []
      (splitTop ',' row.text) = .ok (a.order.map (textEntry values)) :=
    readRow_texts a (map_trim_rowLine a)
  have hadd : ({ t.builder t.table with row := some row } : Builder).addRow row =
      .ok (t.builder (t.table.addRow (.ofFields t.name (a.order.map (textEntry values))))) := by
    unfold Builder.addRow
    simp only [Document.table?, TextStruct.builder, show row.struct = t.name from rfl, htable, hread,
      t.name_table]
    have hmodify := t.modifyTable_builder t.table
      (·.addRow (.ofFields t.name (a.order.map (textEntry values))))
    exact congrArg Except.ok hmodify
  rw [Builder.feedAll, hfeed]
  show Except.map _ (Builder.addRow _ row) = _
  rw [hadd]
  rfl

/-- Binding puts the strings of a row into the order of the fields. -/
theorem arrange_order (a : TextArguments t) :
    Binding.arrange t.table.fields (a.order.map (textEntry values)) = t.entries values := by
  have hnames : Entries.names (t.entries values) = t.table.fields.map Field.name := by
    rw [names_entries]
    exact t.fieldNames_table.symm
  have hnodup : (Entries.names (t.entries values)).Nodup := by
    rw [names_entries]
    exact t.nodup
  exact Binding.arrange_of_perm hnames hnodup (a.perm_order.map _)

theorem resolve_row (a : TextArguments t) :
    (Document.mk []
      [(t.name, t.table.addRow (.ofFields t.name (a.order.map (textEntry values))))]).resolve =
      .ok ⟨[], [(t.name, (t.table.addRow (.ofFields t.name (t.entries values))).buildIndex)]⟩ := by
  let read := t.table.addRow (.ofFields t.name (a.order.map (textEntry values)))
  let bound := t.table.addRow (.ofFields t.name (t.entries values))
  have hrows : ∀ row, (t.table.addRow row).rows = [row] := by
    intro row
    rw [Table.addRow, t.rows_table]
    rfl
  have hrow : bindInstance [(t.name, read)] (.ofFields t.name (a.order.map (textEntry values))) =
      .ok (.ofFields t.name (t.entries values)) := by
    apply settled_entries.bindInstance_eq
    have htable : Entries.get? [(t.name, read)] t.name = some read := if_pos rfl
    unfold Binding.arrangeInstance
    simp only [Record.ofFields, htable]
    exact congrArg (fun fields => Except.ok (Record.ofFields t.name fields)) (arrange_order a)
  have hbind : (Document.mk [] [(t.name, read)]).bind = .ok ⟨[], [(t.name, bound)]⟩ := by
    have hbound : bound = { read with rows := [.ofFields t.name (t.entries values)] } := by
      rw [← hrows (.ofFields t.name (t.entries values))]
      rfl
    unfold Document.bind
    simp only [Entries.tryMapValues, show read.rows = _ from hrows _, bindRows, hrow, hbound]
    rfl
  have hinert : (Document.mk [] [(t.name, bound)]).Inert := by
    constructor
    · intro v hv
      cases hv
    · intro entry hentry row hin
      rw [List.mem_singleton.mp hentry, hrows] at hin
      rw [List.mem_singleton.mp hin]
      exact settled_entries.inert t.name
  exact Document.resolve_of_bind hbind hinert

/-- A row of literals compiles to the row of their strings. -/
theorem compile_rowLine (s : Sources) (dir : String) (a : TextArguments t) :
    compile s (.text dir (textOf (t.lines ++ [rowLine a values]))) =
      .ok ⟨[], [(t.name, (t.table.addRow (.ofFields t.name (t.entries values))).buildIndex)]⟩ := by
  obtain ⟨l, hl, hread⟩ := t.readDocument_of_line s dir (completeLine_rowLine a)
  rw [compile, hread, feedAll_rowLine hl]
  exact resolve_row a

end Rows

end RowConfig
