import RowConfig.Proofs.Keys
import RowConfig.Proofs.QuotedCalls

/-!
# Sources with keys

In a source text a struct of texts is declared, rows give literals to all of its fields, and a
global refers to one of the rows by the literal of its key. Whatever the strings are, the text
compiles if one of the rows has the key, the global then holding the last of these rows, and
otherwise its fault is the unknown key (`compile_referenceInput`). The same is so of references in
any document (`compile_references`).
-/

namespace RowConfig

open Chars

/-- A row for a struct of texts: the arguments that are written, and the string of each field. -/
structure TextRow (t : TextStruct) where
  arguments : TextArguments t
  values : String → String

variable {t : TextStruct} {g key k : String} {done : List Instance}

namespace TextRow

def line (r : TextRow t) : List Char := rowLine r.arguments r.values

/-- The row as it is read. -/
def written (r : TextRow t) : Instance :=
  .ofFields t.name (r.arguments.order.map (textEntry r.values))

/-- The row as it is bound. -/
def bound (r : TextRow t) : Instance := .ofFields t.name (t.entries r.values)

theorem hasKey_written (r : TextRow t) (hkey : key ∈ t.names) :
    r.written.HasKey key (r.values key) := by
  have hnames : Entries.names (r.arguments.order.map (textEntry r.values)) = r.arguments.order := by
    rw [Entries.names, List.map_map]
    exact List.map_id _
  apply Entries.get?_of_mem
  · show (Entries.names (r.arguments.order.map (textEntry r.values))).Nodup
    rw [hnames]
    exact r.arguments.nodup_order
  · exact List.mem_map.mpr ⟨key, r.arguments.perm_order.mem_iff.mpr hkey, rfl⟩

end TextRow

namespace TextStruct

/-- The struct with these rows. -/
def filled (t : TextStruct) (rows : List Instance) : Table := { t.table with rows := rows }

theorem filled_nil (t : TextStruct) : t.filled [] = t.table := by
  rw [filled, ← t.rows_table]

/-- The key of the struct is one of its fields. -/
theorem mem_names_of_key (hkey : t.table.key = some key) : key ∈ t.names := by
  have h : ∀ (fields : List TextField) (u : Table),
      (fields.foldl (fun table f => table.addField f.field) u).key = some key →
        key ∈ fields.map TextField.name ∨ u.key = some key := by
    intro fields
    induction fields with
    | nil => exact fun u h => .inr h
    | cons f fields ih =>
        intro u h
        rw [List.map_cons, List.mem_cons]
        rcases ih _ h with hin | hkey
        · exact .inl (.inr hin)
        · change (if f.isKey then some f.name else u.key) = some key at hkey
          grind
  rcases h t.fields (.empty t.name) hkey with hin | hnone
  · exact hin
  · cases hnone

/-! ## Reading the lines -/

/-- What rows a table has does not change how another one is read. -/
theorem readRow_filled {tables : Entries Table} {r : RowText} {count position : Nat} {named : Bool}
    {fields : Entries Value} {pieces : List (Nat × List Char)} (rows : List Instance) :
    readRow tables (t.filled rows) r count position named fields pieces =
      readRow tables t.table r count position named fields pieces := by
  induction pieces generalizing position named fields with
  | nil => rfl
  | cons piece pieces ih =>
      have hassign : ∀ position start named argument,
          assignArgument (t.filled rows) count position start named argument =
            assignArgument t.table count position start named argument := fun _ _ _ _ => rfl
      simp only [readRow, hassign, ih]

/-- The line of a row completes the row before it, and is itself a row that waits to be complete. -/
theorem exists_feed_rowLine {b : Builder} {l : LogicalLine} (r : TextRow t)
    (hflush : b.flush = .ok (t.builder (t.filled done))) (hl : l.text.toList = r.line) :
    ∃ b', b.feed l = .ok b' ∧ b'.flush = .ok (t.builder (t.filled (done ++ [r.written]))) := by
  let row : RowText := ⟨t.name, ⟨' ' :: joined r.arguments.gap (r.arguments.texts r.values), l,
    byteSize [' ', ' '] + 1⟩, []⟩
  refine ⟨{ t.builder (t.filled done) with row := some row }, ?_, ?_⟩
  · unfold Builder.feed
    simp only [hl, TextRow.line, ofLine?_rowLine, hflush]
    rfl
  · have htable : Entries.get? [(t.name, t.filled done)] t.name = some (t.filled done) := if_pos rfl
    have hread : readRow [(t.name, t.filled done)] (t.filled done) row
        (splitTop ',' row.text).length 0 false [] (splitTop ',' row.text) =
          .ok (r.arguments.order.map (textEntry r.values)) := by
      rw [readRow_filled]
      exact readRow_texts r.arguments (map_trim_rowLine r.arguments)
    show Builder.addRow _ row = _
    unfold Builder.addRow
    simp only [Document.table?, builder, show row.struct = t.name from rfl, htable, hread,
      show (t.filled done).name = t.name from t.name_table]
    have hmodify := t.modifyTable_builder (t.filled done) (·.addRow r.written)
    exact congrArg Except.ok hmodify

/-- The lines of rows, read one after the other. -/
theorem exists_feedAll_rowLines {b : Builder} {rows : List (TextRow t)} {lines : List LogicalLine}
    (more : List LogicalLine) (hflush : b.flush = .ok (t.builder (t.filled done)))
    (hlines : lines.map (fun l => l.text.toList) = rows.map TextRow.line) :
    ∃ b' : Builder, b.feedAll (lines ++ more) = b'.feedAll more ∧
      b'.flush = .ok (t.builder (t.filled (done ++ rows.map TextRow.written))) := by
  induction rows generalizing b done lines with
  | nil =>
      rw [List.map_nil, List.map_eq_nil_iff] at hlines
      subst hlines
      exact ⟨b, rfl, by rw [List.map_nil, List.append_nil]; exact hflush⟩
  | cons r rows ih =>
      obtain ⟨l, lines, rfl, hl, hlines⟩ := List.map_eq_cons_iff.mp hlines
      obtain ⟨b₁, hfeed, hflush₁⟩ := exists_feed_rowLine r hflush hl
      obtain ⟨b₂, hfeedAll, hflush₂⟩ := ih hflush₁ hlines
      refine ⟨b₂, ?_, ?_⟩
      · rw [List.cons_append, Builder.feedAll, hfeed]
        exact hfeedAll
      · rw [hflush₂, List.append_assoc, List.singleton_append, List.map_cons]

end TextStruct

/-- The line of a global that refers to a row of the struct. -/
def referenceLine (t : TextStruct) (g k : String) : List Char :=
  globalLine t.name.toList false g (referenceText t.name k)

/-- A source text: a struct of texts, its rows, and a global that refers to one of them. -/
def referenceInput (dir : String) (t : TextStruct) (rows : List (TextRow t)) (g k : String) : Input :=
  .text dir (textOf (t.lines ++ (rows.map TextRow.line ++ [referenceLine t g k])))

/-- The document that the text declares. -/
def referring (t : TextStruct) (g k : String) (rows : List Instance) : Document :=
  ⟨[(g, .reference t.name k none)], [(t.name, t.filled rows)]⟩

theorem completeLine_referenceLine (t : TextStruct) (hg : isIdentifier g.toList) (k : String) :
    CompleteLine (referenceLine t g k) :=
  completeLine_globalLine t.isIdentifier_name hg (isBare_of_isIdentifier t.isIdentifier_name)
    isPair_round ⟨by decide, by decide⟩ ((passes_quoted k).imp fun c => False.elim) (not_mem_quoted k)

section Reference

variable {rows : List (TextRow t)}

/-- The lines are read to this document. -/
theorem ofLines_referenceLine {lines : List LogicalLine} (hg : isIdentifier g.toList)
    (hkey : t.table.key.isSome) (hlines : lines.map (fun l => l.text.toList) =
      t.lines ++ (rows.map TextRow.line ++ [referenceLine t g k])) :
    Document.ofLines lines = .ok (referring t g k (rows.map TextRow.written)) := by
  obtain ⟨declaration, rest, rfl, hdeclaration, hrest⟩ := List.map_eq_append_iff.mp hlines
  obtain ⟨rowLines, last, rfl, hrows, hlast⟩ := List.map_eq_append_iff.mp hrest
  obtain ⟨l, rfl, hl⟩ := List.map_eq_singleton_iff.mp hlast
  have hstart : (t.builder t.table).flush = .ok (t.builder (t.filled [])) := by
    rw [t.filled_nil]
    rfl
  obtain ⟨b, hfeed, hflush⟩ := TextStruct.exists_feedAll_rowLines [l] hstart hrows
  have hsolid : Solid (referenceText t.name k) := solid_call t.isIdentifier_name
  have hhead : (referenceText t.name k).head? ≠ some '(' := head?_call t.isIdentifier_name
  -- the line of the global completes the last row
  obtain ⟨f, hkind⟩ : ∃ f, LineKind.ofLine? l.text.toList = some (.field f) := by
    rw [hl]
    obtain ⟨f, hkind, -⟩ := ofLine?_globalLine t.isIdentifier_name hg hsolid
    exact ⟨f, hkind⟩
  have hcontinuation : l.continuation? = none := by
    rw [LogicalLine.continuation?, hkind]
  have hlast : b.feedAll [l] =
      (t.builder (t.filled ([] ++ rows.map TextRow.written))).feedAll [l] := by
    rw [Builder.feedAll, Builder.feed_eq_bind_flush hkind hcontinuation, hflush]
    rfl
  obtain ⟨location, hglobal⟩ := Builder.feedAll_global
    (b := t.builder (t.filled ([] ++ rows.map TextRow.written))) rfl t.isIdentifier_name hg hsolid
    hhead
    hl
  have htable : Entries.get? [(t.name, t.filled (rows.map TextRow.written))] t.name =
      some (t.filled (rows.map TextRow.written)) := if_pos rfl
  have hkeyed : (t.filled (rows.map TextRow.written)).key.isSome := hkey
  have hread : Reader.read ⟨[(t.name, t.filled (rows.map TextRow.written))], location⟩
      (referenceText t.name k) ⟨.struct t.name, false⟩ = .ok (.reference t.name k none) :=
    Reader.read_referenceText t.isIdentifier_name htable hkeyed k
  rw [Document.ofLines, TextStruct.feedAll_lines hdeclaration, hfeed, hlast, hglobal,
    String.ofList_toList, ofName_name]
  show Except.map _ (Reader.read ⟨[(t.name, t.filled (rows.map TextRow.written))], location⟩ _ _) = _
  rw [hread]
  rfl

/-! ## Resolving the document -/

/-- Binding arranges the strings of the rows. -/
theorem bind_referring (t : TextStruct) (g k : String) (rows : List (TextRow t)) :
    (referring t g k (rows.map TextRow.written)).bind =
      .ok (referring t g k (rows.map TextRow.bound)) := by
  have hrows : bindRows [(t.name, t.filled (rows.map TextRow.written))] (rows.map TextRow.written) =
      .ok (rows.map TextRow.bound) := by
    rw [bindRows_eq_ok_iff, List.forall₂_map_left_iff, List.forall₂_map_right_iff, List.forall₂_same]
    intro r _
    apply settled_entries.bindInstance_eq
    have htable : Entries.get? [(t.name, t.filled (rows.map TextRow.written))] t.name =
        some (t.filled (rows.map TextRow.written)) := if_pos rfl
    unfold Binding.arrangeInstance
    simp only [TextRow.written, Record.ofFields] at htable ⊢
    simp only [htable]
    exact congrArg (fun fields => Except.ok (Record.ofFields t.name fields))
      (arrange_order r.arguments)
  have hvalue : bindValue [(t.name, t.filled (rows.map TextRow.written))]
      (.reference t.name k none) = .ok (.reference t.name k none) := rfl
  unfold Document.bind referring
  simp only [Entries.tryMapValues, hvalue,
    show (t.filled (rows.map TextRow.written)).rows = rows.map TextRow.written from rfl, hrows]
  rfl

/-- The reference is the only one that is pending. -/
theorem faultlessBut_referring (t : TextStruct) (g k : String) (rows : List (TextRow t)) :
    (referring t g k (rows.map TextRow.written)).FaultlessBut (t.name, k) := by
  refine ⟨_, bind_referring t g k rows, ?_⟩
  apply Document.linkedBut_of_roots
  · intro v hv
    exact .inl (List.mem_singleton.mp hv)
  · intro entry hentry row hrow
    obtain ⟨entry', hentry', rfl⟩ := List.mem_map.mp hentry
    rw [List.mem_singleton.mp hentry'] at hrow
    obtain ⟨r, -, rfl⟩ := List.mem_map.mp hrow
    exact settled_entries

/-- Whatever strings the rows are given, a reference holds the last row with its key; if there is
none, the unknown key is the fault of the text. -/
theorem compile_referenceInput (s : Sources) (dir : String) (rows : List (TextRow t)) (k : String)
    (hg : isIdentifier g.toList) (hkey : t.table.key = some key) :
    (k ∈ rows.map (·.values key) → ∃ e, compile s (referenceInput dir t rows g k) = .ok e ∧
        e.RefersToLast t.name key (rows.map (·.values key)) k (.global g) none) ∧
      (k ∉ rows.map (·.values key) →
        compile s (referenceInput dir t rows g k) = .error (.unknownKey t.name k)) := by
  have hcomplete : ∀ l ∈ t.lines ++ (rows.map TextRow.line ++ [referenceLine t g k]),
      CompleteLine l := by
    intro l hl
    simp only [List.mem_append, List.mem_map, List.mem_singleton] at hl
    rcases hl with hl | ⟨r, -, rfl⟩ | rfl
    · exact t.completeLine_lines l hl
    · exact completeLine_rowLine r.arguments
    · exact completeLine_referenceLine t hg k
  obtain ⟨lines, hlines, hread⟩ := readDocument_of_complete s dir hcomplete
  have hd : Document.ofLines lines = .ok (referring t g k (rows.map TextRow.written)) :=
    ofLines_referenceLine hg (Option.isSome_of_eq_some hkey) hlines
  have hcompile : compile s (referenceInput dir t rows g k) =
      (referring t g k (rows.map TextRow.written)).resolve := by
    rw [compile, referenceInput, hread, hd]
  have hwritten := Document.written_of_ofLines hd
  have hdeclared := Document.wellDeclared_of_ofLines hd
  have htable : (referring t g k (rows.map TextRow.written)).table? t.name =
      some (t.filled (rows.map TextRow.written)) := if_pos rfl
  have hkeyed : (t.filled (rows.map TextRow.written)).Keyed key (rows.map (·.values key)) := by
    refine ⟨hkey, ?_⟩
    show List.Forall₂ _ (rows.map TextRow.written) (rows.map (·.values key))
    rw [List.forall₂_map_left_iff, List.forall₂_map_right_iff, List.forall₂_same]
    exact fun r _ => r.hasKey_written (TextStruct.mem_names_of_key hkey)
  have hglobal : (referring t g k (rows.map TextRow.written)).at? (.global g) =
      some (.reference t.name k none) := if_pos rfl
  have hreference : Value.element? none (.reference t.name k none) =
      some (.reference t.name k none) := rfl
  obtain ⟨hfound, hmissing⟩ := Document.resolve_of_faultlessBut hwritten hdeclared
    (faultlessBut_referring t g k rows) htable hkeyed hglobal hreference
  rw [hcompile]
  refine ⟨?_, hmissing⟩
  intro hk
  obtain ⟨e, he⟩ := hfound hk
  exact ⟨e, he,
    Document.refersToLast_of_resolve hwritten hdeclared he htable hkeyed hglobal hreference⟩

end Reference

/-! ## All references -/

/-- Any string can serve as a key. Where lines give the rows of a struct literals of the strings
`keys` as their keys, and somewhere a reference by the literal of `k`, this holds the last row with
the key `k` once the document is compiled; with no other fault the document compiles if there is
such a row, and otherwise the unknown key is its fault. Lines of a source text do so whatever the
strings are. -/
theorem compile_references (s : Sources) :
    (∀ (input : Input) (physical : List SourceLine) (lines : List LogicalLine) (d : Document)
        (struct key : String) (keys : List String) (k : String) (t : Table) (spot : Spot)
        (element : Option Nat),
      input.lines s = .ok physical → assemble physical = .ok lines → Document.ofLines lines = .ok d →
      d.table? struct = some t → t.key = some key →
      List.Forall₂ (WritesKey lines struct key) (rowPositions lines struct) keys →
      WritesReference lines struct k element spot →
      (∀ e, compile s input = .ok e → e.RefersToLast struct key keys k spot element) ∧
        (d.FaultlessBut (struct, k) →
          (k ∈ keys → ∃ e, compile s input = .ok e) ∧
            (k ∉ keys → compile s input = .error (.unknownKey struct k)))) ∧
    ∀ (dir : String) (t : TextStruct) (rows : List (TextRow t)) (g key k : String),
      isIdentifier g.toList → t.table.key = some key →
      (k ∈ rows.map (·.values key) → ∃ e, compile s (referenceInput dir t rows g k) = .ok e ∧
        e.RefersToLast t.name key (rows.map (·.values key)) k (.global g) none) ∧
      (k ∉ rows.map (·.values key) →
        compile s (referenceInput dir t rows g k) = .error (.unknownKey t.name k)) :=
  ⟨fun _ _ _ _ _ _ _ _ _ _ _ hphysical hlines hd ht hkey hkeys hreference =>
      reference_of_lines hphysical hlines hd ht hkey hkeys hreference,
    fun dir _ rows _ _ k hg hkey => compile_referenceInput s dir rows k hg hkey⟩

/-- A string in which everything stands that could end a literal, an argument, a call or a line. -/
def awkwardKey : String := "a), \"b\" \x7bc\x7d #\n"

/-- A cable between two ports, the keys of which are declared before it and given after it. -/
def cableTexts : List String :=
  let literal := String.ofList (quoted awkwardKey)
  ["Port:", "  *str id:", "Cable:", "  *str name:", "  Port[] ends:",
    "  - main, [Port(\"z\"), Port(" ++ literal ++ ")]", "Port:", "  - \"z\"", "  - " ++ literal,
    "  - " ++ literal]

def cableInput : Input := .text "/" ("\n".intercalate cableTexts)

def cableLines : List LogicalLine :=
  cableTexts.zipIdx.map fun (text, i) => ⟨text, ⟨text, none, i + 1⟩⟩

theorem writesKey_cableLines : List.Forall₂ (WritesKey cableLines "Port" "id")
    (rowPositions cableLines "Port") ["z", awkwardKey, awkwardKey] := by
  have hpositions : rowPositions cableLines "Port" = [7, 8, 9] := by decide +kernel
  have hpad : ∀ c ∈ [' '], isBlank c := List.forall_mem_singleton.mpr rfl
  let id : Field := { Field.ofType "id" ⟨.str, false⟩ with isKey := true }
  have hwrites : ∀ i k, (rowAt? cableLines i).map RowText.text = some ([' '] ++ quoted k) →
      (tableAfter? cableLines (rowEnd cableLines i) "Port").bind (·.fields.head?) = some id →
        WritesKey cableLines "Port" id.name i k := by
    intro i k hr hf
    exact writesKey_of_first hpad hr hf rfl
  rw [hpositions]
  refine .cons (hwrites 7 "z" ?_ ?_) (.cons (hwrites 8 awkwardKey ?_ ?_)
    (.cons (hwrites 9 awkwardKey ?_ ?_) .nil))
  all_goals decide +kernel

/-- The second end of the cable refers to a port. -/
theorem writesReference_cableLines :
    WritesReference cableLines "Port" awkwardKey (some 1) (.field "Cable" 0 "ends") := by
  have hpad : ∀ c ∈ [' '], isBlank c := List.forall_mem_singleton.mpr rfl
  let name : Field := { Field.ofType "name" ⟨.str, false⟩ with isKey := true }
  let ends : Field := Field.ofType "ends" ⟨.struct "Port", true⟩
  let first := "Port(\"z\")".toList
  let body := first ++ ',' :: ' ' :: referenceText "Port" awkwardKey
  obtain ⟨r, hr, htext⟩ : ∃ r, rowAt? cableLines 5 = some r ∧
      r.text = " main, ".toList ++ bracketed [] '[' ']' body :=
    Option.map_eq_some_iff.mp (by decide +kernel)
  obtain ⟨t, ht, hfields⟩ : ∃ t, tableAfter? cableLines (rowEnd cableLines 5) "Cable" = some t ∧
      t.fields = [name, ends] := Option.map_eq_some_iff.mp (by decide +kernel)
  obtain ⟨u, hu, hkey⟩ : ∃ u, tableAfter? cableLines (rowEnd cableLines 5) "Port" = some u ∧
      u.key = some "id" := Option.map_eq_some_iff.mp (by decide +kernel)
  have hposition : (rowPositions cableLines "Cable")[0]? = some 5 := by decide +kernel
  have hcites : Cites (referenceText "Port" awkwardKey) (some 1) (bracketed [] '[' ']' body) := by
    have hstands : Stands (referenceText "Port" awkwardKey) body [first] [' '] [] :=
      ⟨first ++ [',', ' '], [], [], by decide +kernel, by decide +kernel, List.forall_mem_nil _,
        .none⟩
    exact .element (by decide +kernel) hstands hpad
  have hgives : r.Gives t "ends" (bracketed [] '[' ']' body) := by
    refine ⟨[" main".toList], [' '], [], ⟨" main, ".toList, [], [], ?_, by decide +kernel,
      List.forall_mem_nil _, .none⟩, .position ?_ hpad, List.not_mem_nil⟩
    · simpa using htext
    · rw [Table.fieldNames, hfields]
      rfl
  have hfield : t.field? "ends" = some ends := by
    rw [Table.field?, hfields]
    rfl
  exact .field hposition hr ht hfield rfl hcites hgives hu (Option.isSome_of_eq_some hkey)

/-- A struct with nothing but its key. -/
def portStruct : TextStruct where
  name := "Port"
  fields := [⟨"id", true, false⟩]
  isIdentifier_name := by decide
  isUpper_name := by decide
  nonempty := List.cons_ne_nil _ _
  isIdentifier_field := by decide
  nodup := by decide

def portRow (k : String) : TextRow portStruct := ⟨⟨1, [], 0, .refl _⟩, fun _ => k⟩

/-- The cable refers to the last port with the key; without such a port the key is unknown. -/
theorem compile_references_cable :
    (∃ e, compile .empty cableInput = .ok e ∧ e.RefersToLast "Port" "id" ["z", awkwardKey, awkwardKey]
        awkwardKey (.field "Cable" 0 "ends") (some 1)) ∧
      compile .empty (referenceInput "/" portStruct [portRow "z"] "main" awkwardKey) =
        .error (.unknownKey "Port" awkwardKey) := by
  obtain ⟨hlines, htexts⟩ := compile_references .empty
  constructor
  · have hphysical : cableInput.lines .empty = .ok (cableLines.map LogicalLine.origin) := by
      decide +kernel
    have hassembled : assemble (cableLines.map LogicalLine.origin) = .ok cableLines := by
      decide +kernel
    have hresolved : (Document.ofLines cableLines).bind (fun d => d.resolve.map fun _ =>
        (d.table? "Port").map Table.key) = .ok (some (some "id")) := by decide +kernel
    obtain ⟨d, hd, hresolved⟩ := bind_eq_ok_iff.mp hresolved
    obtain ⟨_, hresolve, htable⟩ := map_eq_ok_iff.mp hresolved
    obtain ⟨t, ht, hkey⟩ := Option.map_eq_some_iff.mp htable
    obtain ⟨hrefers, hcompiles⟩ := hlines cableInput _ _ d "Port" "id" _ awkwardKey t _ _ hphysical
      hassembled hd ht hkey writesKey_cableLines writesReference_cableLines
    have hmem : awkwardKey ∈ ["z", awkwardKey, awkwardKey] := by simp
    obtain ⟨e, he⟩ := (hcompiles (Document.faultlessBut_of_resolve hresolve _)).1 hmem
    exact ⟨e, he, hrefers e he⟩
  · obtain ⟨-, hmissing⟩ := htexts "/" portStruct [portRow "z"] "main" "id" awkwardKey (by decide) rfl
    exact hmissing (by decide)

end RowConfig
