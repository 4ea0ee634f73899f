import Mathlib.Data.List.Induction
import RowConfig.Builder
import RowConfig.Proofs.Entries
import RowConfig.Proofs.Pointwise

/-!
# Rows of a document

Every line that begins a row makes one row of the struct whose header came last, from its own text
and that of the continuation lines directly after it (`rowAt?`), read against what is declared when
the first line after these comes (`BuiltAt`). A document has these rows and no others, those of each
struct in the order of their lines (`Builder.rows_of_reads`). A row waits while it may go on;
`Reads` tells the lines apart into rows that are complete and lines that declare something.
-/

namespace RowConfig

/-! ## Rows among lines -/

namespace LogicalLine

/-- The name of the struct that a header line opens. -/
def header? (l : LogicalLine) : Option String :=
  match LineKind.ofLine? l.text.toList with
  | some (.header name) => some (String.ofList name)
  | _ => none

/-- The part of a row that a line begins it with. -/
def rowPart? (l : LogicalLine) : Option RowPart :=
  match LineKind.ofLine? l.text.toList with
  | some (.row arguments) => some ⟨arguments.text, l, arguments.offset⟩
  | _ => none

/-- The part that a continuation line adds to a row. -/
def continuation? (l : LogicalLine) : Option RowPart :=
  match LineKind.ofLine? l.text.toList with
  | some (.continuation text) => some ⟨text.text, l, text.offset⟩
  | _ => none

end LogicalLine

/-- The struct whose header is the last among the lines. -/
def openStruct? (lines : List LogicalLine) : Option String :=
  (lines.filterMap LogicalLine.header?).getLast?

/-- The parts of the continuation lines that come before any other line. -/
def continuations : List LogicalLine → List RowPart
  | [] => []
  | l :: ls =>
    match l.continuation? with
    | some part => part :: continuations ls
    | none => []

/-- The row that begins on the line at a position. -/
def rowAt? (lines : List LogicalLine) (i : Nat) : Option RowText :=
  (lines[i]?.bind LogicalLine.rowPart?).bind fun head =>
    (openStruct? (lines.take i)).map fun struct =>
      ⟨struct, head, continuations (lines.drop (i + 1))⟩

/-- The position of the first line after the row that begins at a position. -/
def rowEnd (lines : List LogicalLine) (i : Nat) : Nat :=
  i + 1 + (continuations (lines.drop (i + 1))).length

/-- The positions at which the rows of a struct begin. -/
def rowPositions (lines : List LogicalLine) (struct : String) : List Nat :=
  (List.range lines.length).filter fun i => (rowAt? lines i).any (·.struct == struct)

/-- Reads a row that is complete. -/
def RowText.read (tables : Entries Table) (t : Table) (r : RowText) : Except Fault Instance :=
  let pieces := splitTop ',' r.text
  (readRow tables t r pieces.length 0 false [] pieces).map (.ofFields t.name)

/-- The state after reading lines; the last row may still wait for more of them. -/
def Builder.run (b : Builder) : List LogicalLine → Except Fault Builder
  | [] => .ok b
  | l :: ls => (b.feed l).bind fun b => b.run ls

/-- `row` is the row that begins at a position, read against what is declared by the lines before
the first line after it. -/
def BuiltAt (lines : List LogicalLine) (i : Nat) (row : Instance) : Prop :=
  ∃ r b t, rowAt? lines i = some r ∧ Builder.start.run (lines.take (rowEnd lines i)) = .ok b ∧
    b.document.table? r.struct = some t ∧ r.read b.document.tables t = .ok row

/-- The rows of a struct, none if it is not declared. -/
def Document.rowsOf (d : Document) (struct : String) : List Instance :=
  match d.table? struct with
  | some t => t.rows
  | none => []

section Lines

variable {lines pre more : List LogicalLine} {l : LogicalLine} {i : Nat} {struct : String}

/-- A line that adds a part to a row is a continuation. -/
theorem exists_continuation {part : RowPart} (h : l.continuation? = some part) :
    ∃ text, LineKind.ofLine? l.text.toList = some (.continuation text) ∧
      part = ⟨text.text, l, text.offset⟩ := by
  unfold LogicalLine.continuation? at h
  split at h
  · next text hkind =>
    cases h
    exact ⟨text, hkind, rfl⟩
  · cases h

/-- A line that begins a row with a part is the line of a row. -/
theorem exists_arguments {part : RowPart} (h : l.rowPart? = some part) :
    ∃ arguments, LineKind.ofLine? l.text.toList = some (.row arguments) ∧
      part = ⟨arguments.text, l, arguments.offset⟩ := by
  unfold LogicalLine.rowPart? at h
  split at h
  · next arguments hkind =>
    cases h
    exact ⟨arguments, hkind, rfl⟩
  · cases h

theorem of_continuation? {part : RowPart} (h : l.continuation? = some part) :
    l.header? = none ∧ l.rowPart? = none := by
  obtain ⟨text, hkind, -⟩ := exists_continuation h
  unfold LogicalLine.header? LogicalLine.rowPart?
  rw [hkind]
  exact ⟨rfl, rfl⟩

theorem of_rowPart? {part : RowPart} (h : l.rowPart? = some part) :
    l.header? = none ∧ l.continuation? = none := by
  obtain ⟨arguments, hkind, -⟩ := exists_arguments h
  unfold LogicalLine.header? LogicalLine.continuation?
  rw [hkind]
  exact ⟨rfl, rfl⟩

/-- The text of a row is that of its parts, with single blanks between them. -/
theorem RowText.text_eq_intercalate (r : RowText) :
    r.text = [' '].intercalate ((r.head :: r.tail).map RowPart.text) := by
  obtain ⟨struct, head, tail⟩ := r
  show join head tail = _
  induction tail generalizing head with
  | nil => simp [join]
  | cons part more ih => rw [join, ih]; simp [List.intercalate]

theorem length_continuations_le (lines : List LogicalLine) :
    (continuations lines).length ≤ lines.length := by
  induction lines with
  | nil => exact Nat.le_refl _
  | cons l lines ih =>
      rw [continuations]
      split
      · exact Nat.succ_le_succ ih
      · exact Nat.zero_le _

theorem rowEnd_le (hi : i < lines.length) : rowEnd lines i ≤ lines.length := by
  have hle := length_continuations_le (lines.drop (i + 1))
  rw [List.length_drop] at hle
  unfold rowEnd
  omega

theorem forall_head?_cons (h : l.continuation? = none) (more : List LogicalLine) :
    ∀ l' ∈ (l :: more).head?, l'.continuation? = none := by
  rintro l' ⟨⟩
  exact h

/-- Lines that begin with no continuation do not go on the rows before them. -/
theorem continuations_append (hmore : ∀ l ∈ more.head?, l.continuation? = none) :
    continuations (pre ++ more) = continuations pre := by
  induction pre with
  | nil =>
      cases more with
      | nil => rfl
      | cons l more =>
          show continuations (l :: more) = []
          rw [continuations, hmore l rfl]
  | cons l pre ih =>
      rw [List.cons_append, continuations, continuations, ih]

theorem continuations_of_map {tail : List RowPart}
    (h : lines.map LogicalLine.continuation? = tail.map some) : continuations lines = tail := by
  induction lines generalizing tail with
  | nil =>
      rw [List.map_nil, eq_comm, List.map_eq_nil_iff] at h
      rw [h]
      rfl
  | cons l lines ih =>
      cases tail with
      | nil => cases h
      | cons part tail =>
          rw [List.map_cons, List.map_cons, List.cons.injEq] at h
          rw [continuations, h.1, ih h.2]

theorem rowAt?_append (hmore : ∀ l ∈ more.head?, l.continuation? = none) (hi : i < pre.length) :
    rowAt? (pre ++ more) i = rowAt? pre i := by
  unfold rowAt?
  rw [List.getElem?_append_left hi, List.take_append_of_le_length (Nat.le_of_lt hi),
    List.drop_append_of_le_length hi, continuations_append hmore]

theorem rowEnd_append (hmore : ∀ l ∈ more.head?, l.continuation? = none) (hi : i < pre.length) :
    rowEnd (pre ++ more) i = rowEnd pre i := by
  unfold rowEnd
  rw [List.drop_append_of_le_length hi, continuations_append hmore]

theorem lt_of_rowAt? {r : RowText} (h : rowAt? lines i = some r) : i < lines.length := by
  obtain ⟨head, hhead, -⟩ := Option.bind_eq_some_iff.mp h
  obtain ⟨l, hl, -⟩ := Option.bind_eq_some_iff.mp hhead
  exact (List.getElem?_eq_some_iff.mp hl).1

/-- A row that is complete stays built as it is. -/
theorem BuiltAt.append {row : Instance} (h : BuiltAt pre i row)
    (hmore : ∀ l ∈ more.head?, l.continuation? = none) : BuiltAt (pre ++ more) i row := by
  obtain ⟨r, b, t, hr, hrun, ht, hread⟩ := h
  have hi := lt_of_rowAt? hr
  refine ⟨r, b, t, (rowAt?_append hmore hi).trans hr, ?_, ht, hread⟩
  rw [rowEnd_append hmore hi, List.take_append_of_le_length (rowEnd_le hi)]
  exact hrun

/-- The rows of a struct among more lines are those from before and those that begin later. -/
theorem rowPositions_append (hmore : ∀ l ∈ more.head?, l.continuation? = none) (struct : String) :
    rowPositions (pre ++ more) struct = rowPositions pre struct ++
      ((List.range more.length).map (pre.length + ·)).filter fun i =>
        (rowAt? (pre ++ more) i).any (·.struct == struct) := by
  unfold rowPositions
  rw [List.length_append, List.range_add, List.filter_append]
  congr 1
  refine List.filter_congr fun i hi => ?_
  rw [rowAt?_append hmore (List.mem_range.mp hi)]

theorem openStruct?_append (pre more : List LogicalLine) :
    openStruct? (pre ++ more) = (openStruct? more).or (openStruct? pre) := by
  rw [openStruct?, List.filterMap_append, List.getLast?_append]
  rfl

theorem openStruct?_singleton (l : LogicalLine) : openStruct? [l] = l.header? := by
  unfold openStruct?
  rw [List.filterMap_cons]
  cases l.header? <;> rfl

/-- Where no line begins a row there is none. -/
theorem rowAt?_eq_none (h : ∀ l, lines[i]? = some l → l.rowPart? = none) : rowAt? lines i = none := by
  unfold rowAt?
  cases hl : lines[i]? with
  | none => rfl
  | some l => rw [Option.bind_some, h l hl, Option.bind_none]

/-- Lines that begin no row add none. -/
theorem rowPositions_append_of_forall (hmore : ∀ l ∈ more.head?, l.continuation? = none)
    (hpart : ∀ l ∈ more, l.rowPart? = none) (struct : String) :
    rowPositions (pre ++ more) struct = rowPositions pre struct := by
  rw [rowPositions_append hmore, List.filter_eq_nil_iff.mpr, List.append_nil]
  intro i hi
  obtain ⟨k, -, rfl⟩ := List.mem_map.mp hi
  rw [rowAt?_eq_none fun l hl => ?_]
  · simp
  · rw [List.getElem?_append_right (Nat.le_add_right _ _), Nat.add_sub_cancel_left] at hl
    exact hpart l (List.mem_of_getElem? hl)

section Block

variable {head : RowPart} {tail : List RowPart}

theorem rowPart?_of_mem (htail : more.map LogicalLine.continuation? = tail.map some) :
    ∀ l ∈ more, l.header? = none ∧ l.rowPart? = none := by
  intro l hl
  have hin : l.continuation? ∈ tail.map some := htail ▸ List.mem_map_of_mem hl
  obtain ⟨part, -, hpart⟩ := List.mem_map.mp hin
  exact of_continuation? hpart.symm

/-- A line that begins a row and the continuations after it open no struct. -/
theorem openStruct?_row (hhead : l.rowPart? = some head)
    (htail : more.map LogicalLine.continuation? = tail.map some) :
    openStruct? (l :: more) = none := by
  unfold openStruct?
  rw [List.filterMap_eq_nil_iff.mpr, List.getLast?_nil]
  intro l' hl'
  rcases List.mem_cons.mp hl' with rfl | hl'
  · exact (of_rowPart? hhead).1
  · exact (rowPart?_of_mem htail l' hl').1

theorem rowAt?_row (hhead : l.rowPart? = some head)
    (htail : more.map LogicalLine.continuation? = tail.map some)
    (hopen : openStruct? pre = some struct) :
    rowAt? (pre ++ l :: more) pre.length = some ⟨struct, head, tail⟩ := by
  have hl : (pre ++ l :: more)[pre.length]? = some l := by
    rw [List.getElem?_append_right (Nat.le_refl _), Nat.sub_self]
    rfl
  have hdrop : (pre ++ l :: more).drop (pre.length + 1) = more := by
    rw [List.drop_length_add_append]
    rfl
  rw [rowAt?, hl, Option.bind_some, hhead, Option.bind_some, List.take_left, hopen, Option.map_some,
    hdrop, continuations_of_map htail]

theorem rowEnd_row (htail : more.map LogicalLine.continuation? = tail.map some) :
    rowEnd (pre ++ l :: more) pre.length = (pre ++ l :: more).length := by
  have hdrop : (pre ++ l :: more).drop (pre.length + 1) = more := by
    rw [List.drop_length_add_append]
    rfl
  have hlength : more.length = tail.length := by
    simpa using congrArg List.length htail
  rw [rowEnd, hdrop, continuations_of_map htail, List.length_append, List.length_cons, hlength]
  omega

/-- A row that ends the lines is the last of its struct. -/
theorem rowPositions_row (hhead : l.rowPart? = some head)
    (htail : more.map LogicalLine.continuation? = tail.map some)
    (hopen : openStruct? pre = some struct) (other : String) :
    rowPositions (pre ++ l :: more) other =
      rowPositions pre other ++ if struct = other then [pre.length] else [] := by
  rw [rowPositions_append (forall_head?_cons (of_rowPart? hhead).2 more)]
  congr 1
  have hlater : ∀ i ∈ (List.range more.length).map fun k => pre.length + (k + 1),
      ¬ (rowAt? (pre ++ l :: more) i).any (·.struct == other) := by
    intro i hi
    obtain ⟨k, -, rfl⟩ := List.mem_map.mp hi
    rw [rowAt?_eq_none fun l' hl' => ?_]
    · simp
    · rw [List.getElem?_append_right (Nat.le_add_right _ _), Nat.add_sub_cancel_left,
        List.getElem?_cons_succ] at hl'
      exact (rowPart?_of_mem htail l' (List.mem_of_getElem? hl')).2
  rw [List.length_cons, List.range_succ_eq_map, List.map_cons, List.map_map, List.filter_cons,
    Nat.add_zero, rowAt?_row hhead htail hopen]
  have hnil : ((List.range more.length).map ((pre.length + ·) ∘ Nat.succ)).filter
      (fun i => (rowAt? (pre ++ l :: more) i).any (·.struct == other)) = [] :=
    List.filter_eq_nil_iff.mpr hlater
  rw [hnil]
  by_cases heq : struct = other <;> simp [heq]

end Block

end Lines

/-! ## Rows that are complete -/

/-- Changing a struct changes no other. -/
theorem Document.table?_modifyTable (d : Document) (name struct : String) (change : Table → Table) :
    (d.modifyTable name change).table? struct =
      (d.table? struct).map fun t => if struct = name then change t else t := by
  unfold modifyTable table?
  rw [Entries.get?_modify]
  by_cases h : struct = name <;> simp [h]

namespace Builder

variable {b b' : Builder} {l : LogicalLine} {lines : List LogicalLine}

theorem run_append (b : Builder) (xs ys : List LogicalLine) :
    b.run (xs ++ ys) = (b.run xs).bind fun b => b.run ys := by
  induction xs generalizing b with
  | nil => rfl
  | cons l xs ih =>
      rw [List.cons_append, run, run]
      cases b.feed l with
      | error e => rfl
      | ok b => exact ih b

theorem feedAll_eq (b : Builder) (lines : List LogicalLine) :
    b.feedAll lines = (b.run lines).bind fun b => b.flush.map document := by
  induction lines generalizing b with
  | nil => rfl
  | cons l lines ih =>
      rw [feedAll, run]
      cases b.feed l with
      | error e => rfl
      | ok b => exact ih b

/-- Reading one more line is reading the lines and then feeding it. -/
theorem run_snoc_eq_ok_iff :
    b.run (lines ++ [l]) = .ok b' ↔ ∃ before, b.run lines = .ok before ∧ before.feed l = .ok b' := by
  rw [run_append, bind_eq_ok_iff]
  simp only [run, bind_eq_ok_iff, Except.ok.injEq, exists_eq_right]

/-- Completing a row appends it to its struct and changes nothing else. -/
theorem addRow_eq_ok_iff {r : RowText} :
    b.addRow r = .ok b' ↔ ∃ t row, b.document.table? r.struct = some t ∧
      r.read b.document.tables t = .ok row ∧
        b' = { b.modifyTable r.struct (·.addRow row) with row := none } := by
  unfold addRow
  cases b.document.table? r.struct with
  | none => simp
  | some t =>
      simp only [RowText.read, map_eq_ok_iff]
      constructor
      · rintro ⟨fields, hfields, rfl⟩
        exact ⟨t, _, rfl, ⟨fields, hfields, rfl⟩, rfl⟩
      · rintro ⟨_, _, ⟨⟩, ⟨fields, hfields, rfl⟩, rfl⟩
        exact ⟨fields, hfields, rfl⟩

theorem row_of_flush (h : b.flush = .ok b') : b'.row = none := by
  unfold flush at h
  split at h
  · next hrow =>
    cases h
    exact hrow
  · obtain ⟨_, _, -, -, rfl⟩ := addRow_eq_ok_iff.mp h
    rfl

/-- What reading a line does: it goes on the row that waits, or this row is complete and the line
begins another or declares something. -/
theorem feed_cases (h : b.feed l = .ok b') :
    (∃ part r, l.continuation? = some part ∧ b.row = some r ∧
      b' = { b with row := some (r.extend part) }) ∨
    (∃ head struct flushed, l.rowPart? = some head ∧ b.flush = .ok flushed ∧
      flushed.current = some struct ∧ b' = { flushed with row := some ⟨struct, head, []⟩ }) ∨
    ∃ kind flushed, LineKind.ofLine? l.text.toList = some kind ∧ l.continuation? = none ∧
      l.rowPart? = none ∧ b.flush = .ok flushed ∧ flushed.declare l kind = .ok b' := by
  unfold LogicalLine.continuation? LogicalLine.rowPart?
  unfold feed at h
  cases hkind : LineKind.ofLine? l.text.toList with
  | none =>
      rw [hkind] at h
      cases h
  | some kind =>
      rw [hkind] at h
      cases kind with
      | continuation text =>
          unfold continueRow at h
          cases hrow : b.row with
          | none =>
              rw [hrow] at h
              cases h
          | some r =>
              rw [hrow] at h
              cases h
              exact .inl ⟨_, r, rfl, rfl, rfl⟩
      | row arguments =>
          obtain ⟨flushed, hflush, hbegin⟩ := bind_eq_ok_iff.mp h
          obtain ⟨struct, hstruct, rfl⟩ := map_eq_ok_iff.mp hbegin
          refine .inr (.inl ⟨_, struct, flushed, rfl, hflush, ?_, rfl⟩)
          unfold currentStruct at hstruct
          split at hstruct
          · next hcurrent =>
            cases hstruct
            exact hcurrent
          · cases hstruct
      | header name =>
          obtain ⟨flushed, hflush, hdeclare⟩ := bind_eq_ok_iff.mp h
          exact .inr (.inr ⟨_, flushed, rfl, rfl, rfl, hflush, hdeclare⟩)
      | field f =>
          obtain ⟨flushed, hflush, hdeclare⟩ := bind_eq_ok_iff.mp h
          exact .inr (.inr ⟨_, flushed, rfl, rfl, rfl, hflush, hdeclare⟩)
      | override name value =>
          obtain ⟨flushed, hflush, hdeclare⟩ := bind_eq_ok_iff.mp h
          exact .inr (.inr ⟨_, flushed, rfl, rfl, rfl, hflush, hdeclare⟩)

/-! ## Lines that declare something -/

theorem rows_of_changeField {t u : Table} {name : String} {change : Field → Field}
    (h : t.changeField name change = .ok u) : u.rows = t.rows := by
  unfold Table.changeField at h
  split at h
  · cases h
  · cases h
    rfl

theorem rows_of_overridden {t u : Table} {field : Field} {value : Part}
    (h : b.overridden l t field value = .ok u) : u.rows = t.rows := by
  unfold overridden at h
  split at h
  · split at h
    · cases h
    · next hdefault => exact (rows_of_changeField h).trans (rows_of_changeField hdefault)
  · split at h
    · split at h
      · cases h
      · exact rows_of_changeField h
    · split at h
      · cases h
      · exact rows_of_changeField h

theorem globals_header (b : Builder) (name : String) :
    (b.header name).document.globals = b.document.globals := by
  unfold header
  simp only
  split <;> rfl

theorem rowsOf_header (b : Builder) (name struct : String) :
    (b.header name).document.rowsOf struct = b.document.rowsOf struct := by
  unfold header
  simp only
  split
  · rfl
  · next hnone =>
    unfold Document.rowsOf Document.table?
    simp only [Entries.get?_insert]
    by_cases heq : name = struct
    · -- the new struct has no rows
      rw [← heq]
      rw [Document.table?] at hnone
      rw [hnone, if_pos rfl]
      rfl
    · rw [if_neg heq]

/-- A change of a struct that keeps its rows keeps all rows. -/
theorem rowsOf_modifyTable_eq {d : Document} {name : String} {change : Table → Table}
    (h : ∀ t, d.table? name = some t → (change t).rows = t.rows) (struct : String) :
    (d.modifyTable name change).rowsOf struct = d.rowsOf struct := by
  rw [Document.rowsOf, Document.table?_modifyTable, Document.rowsOf]
  cases ht : d.table? struct with
  | none => rfl
  | some t =>
      show (if struct = name then change t else t).rows = t.rows
      split
      · next heq =>
        subst heq
        exact h t ht
      · rfl

/-- What a line does once the row before it is complete. -/
inductive Declares (b : Builder) (l : LogicalLine) : LineKind → Builder → Prop
  | header (name : List Char) : Declares b l (.header name) (b.header (String.ofList name))
  /-- A global is set, to null if no value is written. -/
  | global {f : FieldLine} {v : Value} : f.isGlobal = true →
      (if f.value.text.isEmpty then .ok .null
        else (b.reader l f.value).read f.value.text (typeOf f)) = .ok v →
      Declares b l (.field f)
        { b with document := b.document.setGlobal (String.ofList f.name.text) v }
  | field {f : FieldLine} {struct : String} {g : Field} : f.isGlobal = false →
      b.current = some struct → b.fieldOf l f = .ok g →
      Declares b l (.field f) (b.modifyTable struct (·.addField g))
  /-- There is no struct whose field could be overridden. -/
  | undeclared {name value : Part} {struct : String} : b.current = some struct →
      b.document.table? struct = none → Declares b l (.override name value) b
  | override {name value : Part} {struct : String} {t u : Table} {field : Field} :
      b.current = some struct → b.document.table? struct = some t →
      t.field? (String.ofList name.text) = some field → b.overridden l t field value = .ok u →
      Declares b l (.override name value) (b.modifyTable struct fun _ => u)
  | row {arguments : Part} {struct : String} : b.current = some struct →
      Declares b l (.row arguments)
        { b with row := some ⟨struct, ⟨arguments.text, l, arguments.offset⟩, []⟩ }
  | continuation {text : Part} {r : RowText} : b.row = some r →
      Declares b l (.continuation text)
        { b with row := some (r.extend ⟨text.text, l, text.offset⟩) }

theorem currentStruct_eq_ok {offset : Nat} {line : StructLine} {struct : String}
    (h : b.currentStruct l offset line = .ok struct) : b.current = some struct := by
  unfold currentStruct at h
  split at h
  · next heq =>
    cases h
    exact heq
  · cases h

theorem declares_of_declare {kind : LineKind} (h : b.declare l kind = .ok b') :
    b.Declares l kind b' := by
  cases kind with
  | header name =>
      cases h
      exact .header name
  | field f =>
      rw [declare] at h
      split at h
      · next hglobal =>
        unfold global at h
        simp only at h
        split at h
        · cases h
        · split at h
          · cases h
          · obtain ⟨v, hv, rfl⟩ := map_eq_ok_iff.mp h
            exact .global hglobal hv
      · next hfield =>
        unfold field at h
        split at h
        · cases h
        · next hstruct =>
          obtain ⟨g, hg, rfl⟩ := map_eq_ok_iff.mp h
          exact .field (Bool.eq_false_iff.mpr hfield) (currentStruct_eq_ok hstruct) hg
  | override name value =>
      rw [declare, Builder.override] at h
      split at h
      · cases h
      · next hstruct =>
        split at h
        · next hnone =>
          cases h
          exact .undeclared (currentStruct_eq_ok hstruct) hnone
        · next t ht =>
          simp only at h
          split at h
          · cases h
          · next field hfield =>
            obtain ⟨u, hu, rfl⟩ := map_eq_ok_iff.mp h
            exact .override (currentStruct_eq_ok hstruct) ht hfield hu
  | row arguments =>
      obtain ⟨struct, hstruct, rfl⟩ := map_eq_ok_iff.mp h
      exact .row (currentStruct_eq_ok hstruct)
  | continuation text =>
      rw [declare, continueRow] at h
      split at h
      · cases h
      · next r hrow =>
        cases h
        exact .continuation hrow

/-- A line that declares something keeps all rows, and opens a struct if it is a header. -/
theorem declare_effect {kind : LineKind} (hkind : LineKind.ofLine? l.text.toList = some kind)
    (hcontinuation : l.continuation? = none) (hpart : l.rowPart? = none)
    (h : b.declare l kind = .ok b') :
    b'.row = b.row ∧ b'.current = l.header?.or b.current ∧
      ∀ struct, b'.document.rowsOf struct = b.document.rowsOf struct := by
  unfold LogicalLine.header?
  unfold LogicalLine.continuation? at hcontinuation
  unfold LogicalLine.rowPart? at hpart
  rw [hkind] at hcontinuation hpart ⊢
  cases declares_of_declare h with
  | row _ => cases hpart
  | continuation _ => cases hcontinuation
  | header name => exact ⟨rfl, rfl, rowsOf_header b _⟩
  | global _ _ => exact ⟨rfl, rfl, fun _ => rfl⟩
  | field _ _ _ => exact ⟨rfl, rfl, rowsOf_modifyTable_eq fun _ _ => rfl⟩
  | undeclared _ _ => exact ⟨rfl, rfl, fun _ => rfl⟩
  | override _ ht _ hu =>
      refine ⟨rfl, rfl, rowsOf_modifyTable_eq fun t' ht' => ?_⟩
      rw [ht] at ht'
      cases ht'
      exact rows_of_overridden hu

/-! ## Rows in the order of their lines -/

/-- The lines are read up to a state in which no row waits: one after the other they are rows with
their continuations, and lines that declare something. -/
inductive Reads : List LogicalLine → Builder → Prop
  | start : Reads [] .start
  /-- A line that declares something. -/
  | line {pre : List LogicalLine} {l : LogicalLine} {b b' : Builder} {kind : LineKind} :
      Reads pre b → LineKind.ofLine? l.text.toList = some kind → l.continuation? = none →
      l.rowPart? = none → b.declare l kind = .ok b' → Reads (pre ++ [l]) b'
  /-- A row, once it is complete. -/
  | row {pre : List LogicalLine} {l : LogicalLine} {more : List LogicalLine} {b b' : Builder}
      {struct : String} {head : RowPart} {tail : List RowPart} :
      Reads pre b → l.rowPart? = some head →
      more.map LogicalLine.continuation? = tail.map some → b.current = some struct →
      Builder.start.run (pre ++ l :: more) = .ok { b with row := some ⟨struct, head, tail⟩ } →
      b.addRow ⟨struct, head, tail⟩ = .ok b' → Reads (pre ++ l :: more) b'

/-- The lines end with a row that may go on. -/
def Waits (lines : List LogicalLine) (b : Builder) : Prop :=
  ∃ pre l more read struct head tail, lines = pre ++ l :: more ∧ Reads pre read ∧
    l.rowPart? = some head ∧ more.map LogicalLine.continuation? = tail.map some ∧
    read.current = some struct ∧ b = { read with row := some ⟨struct, head, tail⟩ }

/-- Once the row that waits is complete, none waits. -/
theorem reads_of_flush (hrun : start.run lines = .ok b)
    (h : (b.row = none ∧ Reads lines b) ∨ Waits lines b) (hflush : b.flush = .ok b') :
    Reads lines b' := by
  rcases h with ⟨hrow, hreads⟩ | ⟨pre, l, more, read, struct, head, tail, rfl, hreads, hhead,
    htail, hcurrent, rfl⟩
  · unfold flush at hflush
    rw [hrow] at hflush
    cases hflush
    exact hreads
  · exact .row hreads hhead htail hcurrent hrun hflush

theorem reads_or_waits_of_run (h : start.run lines = .ok b) :
    (b.row = none ∧ Reads lines b) ∨ Waits lines b := by
  induction lines using List.reverseRecOn generalizing b with
  | nil =>
      cases h
      exact .inl ⟨rfl, .start⟩
  | append_singleton lines l ih =>
      obtain ⟨before, hbefore, hfeed⟩ := run_snoc_eq_ok_iff.mp h
      rcases feed_cases hfeed with ⟨part, r, hpart, hrow, rfl⟩ |
        ⟨head, struct, flushed, hhead, hflush, hcurrent, rfl⟩ |
        ⟨kind, flushed, hkind, hcontinuation, hpart, hflush, hdeclare⟩
      · rcases ih hbefore with ⟨hnone, -⟩ | ⟨pre, l', more, read, struct, head, tail, rfl, hreads,
          hhead, htail, hcurrent, rfl⟩
        · rw [hrow] at hnone
          cases hnone
        · cases hrow
          refine .inr ⟨pre, l', more ++ [l], read, struct, head, tail ++ [part], ?_, hreads, hhead,
            ?_, hcurrent, rfl⟩
          · rw [List.append_assoc, List.cons_append]
          · rw [List.map_append, List.map_append, htail, List.map_singleton, hpart]
            rfl
      · exact .inr ⟨lines, l, [], flushed, struct, head, [], rfl,
          reads_of_flush hbefore (ih hbefore) hflush, hhead, rfl, hcurrent, rfl⟩
      · refine .inl ⟨?_, .line (reads_of_flush hbefore (ih hbefore) hflush) hkind hcontinuation hpart
          hdeclare⟩
        rw [(declare_effect hkind hcontinuation hpart hdeclare).1]
        exact row_of_flush hflush

/-- The struct that is open is that of the last header. -/
theorem current_of_reads (h : Reads lines b) : b.current = openStruct? lines := by
  induction h with
  | start => rfl
  | line _ hkind hcontinuation hpart hdeclare ih =>
      rw [openStruct?_append, openStruct?_singleton, ← ih]
      exact (declare_effect hkind hcontinuation hpart hdeclare).2.1
  | row _ hhead htail _ _ hadd ih =>
      obtain ⟨t, row, -, -, rfl⟩ := addRow_eq_ok_iff.mp hadd
      rw [openStruct?_append, openStruct?_row hhead htail, Option.none_or, ← ih]
      rfl

/-- The rows of a struct are those that begin while its header is the last, in their order. -/
theorem rows_of_reads (h : Reads lines b) (struct : String) :
    List.Forall₂ (BuiltAt lines) (rowPositions lines struct) (b.document.rowsOf struct) := by
  induction h with
  | start => exact .nil
  | @line pre l b b' kind hreads hkind hcontinuation hpart hdeclare ih =>
      have hmore := forall_head?_cons hcontinuation []
      rw [rowPositions_append_of_forall hmore (List.forall_mem_singleton.mpr hpart),
        (declare_effect hkind hcontinuation hpart hdeclare).2.2]
      exact ih.imp fun _ _ hbuilt => hbuilt.append hmore
  | @row pre l more b b' rowStruct head tail hreads hhead htail hcurrent hrun hadd ih =>
      have hmore := forall_head?_cons (of_rowPart? hhead).2 more
      have hopen : openStruct? pre = some rowStruct := (current_of_reads hreads).symm.trans hcurrent
      obtain ⟨t, row, ht, hread, rfl⟩ := addRow_eq_ok_iff.mp hadd
      have hbuilt : BuiltAt (pre ++ l :: more) pre.length row := by
        refine ⟨_, { b with row := some ⟨rowStruct, head, tail⟩ }, t, rowAt?_row hhead htail hopen,
          ?_, ht, hread⟩
        rw [rowEnd_row htail, List.take_length]
        exact hrun
      have hrows : (b.document.modifyTable rowStruct (·.addRow row)).rowsOf struct =
          b.document.rowsOf struct ++ if rowStruct = struct then [row] else [] := by
        rw [Document.rowsOf, Document.table?_modifyTable, Document.rowsOf]
        by_cases heq : rowStruct = struct
        · subst heq
          rw [ht]
          simp [Table.addRow]
        · cases b.document.table? struct <;> simp [heq, Ne.symm heq]
      rw [rowPositions_row hhead htail hopen]
      show List.Forall₂ _ _ ((b.document.modifyTable rowStruct (·.addRow row)).rowsOf struct)
      rw [hrows]
      refine List.rel_append (ih.imp fun _ _ hbefore => hbefore.append hmore) ?_
      by_cases heq : rowStruct = struct
      · rw [if_pos heq, if_pos heq]
        exact .cons hbuilt .nil
      · rw [if_neg heq, if_neg heq]
        exact .nil

/-- Every line that begins a row comes after a header. -/
theorem exists_rowAt? (h : Reads lines b) {i : Nat} {line : LogicalLine} {part : RowPart}
    (hline : lines[i]? = some line) (hpart : line.rowPart? = some part) :
    ∃ r, rowAt? lines i = some r := by
  induction h with
  | start => cases hline
  | @line pre l _ _ _ _ _ hcontinuation hnone _ ih =>
      have hmore := forall_head?_cons hcontinuation []
      rcases Nat.lt_or_ge i pre.length with hi | hi
      · rw [rowAt?_append hmore hi]
        rw [List.getElem?_append_left hi] at hline
        exact ih hline
      · rw [List.getElem?_append_right hi] at hline
        rw [List.mem_singleton.mp (List.mem_of_getElem? hline), hnone] at hpart
        cases hpart
  | @row pre l more b _ struct head tail hreads hhead htail hcurrent _ _ ih =>
      have hmore := forall_head?_cons (of_rowPart? hhead).2 more
      rcases Nat.lt_or_ge i pre.length with hi | hi
      · rw [rowAt?_append hmore hi]
        rw [List.getElem?_append_left hi] at hline
        exact ih hline
      · rw [List.getElem?_append_right hi] at hline
        obtain ⟨k, rfl⟩ := Nat.exists_eq_add_of_le hi
        rw [Nat.add_sub_cancel_left] at hline
        cases k with
        | zero => exact ⟨_, rowAt?_row hhead htail ((current_of_reads hreads).symm.trans hcurrent)⟩
        | succ k =>
            rw [List.getElem?_cons_succ] at hline
            rw [(rowPart?_of_mem htail line (List.mem_of_getElem? hline)).2] at hpart
            cases hpart

end Builder

/-- A document is what lines declare once the row that waits at their end is complete. -/
theorem Document.ofLines_eq_ok_iff {lines : List LogicalLine} {d : Document} :
    ofLines lines = .ok d ↔
      ∃ b b', Builder.start.run lines = .ok b ∧ b.flush = .ok b' ∧ b'.document = d := by
  rw [ofLines, Builder.feedAll_eq, bind_eq_ok_iff]
  simp only [map_eq_ok_iff, exists_and_left]

end RowConfig
