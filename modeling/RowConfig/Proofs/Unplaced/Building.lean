import RowConfig.Compile
import RowConfig.Proofs.Unplaced

/-!
# Reading lines that come from elsewhere

Joining physical lines and reading logical ones commute with forgetting where lines come from: lines
without places are joined alike (`assemble_unplaced`) and make the same document without its places,
or the same fault (`Document.ofSource_unplaced`).
-/

namespace RowConfig

open Chars
open Value (unplacedRow unplacedFields)

/-- The text of a line and that of its first physical line. -/
def LogicalLine.unplaced (l : LogicalLine) : LogicalLine := { l with origin := l.origin.unplaced }

/-! ## Joining lines -/

namespace Waiting

def unplaced : Waiting → Waiting
  | nothing => nothing
  | joined text origin => joined text origin.unplaced
  | unclosed text origin opener => unclosed text origin.unplaced opener.unplaced

end Waiting

namespace Joiner

def unplaced (j : Joiner) : Joiner := { j with waiting := j.waiting.unplaced }

theorem emit_unplaced (text : List Char) (origin : SourceLine) :
    emit text origin.unplaced = (emit text origin).map LogicalLine.unplaced := by
  unfold emit
  split <;> rfl

theorem extend_unplaced (j : Joiner) (line : SourceLine) (code : List Char) :
    j.unplaced.extend line.unplaced code =
      ((j.extend line code).1, (j.extend line code).2.1.unplaced,
        (j.extend line code).2.2.map Location.unplaced) := by
  obtain ⟨scan, waiting⟩ := j
  cases waiting <;> rfl

theorem feed_unplaced (j : Joiner) (line : SourceLine) :
    j.unplaced.feed line.unplaced =
      ((j.feed line).1.unplaced, (j.feed line).2.map LogicalLine.unplaced) := by
  unfold feed
  simp only
  rw [show j.unplaced.scan = j.scan from rfl, show line.unplaced.text = line.text from rfl,
    extend_unplaced]
  generalize j.extend line _ = extended
  obtain ⟨text, origin, opener⟩ := extended
  simp only
  split
  · cases opener <;> rfl
  · split
    · rfl
    · rw [emit_unplaced]
      rfl

theorem finish_unplaced (j : Joiner) :
    j.unplaced.finish = unplacedResult (List.map LogicalLine.unplaced) j.finish := by
  obtain ⟨scan, waiting⟩ := j
  cases waiting with
  | nothing => rfl
  | joined text origin => exact congrArg Except.ok (emit_unplaced text origin)
  | unclosed text origin opener =>
      simp only [finish, unplaced, Waiting.unplaced]
      cases scan.quote with
      | none => rfl
      | some q =>
          simp only
          split <;> rfl

theorem assemble_unplaced (j : Joiner) (lines : List SourceLine) :
    j.unplaced.assemble (lines.map SourceLine.unplaced) =
      unplacedResult (List.map LogicalLine.unplaced) (j.assemble lines) := by
  induction lines generalizing j with
  | nil => exact finish_unplaced j
  | cons line lines ih =>
      rw [List.map_cons, assemble, assemble, feed_unplaced]
      simp only
      rw [ih]
      exact map_unplacedResult fun _ => (List.map_append).symm

end Joiner

/-- Lines are joined alike wherever they come from. -/
theorem assemble_unplaced (lines : List SourceLine) :
    assemble (lines.map SourceLine.unplaced) =
      unplacedResult (List.map LogicalLine.unplaced) (assemble lines) :=
  Joiner.assemble_unplaced .start lines

/-! ## Structs and documents -/

theorem Entries.modify_mapValues {α β : Type} {f : α → β} {change : α → α} {change' : β → β}
    {name : String} {es : Entries α} (h : ∀ v, get? es name = some v → change' (f v) = f (change v)) :
    modify name change' (mapValues f es) = mapValues f (modify name change es) := by
  induction es with
  | nil => rfl
  | cons e es ih =>
      obtain ⟨k, v⟩ := e
      show (if k = name then (k, change' (f v)) :: mapValues f es
        else (k, f v) :: modify name change' (mapValues f es)) = _
      rw [modify]
      by_cases hk : k = name
      · rw [if_pos hk, if_pos hk, h v (by rw [get?, if_pos hk])]
        rfl
      · rw [if_neg hk, if_neg hk, ih fun w hw => h w (by rw [get?, if_neg hk, hw])]
        rfl

namespace Table

theorem placeField_unplaced (f : Field) (fields : List Field) :
    placeField f.unplaced (fields.map Field.unplaced) = (placeField f fields).map Field.unplaced := by
  induction fields with
  | nil => rfl
  | cons g fields ih =>
      rw [List.map_cons, placeField, placeField, ih]
      by_cases hname : g.name = f.name <;> simp [hname]

theorem addField_unplaced (t : Table) (f : Field) :
    t.unplaced.addField f.unplaced = (t.addField f).unplaced := by
  unfold addField unplaced
  simp only [placeField_unplaced]
  rfl

theorem addRow_unplaced (t : Table) (row : Instance) :
    t.unplaced.addRow (unplacedRow row) = (t.addRow row).unplaced := by
  unfold addRow unplaced
  simp only [List.map_append]
  rfl

theorem changeField_unplaced {t : Table} {name : String} {change change' : Field → Field}
    (h : ∀ f, change' f.unplaced = (change f).unplaced) :
    t.unplaced.changeField name change' = unplacedResult unplaced (t.changeField name change) := by
  have hfirst : ∀ fields : List Field, changeFirst name change' (fields.map Field.unplaced) =
      (changeFirst name change fields).map Field.unplaced := by
    intro fields
    induction fields with
    | nil => rfl
    | cons f fields ih =>
        rw [List.map_cons, changeFirst, changeFirst, ih, h]
        by_cases hname : f.name = name <;> simp [hname]
  unfold changeField
  rw [field?_unplaced]
  cases t.field? name with
  | none =>
      simp only [Option.map_none, unplacedResult_error]
      rw [unknownField_unplaced]
  | some f =>
      simp only [Option.map_some, unplacedResult_ok]
      rw [unplaced, hfirst]
      rfl

theorem setDefault_unplaced (t : Table) (name : String) (default : Option Value) :
    t.unplaced.setDefault name (default.map Value.unplaced) =
      unplacedResult unplaced (t.setDefault name default) :=
  changeField_unplaced fun _ => rfl

theorem setChoices_unplaced (t : Table) (name : String) (choices : Option (List Value)) :
    t.unplaced.setChoices name (choices.map (List.map Value.unplaced)) =
      unplacedResult unplaced (t.setChoices name choices) :=
  changeField_unplaced fun _ => rfl

end Table

namespace Document

/-- A document whose calls do not remember the files and lines that they are written on. -/
def unplaced (d : Document) : Document :=
  ⟨Entries.mapValues Value.unplaced d.globals, Entries.mapValues Table.unplaced d.tables⟩

@[simp] theorem structNames_unplaced (d : Document) : d.unplaced.structNames = d.structNames :=
  Entries.names_mapValues Table.unplaced d.tables

theorem table?_unplaced (d : Document) (name : String) :
    d.unplaced.table? name = (d.table? name).map Table.unplaced :=
  Table.get?_unplaced d.tables name

theorem setGlobal_unplaced (d : Document) (name : String) (v : Value) :
    d.unplaced.setGlobal name v.unplaced = (d.setGlobal name v).unplaced := by
  unfold setGlobal unplaced
  simp only [Entries.insert_mapValues]

theorem modifyTable_unplaced {d : Document} {name : String} {change change' : Table → Table}
    (h : ∀ t, d.table? name = some t → change' t.unplaced = (change t).unplaced) :
    d.unplaced.modifyTable name change' = (d.modifyTable name change).unplaced := by
  unfold modifyTable
  rw [unplaced, Entries.modify_mapValues h]
  rfl

end Document

/-! ## Rows as they are written -/

def RowPart.unplaced (part : RowPart) : RowPart := { part with line := part.line.unplaced }

namespace RowText

def unplaced (r : RowText) : RowText :=
  { r with head := r.head.unplaced, tail := r.tail.map RowPart.unplaced }

theorem join_unplaced (head : RowPart) (tail : List RowPart) :
    join head.unplaced (tail.map RowPart.unplaced) = join head tail := by
  induction tail generalizing head with
  | nil => rfl
  | cons part tail ih =>
      rw [List.map_cons, join, join, ih]
      rfl

@[simp] theorem text_unplaced (r : RowText) : r.unplaced.text = r.text := join_unplaced r.head r.tail

theorem partAt_unplaced (head : RowPart) (offset : Nat) (tail : List RowPart) :
    partAt head.unplaced offset (tail.map RowPart.unplaced) =
      ((partAt head offset tail).1.unplaced, (partAt head offset tail).2) := by
  induction tail generalizing head offset with
  | nil => rfl
  | cons part tail ih =>
      rw [List.map_cons, partAt, partAt]
      show (if offset < byteSize head.text + 1 then (head.unplaced, offset)
        else partAt part.unplaced (offset - (byteSize head.text + 1)) (tail.map RowPart.unplaced)) = _
      rw [ih]
      split <;> rfl

@[simp] theorem location_unplaced (r : RowText) (offset length : Nat) :
    r.unplaced.location offset length = (r.location offset length).unplaced := by
  unfold location
  rw [show r.unplaced.head = r.head.unplaced from rfl,
    show r.unplaced.tail = r.tail.map RowPart.unplaced from rfl, partAt_unplaced]
  rfl

end RowText

def RowArgument.unplaced (a : RowArgument) : RowArgument := { a with field := a.field.unplaced }

theorem assignArgument_unplaced (t : Table) (count position start : Nat) (named : Bool)
    (argument : List Char) :
    assignArgument t.unplaced count position start named argument =
      unplacedResult RowArgument.unplaced (assignArgument t count position start named argument) := by
  unfold assignArgument
  cases splitNamed? argument with
  | some n =>
      simp only
      rw [Table.field?_unplaced]
      cases t.field? (String.ofList n.name) with
      | some field => rfl
      | none =>
          simp only [Option.map_none, unplacedResult_error]
          rw [Table.unknownField_unplaced]
  | none =>
      simp only
      split
      · rfl
      · rw [Table.getElem?_fields_unplaced, Table.length_fields_unplaced]
        cases t.fields[position]? <;> rfl

theorem readRow_unplaced (tables : Entries Table) (t : Table) (r : RowText) (count position : Nat)
    (named : Bool) (fields : Entries Value) (pieces : List (Nat × List Char)) :
    readRow (Entries.mapValues Table.unplaced tables) t.unplaced r.unplaced count position named
        (unplacedFields fields) pieces =
      unplacedResult unplacedFields (readRow tables t r count position named fields pieces) := by
  induction pieces generalizing position named fields with
  | nil => rfl
  | cons piece pieces ih =>
      obtain ⟨offset, piece⟩ := piece
      rw [readRow, readRow]
      simp only
      split
      · exact ih _ _ _
      · rw [assignArgument_unplaced]
        cases assignArgument t count position _ named (trim piece) with
        | error fault => rfl
        | ok a =>
            simp only [unplacedResult_ok]
            have hread := Reader.readFor_unplaced
              ⟨tables, r.location a.offset (byteSize a.token)⟩ a.token a.field
            rw [Reader.unplaced, ← RowText.location_unplaced] at hread
            rw [show a.unplaced.token = a.token from rfl, show a.unplaced.offset = a.offset from rfl,
              show a.unplaced.field = a.field.unplaced from rfl, hread]
            cases Reader.readFor ⟨tables, r.location a.offset (byteSize a.token)⟩ a.token a.field with
            | error fault => rfl
            | ok v =>
                simp only [unplacedResult_ok]
                rw [← ih, ← insert_unplacedFields]
                rfl

/-! ## Reading lines -/

namespace Builder

def unplaced (b : Builder) : Builder :=
  { b with
    document := b.document.unplaced
    row := b.row.map RowText.unplaced }

theorem addRow_unplaced (b : Builder) (r : RowText) :
    b.unplaced.addRow r.unplaced = unplacedResult unplaced (b.addRow r) := by
  unfold addRow
  rw [show b.unplaced.document = b.document.unplaced from rfl, Document.table?_unplaced,
    show r.unplaced.struct = r.struct from rfl]
  cases b.document.table? r.struct with
  | none =>
      simp only [Option.map_none, Document.structNames_unplaced]
      rfl
  | some t =>
      simp only [Option.map_some, RowText.text_unplaced]
      have hread := readRow_unplaced b.document.tables t r (splitTop ',' r.text).length 0 false []
        (splitTop ',' r.text)
      refine (congrArg (Except.map _) hread).trans (map_unplacedResult fun fields => ?_)
      have hdocument : b.document.unplaced.modifyTable r.struct
            (·.addRow (.ofFields t.name (unplacedFields fields))) =
          (b.document.modifyTable r.struct (·.addRow (.ofFields t.name fields))).unplaced :=
        Document.modifyTable_unplaced fun u _ => Table.addRow_unplaced u (.ofFields t.name fields)
      exact congrArg (fun d => Builder.mk d b.current none) hdocument

theorem flush_unplaced (b : Builder) : b.unplaced.flush = unplacedResult unplaced b.flush := by
  obtain ⟨document, current, row⟩ := b
  cases row with
  | none => rfl
  | some r => exact addRow_unplaced _ r

theorem currentStruct_unplaced (b : Builder) (l : LogicalLine) (offset : Nat) (line : StructLine) :
    b.unplaced.currentStruct l.unplaced offset line =
      unplacedResult id (b.currentStruct l offset line) := by
  obtain ⟨document, current, row⟩ := b
  cases current <;> rfl

theorem header_unplaced (b : Builder) (name : String) :
    b.unplaced.header name = (b.header name).unplaced := by
  unfold header
  rw [show b.unplaced.document = b.document.unplaced from rfl, Document.table?_unplaced]
  cases b.document.table? name with
  | some t => rfl
  | none =>
      have hinsert := Entries.insert_mapValues Table.unplaced name (.empty name) b.document.tables
      exact congrArg (fun tables => Builder.mk ⟨_, tables⟩ (some name) _) hinsert

theorem global_unplaced (b : Builder) (l : LogicalLine) (f : FieldLine) :
    b.unplaced.global l.unplaced f = unplacedResult unplaced (b.global l f) := by
  unfold global
  simp only
  split
  · rfl
  · split
    · rfl
    · have hset : ∀ v : Value, { b.unplaced with
          document := b.unplaced.document.setGlobal (String.ofList f.name.text) v.unplaced } =
          unplaced { b with document := b.document.setGlobal (String.ofList f.name.text) v } :=
        fun v => congrArg (fun d => Builder.mk d _ _) (Document.setGlobal_unplaced b.document _ v)
      split
      · exact congrArg Except.ok (hset .null)
      · have hread := Reader.read_unplaced (b.reader l f.value) f.value.text (typeOf f)
        exact (congrArg (Except.map _) hread).trans (map_unplacedResult hset)

theorem fieldOf_unplaced (b : Builder) (l : LogicalLine) (f : FieldLine) :
    b.unplaced.fieldOf l.unplaced f = unplacedResult Field.unplaced (b.fieldOf l f) := by
  unfold fieldOf
  simp only
  split
  · rfl
  · split
    · have hread := Reader.readChoices_unplaced (b.reader l f.value) f.value.text
        { Field.ofType (String.ofList f.name.text) (typeOf f) with
          isKey := f.isKey
          nullable := f.nullable }
      exact (congrArg (Except.map _) hread).trans (map_unplacedResult fun _ => rfl)
    · have hread := Reader.read_unplaced (b.reader l f.value) f.value.text (typeOf f)
      exact (congrArg (Except.map _) hread).trans (map_unplacedResult fun _ => rfl)

/-- A change of a struct that commutes with forgetting places does so in a document. -/
theorem modifyTable_unplaced {b : Builder} {name : String} {change change' : Table → Table}
    (h : ∀ t, b.document.table? name = some t → change' t.unplaced = (change t).unplaced) :
    b.unplaced.modifyTable name change' = (b.modifyTable name change).unplaced :=
  congrArg (fun d => Builder.mk d _ _) (Document.modifyTable_unplaced h)

theorem field_unplaced (b : Builder) (l : LogicalLine) (f : FieldLine) :
    b.unplaced.field l.unplaced f = unplacedResult unplaced (b.field l f) := by
  unfold field
  rw [currentStruct_unplaced]
  cases b.currentStruct l 0 .field with
  | error fault => rfl
  | ok struct =>
      simp only [unplacedResult_ok, id_eq]
      rw [fieldOf_unplaced]
      exact map_unplacedResult fun g => modifyTable_unplaced fun t _ => Table.addField_unplaced t g

theorem overridden_unplaced (b : Builder) (l : LogicalLine) (t : Table) (field : Field)
    (value : Part) :
    b.unplaced.overridden l.unplaced t.unplaced field.unplaced value =
      unplacedResult Table.unplaced (b.overridden l t field value) := by
  unfold overridden
  simp only [Field.name_unplaced]
  rw [show b.unplaced.reader l.unplaced value = (b.reader l value).unplaced from rfl,
    Reader.readChoices_unplaced, Reader.readFor_unplaced]
  split
  · have hdefault := Table.setDefault_unplaced t field.name none
    rw [Option.map_none] at hdefault
    rw [hdefault]
    cases t.setDefault field.name none with
    | error fault => rfl
    | ok u => exact Table.setChoices_unplaced u field.name none
  · split
    · cases (b.reader l value).readChoices value.text field with
      | error fault => rfl
      | ok choices => exact Table.setChoices_unplaced t field.name (some choices)
    · cases (b.reader l value).readFor value.text field with
      | error fault => rfl
      | ok v => exact Table.setDefault_unplaced t field.name (some v)

theorem override_unplaced (b : Builder) (l : LogicalLine) (name value : Part) :
    b.unplaced.override l.unplaced name value =
      unplacedResult unplaced (b.override l name value) := by
  unfold override
  rw [currentStruct_unplaced]
  cases b.currentStruct l name.offset .override with
  | error fault => rfl
  | ok struct =>
      simp only [unplacedResult_ok, id_eq]
      rw [show b.unplaced.document = b.document.unplaced from rfl, Document.table?_unplaced]
      cases b.document.table? struct with
      | none => rfl
      | some t =>
          simp only [Option.map_some, Table.fieldNames_unplaced]
          rw [Table.field?_unplaced]
          cases t.field? (String.ofList name.text) with
          | none => rfl
          | some field =>
              simp only [Option.map_some]
              rw [overridden_unplaced]
              exact map_unplacedResult fun _ => modifyTable_unplaced fun _ _ => rfl

theorem declare_unplaced (b : Builder) (l : LogicalLine) (kind : LineKind) :
    b.unplaced.declare l.unplaced kind = unplacedResult unplaced (b.declare l kind) := by
  cases kind with
  | header name => exact congrArg Except.ok (header_unplaced b _)
  | field f =>
      rw [declare, declare]
      split
      · exact global_unplaced b l f
      · exact field_unplaced b l f
  | override name value => exact override_unplaced b l name value
  | row arguments =>
      rw [declare, declare, beginRow, beginRow, currentStruct_unplaced]
      exact map_unplacedResult fun _ => rfl
  | continuation text =>
      obtain ⟨document, current, row⟩ := b
      cases row with
      | none => rfl
      | some r =>
          show Except.ok (Builder.mk _ _ (some (r.unplaced.extend _))) =
            Except.ok (Builder.mk _ _ (some (r.extend _).unplaced))
          rw [RowText.unplaced, RowText.extend, RowText.extend, RowText.unplaced, List.map_append]
          rfl

theorem feed_unplaced (b : Builder) (l : LogicalLine) :
    b.unplaced.feed l.unplaced = unplacedResult unplaced (b.feed l) := by
  have hdeclare : ∀ kind, (b.unplaced.flush.bind fun b => b.declare l.unplaced kind) =
      unplacedResult unplaced (b.flush.bind fun b => b.declare l kind) := by
    intro kind
    rw [flush_unplaced]
    cases b.flush with
    | error fault => rfl
    | ok flushed => exact declare_unplaced flushed l kind
  unfold feed
  rw [show l.unplaced.text = l.text from rfl]
  cases LineKind.ofLine? l.text.toList with
  | none => rfl
  | some kind =>
      cases kind with
      | continuation text => exact declare_unplaced b l (.continuation text)
      | header name => exact hdeclare _
      | field f => exact hdeclare _
      | override name value => exact hdeclare _
      | row arguments => exact hdeclare _

theorem feedAll_unplaced (b : Builder) (lines : List LogicalLine) :
    b.unplaced.feedAll (lines.map LogicalLine.unplaced) =
      unplacedResult Document.unplaced (b.feedAll lines) := by
  induction lines generalizing b with
  | nil =>
      rw [List.map_nil, feedAll, feedAll, flush_unplaced]
      exact map_unplacedResult fun _ => rfl
  | cons l lines ih =>
      rw [List.map_cons, feedAll, feedAll, feed_unplaced]
      cases b.feed l with
      | error fault => rfl
      | ok b => exact ih b

end Builder

/-- Physical lines declare the same wherever they come from. -/
theorem Document.ofSource_unplaced (lines : List SourceLine) :
    ofSource (lines.map SourceLine.unplaced) = unplacedResult unplaced (ofSource lines) := by
  unfold ofSource
  rw [assemble_unplaced]
  cases assemble lines with
  | error fault => rfl
  | ok logical => exact Builder.feedAll_unplaced .start logical

end RowConfig
