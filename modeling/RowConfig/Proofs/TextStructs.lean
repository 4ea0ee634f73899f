import RowConfig.Builder
import RowConfig.Proofs.Arguments
import RowConfig.Proofs.LineShapes
import RowConfig.Proofs.Lines

/-!
# Structs of texts

A struct all of whose fields are texts, as it is declared, and the arguments that give each of its
fields a string: the first ones by position, the others by name in any order. The lines of the
declaration build the struct (`feedAll_lines`).
-/

namespace RowConfig

open Chars

/-- A field of texts, without default or choices. -/
structure TextField where
  name : String
  isKey : Bool
  nullable : Bool

/-- A struct with one or more fields of texts. -/
structure TextStruct where
  name : String
  fields : List TextField
  isIdentifier_name : isIdentifier name.toList
  isUpper_name : name.toList.head?.any Char.isUpper
  nonempty : fields ≠ []
  isIdentifier_field : ∀ f ∈ fields, isIdentifier f.name.toList
  nodup : (fields.map TextField.name).Nodup

/-- The arguments for a struct of texts: so many by position, the others by name. -/
structure TextArguments (t : TextStruct) where
  positional : Nat
  labels : List String
  /-- The blanks after a comma. -/
  gap : Nat
  perm : labels.Perm ((t.fields.map TextField.name).drop positional)

namespace TextField

/-- The field that is declared. -/
def field (f : TextField) : Field :=
  { Field.ofType f.name ⟨.str, false⟩ with isKey := f.isKey, nullable := f.nullable }

/-- The marks before the type. -/
def marks (f : TextField) : List Char :=
  (if f.isKey then ['*'] else []) ++ if f.nullable then ['?'] else []

/-- The line of the declaration. -/
def line (f : TextField) : List Char :=
  [' ', ' '] ++ LineKind.declaration f.marks ['s', 't', 'r'] false f.name.toList []

end TextField

namespace TextStruct

/-- The names of the fields. -/
def names (t : TextStruct) : List String := t.fields.map TextField.name

/-- The lines of the declaration. -/
def lines (t : TextStruct) : List (List Char) :=
  (t.name.toList ++ [':']) :: t.fields.map TextField.line

/-- The struct that is declared. -/
def table (t : TextStruct) : Table :=
  t.fields.foldl (fun table f => table.addField f.field) (.empty t.name)

/-- The struct has no primary key. -/
def Keyless (t : TextStruct) : Prop := ∀ f ∈ t.fields, f.isKey = false

/-- The fields with their strings. -/
def entries (t : TextStruct) (values : String → String) : Entries Value :=
  t.names.map fun name => (name, .text (.plain (values name)))

end TextStruct

/-- The texts of the arguments, `values` being the string of each field. -/
def TextArguments.texts {t : TextStruct} (a : TextArguments t) (values : String → String) :
    List (List Char) :=
  (t.names.take a.positional).map (fun name => argumentText none (values name)) ++
    a.labels.map fun name => argumentText (some name) (values name)

/-! ## The struct that is declared -/

namespace TextStruct

variable {t : TextStruct}

theorem placeField_of_not_mem {f : Field} {fields : List Field}
    (h : f.name ∉ fields.map Field.name) : Table.placeField f fields = fields ++ [f] := by
  induction fields with
  | nil => rfl
  | cons g fields ih =>
      rw [List.map_cons, List.mem_cons, not_or] at h
      rw [Table.placeField, if_neg (Ne.symm h.1), ih h.2]
      rfl

/-- Fields of new names are declared behind the others. -/
theorem foldl_addField (fields : List TextField) (u : Table)
    (hnodup : (u.fields.map Field.name ++ fields.map TextField.name).Nodup) :
    let declared := fields.foldl (fun table f => table.addField f.field) u
    declared.fields = u.fields ++ fields.map TextField.field ∧ declared.name = u.name ∧
      declared.rows = u.rows ∧ ((∀ f ∈ fields, f.isKey = false) → declared.key = u.key) := by
  induction fields generalizing u with
  | nil => exact ⟨(List.append_nil _).symm, rfl, rfl, fun _ => rfl⟩
  | cons f fields ih =>
      have hplace : (u.addField f.field).fields = u.fields ++ [f.field] := by
        apply placeField_of_not_mem
        intro hin
        exact (List.nodup_append.mp hnodup).2.2 _ hin _ List.mem_cons_self rfl
      have hnodup' : ((u.addField f.field).fields.map Field.name ++
          fields.map TextField.name).Nodup := by
        rw [hplace, List.map_append, List.append_assoc]
        exact hnodup
      obtain ⟨hfields, hname, hrows, hkey⟩ := ih (u.addField f.field) hnodup'
      refine ⟨?_, hname, hrows, ?_⟩
      · rw [List.foldl_cons, hfields, hplace, List.append_assoc]
        rfl
      · intro hkeyless
        rw [List.foldl_cons, hkey fun g hg => hkeyless g (List.mem_cons_of_mem _ hg)]
        show (if f.isKey then some f.name else u.key) = u.key
        rw [hkeyless f List.mem_cons_self, if_neg Bool.false_ne_true]

theorem fields_table (t : TextStruct) : t.table.fields = t.fields.map TextField.field :=
  (foldl_addField t.fields (.empty t.name) t.nodup).1

theorem name_table (t : TextStruct) : t.table.name = t.name :=
  (foldl_addField t.fields (.empty t.name) t.nodup).2.1

theorem rows_table (t : TextStruct) : t.table.rows = [] :=
  (foldl_addField t.fields (.empty t.name) t.nodup).2.2.1

theorem key_table (hkeyless : t.Keyless) : t.table.key = none :=
  (foldl_addField t.fields (.empty t.name) t.nodup).2.2.2 hkeyless

theorem fieldNames_table (t : TextStruct) : t.table.fieldNames = t.names := by
  rw [Table.fieldNames, t.fields_table, List.map_map]
  rfl

end TextStruct

/-! ## Its lines -/

namespace TextField

theorem mem_marks {f : TextField} {c : Char} (h : c ∈ f.marks) : c = '*' ∨ c = '?' := by
  rcases List.mem_append.mp h with h | h
  · split at h
    · exact .inl (List.mem_singleton.mp h)
    · cases h
  · split at h
    · exact .inr (List.mem_singleton.mp h)
    · cases h

theorem isMark_of_mem_marks {f : TextField} : ∀ c ∈ f.marks, LineKind.isMark c = true := by
  intro c hc
  rcases mem_marks hc with rfl | rfl <;> decide

theorem contains_marks (f : TextField) :
    f.marks.contains '*' = f.isKey ∧ f.marks.contains '?' = f.nullable := by
  unfold marks
  cases f.isKey <;> cases f.nullable <;> decide

theorem completeLine_line {f : TextField} (hname : isIdentifier f.name.toList) :
    CompleteLine f.line := by
  have hline : f.line =
      [' ', ' '] ++ (f.marks ++ (['s', 't', 'r', ' '] ++ (f.name.toList ++ [':']))) := rfl
  rw [hline]
  apply completeLine_of_bare
  · intro c hc
    simp only [List.mem_append] at hc
    rcases hc with hc | hc | hc | hc | hc
    · exact List.all_eq_true.mp (show [' ', ' '].all isBare by decide) c hc
    · rcases mem_marks hc with rfl | rfl <;> decide
    · exact List.all_eq_true.mp (show ['s', 't', 'r', ' '].all isBare by decide) c hc
    · exact isBare_of_isIdentifier hname c hc
    · exact List.all_eq_true.mp (show [':'].all isBare by decide) c hc
  · refine ⟨[' ', ' '] ++ (f.marks ++ (['s', 't', 'r', ' '] ++ f.name.toList)), ':', ?_,
      by decide, by decide⟩
    simp only [List.append_assoc]

end TextField

theorem TextStruct.completeLine_lines (t : TextStruct) : ∀ l ∈ t.lines, CompleteLine l := by
  intro l hl
  rcases List.mem_cons.mp hl with rfl | hl
  · refine completeLine_of_bare ?_ ⟨t.name.toList, ':', rfl, by decide, by decide⟩
    intro c hc
    rcases List.mem_append.mp hc with hc | hc
    · exact isBare_of_isIdentifier t.isIdentifier_name c hc
    · rw [List.mem_singleton.mp hc]
      decide
  · obtain ⟨f, hf, rfl⟩ := List.mem_map.mp hl
    exact f.completeLine_line (t.isIdentifier_field f hf)

/-! ## Building it -/

namespace TextStruct

variable {t : TextStruct}

/-- The state in which the struct is open and has been declared this far. -/
def builder (t : TextStruct) (table : Table) : Builder :=
  ⟨⟨[], [(t.name, table)]⟩, some t.name, none⟩

theorem modifyTable_builder (t : TextStruct) (table : Table) (change : Table → Table) :
    (t.builder table).modifyTable t.name change = t.builder (change table) := by
  unfold Builder.modifyTable Document.modifyTable builder
  simp only [Entries.modify, if_true]

theorem feed_header {l : LogicalLine} (hl : l.text.toList = t.name.toList ++ [':']) :
    Builder.start.feed l = .ok (t.builder (.empty t.name)) := by
  have hkind : LineKind.ofLine? l.text.toList = some (.header t.name.toList) := by
    rw [hl]
    exact LineKind.ofLine?_header t.isIdentifier_name t.isUpper_name
  unfold Builder.feed
  simp only [hkind]
  show Except.ok (Builder.start.header (String.ofList t.name.toList)) = _
  rw [String.ofList_toList]
  rfl

theorem feed_field {l : LogicalLine} {f : TextField} {table : Table}
    (hname : isIdentifier f.name.toList) (hl : l.text.toList = f.line) :
    (t.builder table).feed l = .ok (t.builder (table.addField f.field)) := by
  have hdeclaration : ∃ fl : FieldLine, LineKind.fieldLine? f.line = some fl ∧
      fl.isGlobal = false ∧ fl.isKey = f.marks.contains '*' ∧ fl.nullable = f.marks.contains '?' ∧
      fl.typeName = ['s', 't', 'r'] ∧ fl.array = false ∧ fl.name.text = f.name.toList ∧
      fl.value.text = [] :=
    LineKind.fieldLine?_declaration (isBlank_of_mem_replicate (n := 2)) f.isMark_of_mem_marks
      (by decide) hname
  obtain ⟨fl, hfield, hglobal, hkey, hnullable, htype, harray, hfname, hvalue⟩ := hdeclaration
  have hkind : LineKind.ofLine? l.text.toList = some (.field fl) := by
    rw [hl]
    exact LineKind.ofLine?_of_fieldLine? hfield
  have hdeclared : (t.builder table).fieldOf l fl = .ok f.field := by
    unfold Builder.fieldOf
    simp only [hvalue, List.isEmpty_nil, if_true, hfname, String.ofList_toList, hkey, hnullable,
      f.contains_marks.1, f.contains_marks.2, Builder.typeOf, htype, harray]
    rfl
  unfold Builder.feed
  simp only [hkind]
  show (if fl.isGlobal then _ else (t.builder table).field l fl) = _
  rw [hglobal, if_neg Bool.false_ne_true, Builder.field]
  show Except.map _ ((t.builder table).fieldOf l fl) = _
  rw [hdeclared]
  exact congrArg Except.ok (t.modifyTable_builder table (·.addField f.field))

theorem feedAll_fields {fields : List TextField} {table : Table} {lines more : List LogicalLine}
    (hnames : ∀ f ∈ fields, isIdentifier f.name.toList)
    (hlines : lines.map (fun l => l.text.toList) = fields.map TextField.line) :
    (t.builder table).feedAll (lines ++ more) =
      (t.builder (fields.foldl (fun table f => table.addField f.field) table)).feedAll more := by
  induction fields generalizing lines table with
  | nil =>
      rw [List.map_nil, List.map_eq_nil_iff] at hlines
      rw [hlines]
      rfl
  | cons f fields ih =>
      cases lines with
      | nil => cases hlines
      | cons l lines =>
          rw [List.map_cons, List.map_cons, List.cons.injEq] at hlines
          have hfeed : (t.builder table).feed l = .ok (t.builder (table.addField f.field)) :=
            feed_field (hnames f List.mem_cons_self) hlines.1
          rw [List.cons_append, Builder.feedAll, hfeed]
          exact ih (fun g hg => hnames g (List.mem_cons_of_mem _ hg)) hlines.2

/-- After the lines of its declaration the struct is open and declared. -/
theorem feedAll_lines {lines more : List LogicalLine}
    (hlines : lines.map (fun l => l.text.toList) = t.lines) :
    Builder.start.feedAll (lines ++ more) = (t.builder t.table).feedAll more := by
  cases lines with
  | nil => cases hlines
  | cons l lines =>
      rw [List.map_cons, TextStruct.lines, List.cons.injEq] at hlines
      rw [List.cons_append, Builder.feedAll, feed_header hlines.1]
      exact feedAll_fields t.isIdentifier_field hlines.2

/-- A document of the struct and one more line is what feeding that line gives. -/
theorem readDocument_of_line (t : TextStruct) (s : Sources) (dir : String) {line : List Char}
    (hline : CompleteLine line) :
    ∃ l : LogicalLine, l.text.toList = line ∧
      readDocument s (.text dir (textOf (t.lines ++ [line]))) = (t.builder t.table).feedAll [l] := by
  have hcomplete : ∀ l ∈ t.lines ++ [line], CompleteLine l := by
    intro l hl
    rcases List.mem_append.mp hl with hl | hl
    · exact t.completeLine_lines l hl
    · rw [List.mem_singleton.mp hl]
      exact hline
  obtain ⟨lines, hlines, hread⟩ := readDocument_of_complete s dir hcomplete
  obtain ⟨declaration, rest, rfl, hdeclaration, hrest⟩ := List.map_eq_append_iff.mp hlines
  obtain ⟨l, rfl, hl⟩ := List.map_eq_singleton_iff.mp hrest
  refine ⟨l, hl, ?_⟩
  rw [hread, Document.ofLines, feedAll_lines hdeclaration]

end TextStruct

end RowConfig
