import RowConfig.Proofs.Entries
import RowConfig.Proofs.TextStructs

/-!
# Rows of texts

The arguments of a row are read one by one, each for the field at its position or of its name. When
every field of the struct is given its string once, the row has collected exactly these strings
(`readRow_texts`), in the order of the arguments.
-/

namespace RowConfig

open Chars

variable {t : TextStruct} {values : String → String}

/-- A field with its string as a value. -/
def textEntry (values : String → String) (name : String) : String × Value :=
  (name, .text (.plain (values name)))

/-- The fields in the order in which the arguments name them. -/
def TextArguments.order (a : TextArguments t) : List String := t.names.take a.positional ++ a.labels

theorem TextArguments.perm_order (a : TextArguments t) : a.order.Perm t.names := by
  have h := a.perm.append_left (t.names.take a.positional)
  rwa [show (t.fields.map TextField.name).drop a.positional = t.names.drop a.positional from rfl,
    List.take_append_drop] at h

theorem TextArguments.nodup_order (a : TextArguments t) : a.order.Nodup :=
  a.perm_order.nodup_iff.mpr t.nodup

/-! ## Fields of the struct -/

theorem TextStruct.field_of_names {i : Nat} {name : String} (h : t.names[i]? = some name) :
    ∃ f : TextField, t.table.fields[i]? = some f.field ∧ f.name = name := by
  rw [TextStruct.names, List.getElem?_map, Option.map_eq_some_iff] at h
  obtain ⟨f, hf, hname⟩ := h
  refine ⟨f, ?_, hname⟩
  rw [t.fields_table, List.getElem?_map, hf]
  rfl

theorem TextStruct.isIdentifier_of_mem {name : String} (h : name ∈ t.names) :
    isIdentifier name.toList := by
  obtain ⟨f, hf, rfl⟩ := List.mem_map.mp h
  exact t.isIdentifier_field f hf

theorem TextStruct.field?_of_mem {name : String} (h : name ∈ t.names) :
    ∃ f : TextField, t.table.field? name = some f.field ∧ f.name = name := by
  obtain ⟨g, hg, hname⟩ := List.mem_map.mp h
  have hfound : ∃ f, t.table.field? name = some f := by
    apply Option.isSome_iff_exists.mp
    rw [Table.field?, List.find?_isSome, t.fields_table]
    exact ⟨g.field, List.mem_map_of_mem hg, beq_iff_eq.mpr hname⟩
  obtain ⟨f, hf⟩ := hfound
  have hmem := List.mem_of_find?_eq_some hf
  rw [t.fields_table] at hmem
  obtain ⟨f', -, rfl⟩ := List.mem_map.mp hmem
  have hpred : (f'.field.name == name) = true :=
    List.find?_some (p := fun g : Field => g.name == name) hf
  exact ⟨f', hf, beq_iff_eq.mp hpred⟩

/-! ## The texts of the arguments -/

namespace TextArguments

variable (a : TextArguments t)

theorem forall_mem_texts {P : List Char → Prop}
    (h : ∀ label s, IsLabel label → P (argumentText label s)) : ∀ x ∈ a.texts values, P x := by
  intro x hx
  rcases List.mem_append.mp hx with hx | hx
  · obtain ⟨name, -, rfl⟩ := List.mem_map.mp hx
    exact h none _ fun name h => by cases h
  · obtain ⟨name, hname, rfl⟩ := List.mem_map.mp hx
    apply h (some name) _ (isLabel_some _)
    exact TextStruct.isIdentifier_of_mem (a.perm_order.mem_iff.mp (List.mem_append_right _ hname))

theorem texts_ne_nil : a.texts values ≠ [] := by
  intro h
  obtain ⟨hfirst, hlabels⟩ := List.append_eq_nil_iff.mp h
  rw [List.map_eq_nil_iff] at hfirst hlabels
  have hnames : t.names = [] := by
    apply List.perm_nil.mp
    rw [← hfirst, ← List.append_nil (t.names.take a.positional), ← hlabels]
    exact a.perm_order.symm
  exact t.nonempty (List.map_eq_nil_iff.mp hnames)

theorem passes_texts : Passes (fun c => Scan.isPlain c ∧ c ≠ '#') (joined a.gap (a.texts values)) :=
  passes_joined a.texts_ne_nil (a.forall_mem_texts fun _ s h => passes_argumentText h s)

theorem not_mem_texts :
    '\n' ∉ joined a.gap (a.texts values) ∧ '\r' ∉ joined a.gap (a.texts values) :=
  not_mem_joined (a.forall_mem_texts fun _ s h => not_mem_argumentText h s)

theorem getLast?_texts : (joined a.gap (a.texts values)).getLast? = some '"' :=
  getLast?_joined a.texts_ne_nil (a.forall_mem_texts fun label s _ => getLast?_argumentText label s)

end TextArguments

/-- A literal reads as its string for a field of texts. -/
theorem readFor_quoted (r : Reader) (f : TextField) (s : String) :
    r.readFor (quoted s) f.field = .ok (.text (.plain s)) := by
  rw [Reader.readFor, show f.field.type = ⟨.str, false⟩ from rfl, read_quoted]
  rfl

/-! ## Reading a row -/

section ReadRow

variable {tables : Entries Table} {r : RowText} {count position : Nat} {named : Bool}
  {fields : Entries Value} {pieces more : List (Nat × List Char)}

theorem readRow_positional {ps rest : List String} (hnames : t.names.drop position = ps ++ rest)
    (hpieces : pieces.map (fun p => trim p.2) = ps.map fun name => quoted (values name))
    (hnodup : (Entries.names fields ++ ps).Nodup) :
    readRow tables t.table r count position false fields (pieces ++ more) =
      readRow tables t.table r count (position + ps.length) false
        (fields ++ ps.map (textEntry values)) more := by
  induction ps generalizing position fields pieces with
  | nil =>
      rw [List.map_nil, List.map_eq_nil_iff] at hpieces
      rw [hpieces, List.map_nil, List.append_nil]
      rfl
  | cons p ps ih =>
      cases pieces with
      | nil => cases hpieces
      | cons piece pieces =>
          obtain ⟨offset, piece⟩ := piece
          rw [List.map_cons, List.map_cons, List.cons.injEq] at hpieces
          obtain ⟨hpiece, hpieces⟩ := hpieces
          -- the argument is for the field at its position
          have hget : t.names[position]? = some p := by
            have h := congrArg (·[0]?) hnames
            simpa using h
          obtain ⟨f, hf, hname⟩ := TextStruct.field_of_names hget
          obtain ⟨hnew, hnodup'⟩ := Entries.nodup_names_snoc (v := .text (.plain (values p))) hnodup
          have hnames' : t.names.drop (position + 1) = ps ++ rest := by
            rw [← List.drop_drop, hnames]
            rfl
          have hassign : assignArgument t.table count position (offset + byteSize (indent piece))
              false (quoted (values p)) =
              .ok ⟨f.field, quoted (values p), offset + byteSize (indent piece), false⟩ := by
            unfold assignArgument
            simp only [splitNamed?_quoted, Bool.false_eq_true, if_false, hf]
          have hempty : (quoted (values p)).isEmpty = false := rfl
          rw [List.cons_append, readRow]
          simp only [hpiece, hempty, hassign, readFor_quoted, Bool.false_eq_true, if_false]
          rw [show f.field.name = p from hname, Entries.insert_of_not_mem hnew]
          rw [ih hnames' hpieces hnodup', List.length_cons, List.map_cons, List.append_assoc,
            Nat.add_assoc, Nat.add_comm 1]
          rfl

theorem readRow_named {ls : List String} (hmem : ∀ name ∈ ls, name ∈ t.names)
    (hpieces : pieces.map (fun p => trim p.2) =
      ls.map fun name => argumentText (some name) (values name))
    (hnodup : (Entries.names fields ++ ls).Nodup) :
    readRow tables t.table r count position named fields pieces =
      .ok (fields ++ ls.map (textEntry values)) := by
  induction ls generalizing position named fields pieces with
  | nil =>
      rw [List.map_nil, List.map_eq_nil_iff] at hpieces
      rw [hpieces, List.map_nil, List.append_nil]
      rfl
  | cons l ls ih =>
      cases pieces with
      | nil => cases hpieces
      | cons piece pieces =>
          obtain ⟨offset, piece⟩ := piece
          rw [List.map_cons, List.map_cons, List.cons.injEq] at hpieces
          obtain ⟨hpiece, hpieces⟩ := hpieces
          -- the argument is for the field that it names
          have hl := hmem l List.mem_cons_self
          obtain ⟨f, hf, hname⟩ := TextStruct.field?_of_mem hl
          obtain ⟨hnew, hnodup'⟩ := Entries.nodup_names_snoc (v := .text (.plain (values l))) hnodup
          have hid : isIdentifier l.toList := TextStruct.isIdentifier_of_mem hl
          have htoken : trim (' ' :: quoted (values l)) = quoted (values l) :=
            (solid_quoted (values l)).trim_cons
          have hempty : (argumentText (some l) (values l)).isEmpty = false :=
            (solid_argumentText (isLabel_some hid) (values l)).isEmpty_eq
          rw [readRow]
          simp only [hpiece, hempty, assignArgument, splitNamed?_named hid, String.ofList_toList, hf,
            htoken, readFor_quoted, Bool.false_eq_true, if_false]
          rw [show f.field.name = l from hname, Entries.insert_of_not_mem hnew]
          rw [ih (fun m hm => hmem m (List.mem_cons_of_mem _ hm)) hpieces hnodup', List.map_cons,
            List.append_assoc]
          rfl

/-- A row that gives every field its string reads as these strings. -/
theorem readRow_texts (a : TextArguments t)
    (hpieces : pieces.map (fun p => trim p.2) = a.texts values) :
    readRow tables t.table r count 0 false [] pieces = .ok (a.order.map (textEntry values)) := by
  -- the pieces fall into those by position and those with labels
  obtain ⟨first, second, rfl, hfirst, hsecond⟩ := List.map_eq_append_iff.mp hpieces
  have hnodup : (t.names.take a.positional ++ a.labels).Nodup := a.nodup_order
  have hnames : t.names.drop 0 = t.names.take a.positional ++ t.names.drop a.positional :=
    (List.take_append_drop a.positional t.names).symm
  have hlabels : ∀ name ∈ a.labels, name ∈ t.names := fun name hname =>
    a.perm_order.mem_iff.mp (List.mem_append_right _ hname)
  have hnone : (Entries.names ([] : Entries Value) ++ t.names.take a.positional).Nodup :=
    (List.nodup_append.mp hnodup).1
  have hdone : (Entries.names ([] ++ (t.names.take a.positional).map (textEntry values)) ++
      a.labels).Nodup := by
    rw [List.nil_append, Entries.names, List.map_map]
    show (List.map id _ ++ a.labels).Nodup
    rw [List.map_id]
    exact hnodup
  rw [readRow_positional hnames hfirst hnone,
    readRow_named hlabels hsecond hdone, List.nil_append, TextArguments.order, List.map_append]

end ReadRow

end RowConfig
