import RowConfig.Proofs.Binding
import RowConfig.Proofs.Positions
import RowConfig.Proofs.TextRows

/-!
# Calls with literals

The arguments of an inline call are kept as texts under their own names, or under names made from
their positions, until the call is bound. Where each of these names leads back to the field that the
argument was written for, binding gives every field its string (`typeArguments_texts`).
-/

namespace RowConfig

open Chars Number

variable {t : TextStruct} {values : String → String}

/-! ## Collecting the arguments -/

/-- The names under which the arguments of a call are kept, each with the field that the argument is
written for. -/
def TextArguments.stored (a : TextArguments t) : List (String × String) :=
  (t.names.take a.positional).zipIdx.map (fun p => ("_arg" ++ toString p.2, p.1)) ++
    a.labels.map fun label => (label, label)

/-- An argument as it is kept. -/
def keptEntry (values : String → String) (p : String × String) : String × Value :=
  (p.1, .text (.plain (String.ofList (quoted (values p.2)))))

section Collecting

variable {struct : String} {position : Nat} {fields : Entries Value} {named : Bool}
  {spans more : List Span}

theorem collectArguments_positional {ps : List String}
    (hspans : spans.map (fun s => trim s.text) = ps.map fun name => quoted (values name)) :
    Reader.collectArguments struct position fields false (spans ++ more) =
      Reader.collectArguments struct (position + ps.length)
        (((ps.zipIdx position).map fun p => keptEntry values ("_arg" ++ toString p.2, p.1)).foldl
          (fun es (name, v) => Entries.insert name v es) fields) false more := by
  induction ps generalizing position fields spans with
  | nil =>
      rw [List.map_nil, List.map_eq_nil_iff] at hspans
      rw [hspans]
      rfl
  | cons p ps ih =>
      cases spans with
      | nil => cases hspans
      | cons s spans =>
          rw [List.map_cons, List.map_cons, List.cons.injEq] at hspans
          obtain ⟨hs, hspans⟩ := hspans
          have htext : s.trimmed.text = quoted (values p) := hs
          have hempty : (quoted (values p)).isEmpty = false := rfl
          rw [List.cons_append, Reader.collectArguments]
          simp only [htext, hempty, Reader.addArgument, splitNamed?_quoted, Bool.false_eq_true,
            if_false]
          rw [ih hspans, List.length_cons, Nat.add_assoc, Nat.add_comm 1]
          rfl

theorem collectArguments_named {ls : List String} (hnames : ∀ l ∈ ls, isIdentifier l.toList)
    (hspans : spans.map (fun s => trim s.text) =
      ls.map fun l => argumentText (some l) (values l)) :
    Reader.collectArguments struct position fields named spans =
      .ok ((ls.map fun l => keptEntry values (l, l)).foldl
        (fun es (name, v) => Entries.insert name v es) fields) := by
  induction ls generalizing position fields named spans with
  | nil =>
      rw [List.map_nil, List.map_eq_nil_iff] at hspans
      rw [hspans]
      rfl
  | cons l ls ih =>
      cases spans with
      | nil => cases hspans
      | cons s spans =>
          rw [List.map_cons, List.map_cons, List.cons.injEq] at hspans
          obtain ⟨hs, hspans⟩ := hspans
          have hl := hnames l List.mem_cons_self
          have htext : s.trimmed.text = argumentText (some l) (values l) := hs
          have hempty : (argumentText (some l) (values l)).isEmpty = false :=
            (solid_argumentText (isLabel_some hl) (values l)).isEmpty_eq
          have htoken : trim (' ' :: quoted (values l)) = quoted (values l) :=
            (solid_quoted (values l)).trim_cons
          rw [Reader.collectArguments]
          simp only [htext, hempty, Reader.addArgument, splitNamed?_named hl, htoken,
            String.ofList_toList, Bool.false_eq_true, if_false]
          rw [ih (fun m hm => hnames m (List.mem_cons_of_mem _ hm)) hspans]
          rfl

theorem collectArguments_texts (a : TextArguments t)
    (hspans : spans.map (fun s => trim s.text) = a.texts values) :
    Reader.collectArguments struct 0 [] false spans =
      .ok (Entries.ofList (a.stored.map (keptEntry values))) := by
  obtain ⟨first, second, rfl, hfirst, hsecond⟩ := List.map_eq_append_iff.mp hspans
  have hlabels : ∀ l ∈ a.labels, isIdentifier l.toList := fun l hl =>
    TextStruct.isIdentifier_of_mem (a.perm_order.mem_iff.mp (List.mem_append_right _ hl))
  rw [collectArguments_positional hfirst, collectArguments_named hlabels hsecond, Entries.ofList,
    TextArguments.stored, List.map_append, List.foldl_append, List.map_map, List.map_map]
  rfl

end Collecting

/-! ## Typing them -/

section Typing

variable {r : Reader} {count : Nat} {typed : Entries Value}

/-- Where every name leads to the field that the argument is for, every field gets its string. -/
theorem typeArguments_texts {pairs : List (String × String)}
    (hfield : ∀ p ∈ pairs, ∃ f : TextField,
      Binding.fieldFor t.table count p.1 = .ok f.field ∧ f.name = p.2)
    (hnodup : (Entries.names typed ++ pairs.map Prod.snd).Nodup) :
    Binding.typeArguments r t.table count typed (pairs.map (keptEntry values)) =
      .ok (typed ++ pairs.map fun p => textEntry values p.2) := by
  induction pairs generalizing typed with
  | nil => exact congrArg Except.ok (List.append_nil typed).symm
  | cons p pairs ih =>
      obtain ⟨f, hf, hname⟩ := hfield p List.mem_cons_self
      obtain ⟨hnew, hnodup'⟩ := Entries.nodup_names_snoc (v := .text (.plain (values p.2))) hnodup
      have htoken : (keptEntry values p).2.render.toList = quoted (values p.2) :=
        String.toList_ofList
      rw [List.map_cons, Binding.typeArguments]
      simp only [show (keptEntry values p).1 = p.1 from rfl, hf, htoken, readFor_quoted]
      rw [show f.field.name = p.2 from hname, Entries.insert_of_not_mem hnew]
      rw [ih (fun q hq => hfield q (List.mem_cons_of_mem _ hq)) hnodup', List.map_cons,
        List.append_assoc]
      rfl

/-- Whatever the arguments are, the values that they are typed to are plain texts. -/
theorem plain_of_typeCall {pairs : List (String × String)} {arguments : Entries Value}
    (harguments : ∀ e ∈ arguments, e ∈ pairs.map (keptEntry values))
    (h : Binding.typeCall r t.table arguments = .ok typed) :
    ∀ e ∈ typed, ∃ p ∈ pairs, ∃ field count, Binding.fieldFor t.table count p.1 = .ok field ∧
      field.name = e.1 ∧ e.2 = .text (.plain (values p.2)) := by
  intro e he
  obtain ⟨argument, hin, field, count, hfor, hname, hread⟩ := Binding.origin_of_typeCall h e he
  obtain ⟨p, hp, rfl⟩ := List.mem_map.mp (harguments argument hin)
  have hfield : field ∈ t.fields.map TextField.field := by
    rw [← t.fields_table]
    exact Binding.mem_fields_of_fieldFor hfor
  obtain ⟨f, -, rfl⟩ := List.mem_map.mp hfield
  have htoken : (keptEntry values p).2.render.toList = quoted (values p.2) :=
    String.toList_ofList
  rw [htoken, readFor_quoted] at hread
  exact ⟨p, hp, f.field, count, hfor, hname, (Except.ok.inj hread).symm⟩

end Typing

/-! ## Names that lead to their fields -/

namespace TextArguments

variable (a : TextArguments t)

/-- Every name under which an argument is kept is that of the position of its field, or it is no
position's name but the field's own. -/
def Leads : Prop :=
  ∀ p ∈ a.stored,
    match Binding.position? p.1 with
    | some i => t.names[i]? = some p.2
    | none => p.1 = p.2

/-- Every name leads to the field of its argument, and the positions among the names can be
counted. -/
structure Aligned : Prop where
  leads : a.Leads
  counted : ¬ Binding.NamesLast (a.stored.map Prod.fst)

theorem map_snd_stored : a.stored.map Prod.snd = a.order := by
  have hpositional : ((t.names.take a.positional).zipIdx.map fun p =>
      ("_arg" ++ toString p.2, p.1)).map Prod.snd = t.names.take a.positional := by
    rw [List.map_map]
    exact List.zipIdx_map_fst 0 _
  rw [stored, List.map_append, hpositional, List.map_map, order]
  exact congrArg _ (List.map_id _)

theorem nodup_map_snd_stored : (a.stored.map Prod.snd).Nodup := by
  rw [map_snd_stored]
  exact a.nodup_order

variable {a} {p : String × String} {count : Nat}

theorem mem_names_of_mem_stored (h : p ∈ a.stored) : p.2 ∈ t.names := by
  apply a.perm_order.mem_iff.mp
  rw [← map_snd_stored]
  exact List.mem_map_of_mem h

/-- A name leads to a field by the position that it stands for, or else as it is. -/
theorem fieldFor_iff (hmem : p.2 ∈ t.names) :
    (∃ field, Binding.fieldFor t.table count p.1 = .ok field ∧ field.name = p.2) ↔
      match Binding.position? p.1 with
      | some i => t.names[i]? = some p.2
      | none => p.1 = p.2 := by
  unfold Binding.fieldFor
  cases hposition : Binding.position? p.1 with
  | some i =>
      dsimp only
      rw [← t.fieldNames_table, Table.fieldNames, List.getElem?_map, Option.map_eq_some_iff]
      constructor
      · rintro ⟨field, hfield, hname⟩
        split at hfield
        · next heq =>
          cases hfield
          exact ⟨_, heq, hname⟩
        · cases hfield
      · rintro ⟨field, hfield, hname⟩
        refine ⟨field, ?_, hname⟩
        simp only [hfield]
  | none =>
      dsimp only
      constructor
      · rintro ⟨field, hfield, hname⟩
        split at hfield
        · next heq =>
          cases hfield
          have hfound := List.find?_some (p := fun g : Field => g.name == p.1) heq
          rw [← hname, beq_iff_eq.mp hfound]
        · cases hfield
      · intro hname
        obtain ⟨f, hf, hfname⟩ := TextStruct.field?_of_mem hmem
        refine ⟨f.field, ?_, hfname⟩
        simp only [hname, hf]

/-- Each name under which an argument is kept leads to the field that the argument is for. -/
theorem Leads.fieldFor (h : a.Leads) (hp : p ∈ a.stored) :
    ∃ f : TextField, Binding.fieldFor t.table count p.1 = .ok f.field ∧ f.name = p.2 := by
  obtain ⟨field, hfor, hname⟩ := (fieldFor_iff (mem_names_of_mem_stored hp)).mpr (h p hp)
  have hfield : field ∈ t.fields.map TextField.field := by
    rw [← t.fields_table]
    exact Binding.mem_fields_of_fieldFor hfor
  obtain ⟨f, -, rfl⟩ := List.mem_map.mp hfield
  exact ⟨f, hfor, hname⟩

/-- No two arguments are kept under one name. -/
theorem Leads.nodup (h : a.Leads) : (a.stored.map Prod.fst).Nodup := by
  -- one name leads to one field, and no field is given twice
  have hfields := List.pairwise_map.mp a.nodup_map_snd_stored
  refine List.pairwise_map.mpr (hfields.imp_of_mem ?_)
  intro p q hp hq hne heq
  have hp := h p hp
  have hq := h q hq
  rw [heq] at hp
  cases hposition : Binding.position? q.1 with
  | some i =>
      rw [hposition] at hp hq
      exact hne (Option.some.inj (hp.symm.trans hq))
  | none =>
      rw [hposition] at hp hq
      exact hne (hp.symm.trans hq)

/-- Every position of a field can be counted, if the number of fields fits a word. -/
theorem Leads.counted (h : a.Leads) (hfields : t.fields.length < Binding.positionBound) :
    ¬ Binding.NamesLast (a.stored.map Prod.fst) := by
  rintro ⟨name, hname, hposition⟩
  obtain ⟨p, hp, rfl⟩ := List.mem_map.mp hname
  have hlead := h p hp
  rw [hposition] at hlead
  have hlt := (List.getElem?_eq_some_iff.mp hlead).1
  rw [TextStruct.names, List.length_map] at hlt
  omega

/-- Where positions fit a word, only labels can lead astray. -/
theorem aligned_iff (hfields : t.fields.length < Binding.positionBound) :
    a.Aligned ↔ ∀ label ∈ a.labels, ∀ i, Binding.position? label = some i →
      t.names[i]? = some label := by
  constructor
  · intro h label hlabel i hposition
    have hin : (label, label) ∈ a.stored :=
      List.mem_append_right _ (List.mem_map.mpr ⟨label, hlabel, rfl⟩)
    have hlead := h.leads (label, label) hin
    rw [show Binding.position? (label, label).1 = some i from hposition] at hlead
    exact hlead
  · intro h
    suffices hleads : a.Leads from ⟨hleads, hleads.counted hfields⟩
    intro p hp
    rcases List.mem_append.mp hp with hp | hp
    · obtain ⟨⟨name, i⟩, hin, rfl⟩ := List.mem_map.mp hp
      rw [List.mk_mem_zipIdx_iff_getElem?, List.getElem?_take] at hin
      split at hin
      · have hlt : i < t.names.length := (List.getElem?_eq_some_iff.mp hin).1
        rw [TextStruct.names, List.length_map] at hlt
        rw [position?_of_position (hlt.trans hfields)]
        exact hin
      · cases hin
    · obtain ⟨label, hlabel, rfl⟩ := List.mem_map.mp hp
      cases hposition : Binding.position? label with
      | some i => exact h label hlabel i hposition
      | none => rfl

end TextArguments

end RowConfig
