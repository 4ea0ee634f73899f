import RowConfig.Proofs.Declarations

/-!
# Marks and keys

Fields stand in the order of their first declaration, the mark of a field is that of its last one,
and the key is the field that was marked last of all (`Table.MarkedBy`). Each change keeps this, so
it is so in every document. Marking a second field, or declaring the key again without its mark,
changes the mark or the key and not the other; whether the two agree depends on all declarations
(`Table.MarkedBy.keyAgrees_iff`).
-/

namespace RowConfig

namespace Table

variable {declared : List (String × Bool)} {t u : Table} {name : String}

/-- The last declaration of a field. -/
def lastOf? (declared : List (String × Bool)) (name : String) : Option (String × Bool) :=
  (declared.filter (·.1 == name)).getLast?

/-- The field that the last of all marks is for. -/
def lastMarked? (declared : List (String × Bool)) : Option String :=
  (declared.filter Prod.snd).getLast?.map Prod.fst

/-- The fields, their marks and the key are those that declarations leave. -/
structure MarkedBy (declared : List (String × Bool)) (t : Table) : Prop where
  /-- Fields stand in the order of their first declaration. -/
  names : t.fieldNames = (declared.map Prod.fst).eraseDups
  /-- A field is marked as its last declaration marks it. -/
  marks : ∀ name, (t.field? name).map Field.mark = lastOf? declared name
  /-- The key is the field that was marked last of all. -/
  key : t.key = lastMarked? declared

/-- The fields that are marked are those whose name is the key. -/
def KeyAgrees (t : Table) : Prop := ∀ f ∈ t.fields, f.isKey ↔ t.key = some f.name

/-! ## Changes -/

theorem lastOf?_snoc (declared : List (String × Bool)) (m : String × Bool) (name : String) :
    lastOf? (declared ++ [m]) name = if m.1 = name then some m else lastOf? declared name := by
  unfold lastOf?
  rw [List.filter_append]
  by_cases heq : m.1 = name <;> simp [heq]

theorem lastMarked?_snoc (declared : List (String × Bool)) (m : String × Bool) :
    lastMarked? (declared ++ [m]) = if m.2 then some m.1 else lastMarked? declared := by
  unfold lastMarked?
  rw [List.filter_append]
  by_cases hmark : m.2 <;> simp [hmark]

theorem markedBy_empty (name : String) : (empty name).MarkedBy [] where
  names := rfl
  marks _ := rfl
  key := rfl

namespace MarkedBy

theorem addField (h : t.MarkedBy declared) (f : Field) :
    (t.addField f).MarkedBy (declared ++ [f.mark]) where
  names := by
    show (placeField f t.fields).map Field.name = _
    have hnames : t.fields.map Field.name = (declared.map Prod.fst).eraseDups := h.names
    rw [map_name_placeField, hnames, List.map_append, List.map_singleton, eraseDups_snoc]
    rfl
  marks name := by
    show ((placeField f t.fields).find? (·.name == name)).map Field.mark = _
    rw [find?_placeField, lastOf?_snoc, ← h.marks name]
    show _ = if f.name = name then _ else _
    split <;> rfl
  key := by
    show (if f.isKey then some f.name else t.key) = _
    rw [lastMarked?_snoc, h.key]
    rfl

/-- A change of a field that keeps its name and its mark declares nothing. -/
theorem changeField (h : t.MarkedBy declared) (name : String) {change : Field → Field}
    (hchange : ∀ f, (change f).mark = f.mark) :
    ((t.changeField name change).toOption.getD t).MarkedBy declared := by
  have hname : ∀ f, (change f).name = f.name := fun f => congrArg Prod.fst (hchange f)
  unfold Table.changeField
  split
  · exact h
  · next f hf =>
    constructor
    case names =>
      show (changeFirst name change t.fields).map Field.name = _
      rw [map_name_changeFirst name hname]
      exact h.names
    case marks =>
      intro other
      have hfound : f.name = name := by simpa using List.find?_some hf
      show ((changeFirst name change t.fields).find? (·.name == other)).map Field.mark = _
      rw [changeFirst_eq_placeField hname hf, find?_placeField, hname, hfound, ← h.marks other]
      split
      · next heq =>
        subst heq
        rw [hf, Option.map_some, Option.map_some, hchange]
      · rfl
    case key => exact h.key

/-- A change leaves the fields, marks and key that it declares, and those that were there. -/
theorem apply (h : t.MarkedBy declared) (c : Change) :
    (t.apply c).MarkedBy (declared ++ c.declared?.toList) := by
  have hnil : declared ++ [] = declared := List.append_nil declared
  cases c with
  | addField f => exact h.addField f
  | setDefault name default => exact hnil.symm ▸ h.changeField name fun f => rfl
  | setChoices name choices => exact hnil.symm ▸ h.changeField name fun f => rfl
  | addRow row => exact hnil.symm ▸ ⟨h.names, h.marks, h.key⟩
  | buildIndex => exact hnil.symm ▸ ⟨h.names, h.marks, h.key⟩

theorem applyAll (h : t.MarkedBy declared) (changes : List Change) :
    (t.applyAll changes).MarkedBy (declared ++ changes.filterMap Change.declared?) := by
  induction changes generalizing t declared with
  | nil => exact (List.append_nil declared).symm ▸ h
  | cons c changes ih =>
      have hall := ih (h.apply c)
      rw [List.append_assoc] at hall
      rw [List.filterMap_cons]
      cases hc : c.declared? with
      | none =>
          rw [hc] at hall
          exact hall
      | some m =>
          rw [hc] at hall
          exact hall

/-! ## Agreement -/

theorem nodup_fieldNames (h : t.MarkedBy declared) : t.fieldNames.Nodup :=
  h.names ▸ nodup_eraseDups _

theorem lastOf?_of_mem (h : t.MarkedBy declared) {f : Field} (hf : f ∈ t.fields) :
    lastOf? declared f.name = some f.mark := by
  rw [← h.marks f.name, field?, find?_of_nodup h.nodup_fieldNames hf, Option.map_some]

theorem mem_of_lastMarked? (hname : lastMarked? declared = some name) : (name, true) ∈ declared := by
  obtain ⟨⟨name, mark⟩, hlast, rfl⟩ := Option.map_eq_some_iff.mp hname
  obtain ⟨hin, hmark⟩ := List.mem_filter.mp (List.mem_of_getLast? hlast)
  have hmark : mark = true := hmark
  rwa [hmark] at hin

/-- The key is one of the fields. -/
theorem mem_fieldNames_of_key (h : t.MarkedBy declared) (hkey : t.key = some name) :
    name ∈ t.fieldNames := by
  rw [h.names, List.mem_eraseDups]
  rw [h.key] at hkey
  exact List.mem_map_of_mem (mem_of_lastMarked? hkey)

/-- There is no key as long as no declaration marks a field. -/
theorem key_eq_none_iff (h : t.MarkedBy declared) :
    t.key = none ↔ ∀ m ∈ declared, m.2 = false := by
  rw [h.key, lastMarked?, Option.map_eq_none_iff, List.getLast?_eq_none_iff, List.filter_eq_nil_iff]
  simp only [Bool.not_eq_true]

/-- Marks and key agree exactly if each field is marked by its last declaration just when no other
field was marked after it was. -/
theorem keyAgrees_iff (h : t.MarkedBy declared) : t.KeyAgrees ↔
    ∀ name, lastOf? declared name = some (name, true) ↔ lastMarked? declared = some name := by
  constructor
  · intro hagrees name
    rw [← h.key]
    constructor
    · intro hlast
      rw [← h.marks name] at hlast
      obtain ⟨f, hf, hmark⟩ := Option.map_eq_some_iff.mp hlast
      obtain ⟨rfl, hkey⟩ := Prod.mk.inj hmark
      exact (hagrees f (List.mem_of_find?_eq_some hf)).mp hkey
    · intro hkey
      obtain ⟨f, hf, rfl⟩ := List.mem_map.mp (h.mem_fieldNames_of_key hkey)
      rw [h.lastOf?_of_mem hf, Field.mark, (hagrees f hf).mpr hkey]
  · intro hall f hf
    rw [h.key, ← hall f.name, h.lastOf?_of_mem hf, Field.mark]
    simp

/-- They agree where no field is declared twice and at most one is marked. -/
theorem keyAgrees_of_nodup (h : t.MarkedBy declared) (hnames : (declared.map Prod.fst).Nodup)
    (hmarks : (declared.filter Prod.snd).length ≤ 1) : t.KeyAgrees := by
  intro f hf
  have hlast : lastOf? declared f.name = some f.mark := h.lastOf?_of_mem hf
  have hdeclared : f.mark ∈ declared := (List.mem_filter.mp (List.mem_of_getLast? hlast)).1
  rw [h.key]
  constructor
  · intro hkey
    have hin : f.mark ∈ declared.filter Prod.snd := List.mem_filter.mpr ⟨hdeclared, hkey⟩
    -- this is the only declaration that marks a field
    obtain ⟨m, hm⟩ := List.length_eq_one_iff.mp
      (Nat.le_antisymm hmarks (List.length_pos_of_mem hin))
    rw [hm, List.mem_singleton] at hin
    rw [lastMarked?, hm, ← hin]
    rfl
  · intro hkey
    have hmarked : (f.name, true) ∈ declared := mem_of_lastMarked? hkey
    exact (congrArg Prod.snd (List.inj_on_of_nodup_map hnames hmarked hdeclared rfl)).symm

end MarkedBy

namespace KeyAgrees

/-- Where marks and key agree, at most one field is marked. -/
theorem length_filter_le (h : t.KeyAgrees) (hnames : t.fieldNames.Nodup) :
    (t.fields.filter Field.isKey).length ≤ 1 := by
  have hnodup : ((t.fields.filter Field.isKey).map Field.name).Nodup :=
    hnames.sublist (List.filter_sublist.map Field.name)
  cases hkey : t.key with
  | none =>
      have hnil : t.fields.filter Field.isKey = [] := by
        rw [List.filter_eq_nil_iff]
        intro f hf hmark
        rw [(h f hf).mp hmark] at hkey
        cases hkey
      rw [hnil]
      exact Nat.zero_le 1
  | some key =>
      have hall : ∀ name ∈ (t.fields.filter Field.isKey).map Field.name, name = key := by
        intro name hname
        obtain ⟨f, hf, rfl⟩ := List.mem_map.mp hname
        obtain ⟨hf, hmark⟩ := List.mem_filter.mp hf
        have hname := (h f hf).mp hmark
        rw [hkey] at hname
        exact (Option.some.inj hname).symm
      rw [List.eq_replicate_of_mem hall, List.nodup_replicate, List.length_map] at hnodup
      exact hnodup

/-- Where they agree, there is no key exactly if no field is marked. -/
theorem key_eq_none_iff (h : t.KeyAgrees) (hkey : ∀ key, t.key = some key → key ∈ t.fieldNames) :
    t.key = none ↔ ∀ f ∈ t.fields, f.isKey = false := by
  constructor
  · intro hnone f hf
    rw [Bool.eq_false_iff]
    intro hmark
    rw [(h f hf).mp hmark] at hnone
    cases hnone
  · intro hall
    rw [Option.eq_none_iff_forall_ne_some]
    intro key hsome
    obtain ⟨f, hf, rfl⟩ := List.mem_map.mp (hkey key hsome)
    have hmark := (h f hf).mpr hsome
    rw [hall f hf] at hmark
    cases hmark

end KeyAgrees

end Table

/-! ## Structs -/

theorem Document.ChangesTo.markedBy {d : Document} {struct : String} {t : Table}
    {declared : List (String × Bool)} (h : Document.ChangesTo declared struct .empty d)
    (ht : d.table? struct = some t) : t.MarkedBy declared := by
  obtain ⟨changes, hchanges, rfl⟩ := h
  rw [Document.tableOf_of_table? ht] at hchanges
  rw [hchanges]
  exact (Table.markedBy_empty struct).applyAll changes

namespace Table

variable {declared : List (String × Bool)} {t : Table}

/-- The struct is made of a new one by changes, or by the lines of a document, with these
declarations. -/
inductive ArisesFrom : List (String × Bool) → Table → Prop where
  | changes (name : String) (changes : List Change) :
      ArisesFrom (changes.filterMap Change.declared?) ((empty name).applyAll changes)
  | lines {lines : List LogicalLine} {d : Document} {struct : String} {t : Table} :
      Document.ofLines lines = .ok d → d.table? struct = some t →
      ArisesFrom (declarations lines struct) t

theorem ArisesFrom.markedBy (h : t.ArisesFrom declared) : t.MarkedBy declared := by
  cases h with
  | changes name changes => exact (markedBy_empty name).applyAll changes
  | lines hlines ht => exact (Document.changesTo_of_ofLines hlines _).markedBy ht

/-- Fields stand in the order of their first declaration, a field is marked as its last declaration
marks it, and the key is the field that was marked last of all. The key is one of the fields, and
there is none as long as no declaration marks a field. The fields that are marked are those whose
name is the key exactly if each field is marked by its last declaration just when no other field was
marked later; they are where no field is declared twice and at most one is marked. Then at most one
field is marked, and there is no key exactly if none is. -/
theorem markedBy_exact (h : t.ArisesFrom declared) :
    t.MarkedBy declared ∧ (∀ key, t.key = some key → key ∈ t.fieldNames) ∧
      (t.key = none ↔ ∀ m ∈ declared, m.2 = false) ∧
      (t.KeyAgrees ↔ ∀ name,
        lastOf? declared name = some (name, true) ↔ lastMarked? declared = some name) ∧
      ((declared.map Prod.fst).Nodup → (declared.filter Prod.snd).length ≤ 1 → t.KeyAgrees) ∧
      (t.KeyAgrees → (t.fields.filter Field.isKey).length ≤ 1 ∧
        (t.key = none ↔ ∀ f ∈ t.fields, f.isKey = false)) := by
  have hmarked := h.markedBy
  refine ⟨hmarked, fun key => hmarked.mem_fieldNames_of_key, hmarked.key_eq_none_iff,
    hmarked.keyAgrees_iff, hmarked.keyAgrees_of_nodup, ?_⟩
  intro hagrees
  exact ⟨hagrees.length_filter_le hmarked.nodup_fieldNames,
    hagrees.key_eq_none_iff fun key => hmarked.mem_fieldNames_of_key⟩

/-- The key is declared again without its mark. -/
def unmarkedLines : List LogicalLine :=
  ["Port:", "  *str id:", "  int number:", "  str id: a"].zipIdx.map
    fun (text, i) => ⟨text, ⟨text, none, i + 1⟩⟩

/-- The struct of `unmarkedLines`. -/
def unmarkedTable : Table :=
  ⟨"Port", [{ Field.ofType "id" ⟨.str, false⟩ with default := some (.text (.plain "a")) },
    .ofType "number" ⟨.int, false⟩], some "id", [], []⟩

theorem markedBy_exact_unmarked :
    Document.ofLines unmarkedLines = .ok ⟨[], [("Port", unmarkedTable)]⟩ ∧
      declarations unmarkedLines "Port" = [("id", true), ("number", false), ("id", false)] ∧
      unmarkedTable.MarkedBy [("id", true), ("number", false), ("id", false)] ∧
      ¬ unmarkedTable.KeyAgrees := by
  have hlines : Document.ofLines unmarkedLines = .ok ⟨[], [("Port", unmarkedTable)]⟩ := by
    decide +kernel
  have hdeclared : declarations unmarkedLines "Port" =
      [("id", true), ("number", false), ("id", false)] := by decide +kernel
  have harises : unmarkedTable.ArisesFrom (declarations unmarkedLines "Port") := .lines hlines rfl
  rw [hdeclared] at harises
  obtain ⟨hmarked, -, -, hagrees, -⟩ := markedBy_exact harises
  refine ⟨hlines, hdeclared, hmarked, ?_⟩
  rw [hagrees]
  intro hall
  exact absurd ((hall "id").mpr rfl) (by decide)

/-- Two fields that are marked. -/
def twiceMarkedText : String := "Host:\n  *str name:\n  *str serial:\n"

/-- The struct of `twiceMarkedText`. -/
def twiceMarkedTable : Table :=
  ⟨"Host", [{ Field.ofType "name" ⟨.str, false⟩ with isKey := true },
    { Field.ofType "serial" ⟨.str, false⟩ with isKey := true }], some "serial", [], []⟩

/-- The first field keeps its mark when the second becomes the key. -/
theorem not_keyAgrees_twiceMarked :
    readDocument .empty (.text "/" twiceMarkedText) = .ok ⟨[], [("Host", twiceMarkedTable)]⟩ ∧
      (twiceMarkedTable.fields.filter Field.isKey).length = 2 ∧ ¬ twiceMarkedTable.KeyAgrees := by
  refine ⟨by decide +kernel, rfl, ?_⟩
  intro hagrees
  have hkey := (hagrees _ List.mem_cons_self).mp rfl
  exact absurd hkey (by decide)

end Table

end RowConfig
