import RowConfig.Proofs.CallTexts
import RowConfig.Proofs.Equality
import RowConfig.Proofs.QuotedTexts

/-!
# Literals in calls

A global that is a call of a struct without primary key compiles to the instance that its arguments
give (`compile_callLine`). Every choice of strings comes out as it went in exactly when the names
under which the arguments are kept lead to their fields, and the positions among them can be counted
(`compile_callLine_iff`).
-/

namespace RowConfig

open Chars

variable {t : TextStruct} {values : String → String} {g : String}

/-- A call of the struct. -/
def callText (a : TextArguments t) (values : String → String) : List Char :=
  bracketed t.name.toList '(' ')' (joined a.gap (a.texts values))

/-- A global that is a call of the struct. -/
def callLine (a : TextArguments t) (g : String) (values : String → String) : List Char :=
  globalLine t.name.toList false g (callText a values)

/-- The arguments as they are kept until the call is bound. -/
def keptEntries (a : TextArguments t) (values : String → String) : Entries Value :=
  Entries.ofList (a.stored.map (keptEntry values))

/-! ## Reading the call -/

theorem completeLine_callLine (a : TextArguments t) (hg : isIdentifier g.toList) :
    CompleteLine (callLine a g values) :=
  completeLine_globalLine t.isIdentifier_name hg (isBare_of_isIdentifier t.isIdentifier_name)
    isPair_round ⟨by decide, by decide⟩ a.passes_texts a.not_mem_texts

theorem solid_callText (a : TextArguments t) : Solid (callText a values) :=
  solid_call t.isIdentifier_name

/-- A name that begins with a capital letter is that of a struct. -/
theorem ofName_name (t : TextStruct) : ScalarType.ofName t.name = .struct t.name := by
  have hupper := t.isUpper_name
  unfold ScalarType.ofName
  split
  case h_8 => rfl
  all_goals
    next heq =>
    rw [heq] at hupper
    exact absurd hupper (by decide)

/-- The call is read as an inline row of the texts of its arguments. -/
theorem read_callText (a : TextArguments t) (hkeyless : t.Keyless) (location : Location) :
    ∃ location', (Reader.mk [(t.name, t.table)] location).read (callText a values)
      ⟨.struct t.name, false⟩ = .ok (.instance ⟨t.name, keptEntries a values, some location'⟩) := by
  have hkey : t.table.key = none := TextStruct.key_table hkeyless
  have hbalanced : isBalanced (joined a.gap (a.texts values)) :=
    isBalanced_joined a.texts_ne_nil (a.forall_mem_texts fun _ s h => passes_argumentText h s)
  obtain ⟨place, hread⟩ := Reader.read_call (r := ⟨[(t.name, t.table)], location⟩)
    t.isIdentifier_name (if_pos rfl) hkey hbalanced
  refine ⟨place, hread.trans ?_⟩
  rw [collectArguments_texts a (map_trim_arguments a.texts_ne_nil _
    (a.forall_mem_texts fun _ s h => passes_argumentText h s)
    (a.forall_mem_texts fun _ s h => solid_argumentText h s))]
  rfl

/-- The document that a struct and a call of it declare. -/
theorem feedAll_callLine (a : TextArguments t) (hg : isIdentifier g.toList) (hkeyless : t.Keyless)
    {l : LogicalLine} (hl : l.text.toList = callLine a g values) :
    ∃ location, (t.builder t.table).feedAll [l] =
      .ok ⟨[(g, .instance ⟨t.name, keptEntries a values, some location⟩)], [(t.name, t.table)]⟩ := by
  have hhead : (callText a values).head? ≠ some '(' := head?_call t.isIdentifier_name
  obtain ⟨start, hfeed⟩ := Builder.feedAll_global (b := t.builder t.table) rfl t.isIdentifier_name hg
    (solid_callText a) hhead hl
  obtain ⟨location, hread⟩ := read_callText a hkeyless start
  refine ⟨location, ?_⟩
  rw [hfeed, String.ofList_toList, ofName_name]
  show Except.map _ (Reader.read ⟨[(t.name, t.table)], start⟩ _ _) = _
  rw [hread]
  rfl

/-! ## Binding the call -/

/-- What the arguments of the call are typed to. -/
def typedCall (a : TextArguments t) (values : String → String) (location : Location) :
    Except Fault (Entries Value) :=
  Binding.typeCall ⟨[(t.name, t.table)], location⟩ t.table (keptEntries a values)

/-- The instance that typed arguments make. -/
def boundCall (t : TextStruct) (typed : Entries Value) : Instance :=
  .ofFields t.name (Binding.arrange t.table.fields typed)

section Binding

variable {a : TextArguments t} {location : Location}

/-- Every typed argument is the string that was written for the field its name leads to. -/
theorem origin_of_typedCall {typed : Entries Value} (h : typedCall a values location = .ok typed) :
    ∀ e ∈ typed, ∃ p ∈ a.stored, ∃ field count,
      Binding.fieldFor t.table count p.1 = .ok field ∧ field.name = e.1 ∧
        e.2 = .text (.plain (values p.2)) := by
  intro e he
  exact plain_of_typeCall (fun e he => Entries.mem_of_mem_ofList he) h e he

theorem default_of_mem_fields {f : Field} (hf : f ∈ t.table.fields) : f.default = none := by
  rw [t.fields_table] at hf
  obtain ⟨field, -, rfl⟩ := List.mem_map.mp hf
  rfl

/-- No pass after binding changes the instance. -/
theorem settled_boundCall {typed : Entries Value} (h : typedCall a values location = .ok typed) :
    Entries.Settled (boundCall t typed).fields := by
  apply Binding.forall_mem_arrange
  · intro v hv
    obtain ⟨e, he, rfl⟩ := List.mem_map.mp hv
    obtain ⟨p, -, field, count, -, -, hplain⟩ := origin_of_typedCall h e he
    rw [hplain]
    exact Value.settled_plain _
  · intro f hf v hv
    rw [default_of_mem_fields hf] at hv
    cases hv
  · exact Value.settled_null

theorem bindInstance_call :
    bindInstance [(t.name, t.table)] ⟨t.name, keptEntries a values, some location⟩ =
      (typedCall a values location).map (boundCall t) := by
  have harranged : Binding.arrangeInstance [(t.name, t.table)]
      ⟨t.name, keptEntries a values, some location⟩ =
        (typedCall a values location).map (boundCall t) := by
    have htable : Entries.get? [(t.name, t.table)] t.name = some t.table := if_pos rfl
    unfold Binding.arrangeInstance
    simp only [htable]
    rfl
  cases htyped : typedCall a values location with
  | error e =>
      rw [htyped] at harranged
      rw [bindInstance, maxDepth, Binding.bindWithin, harranged]
      rfl
  | ok typed =>
      rw [htyped] at harranged
      exact (settled_boundCall htyped).bindInstance_eq harranged

theorem bind_call :
    (Document.mk [(g, .instance ⟨t.name, keptEntries a values, some location⟩)]
      [(t.name, t.table)]).bind =
      (typedCall a values location).map fun typed =>
        ⟨[(g, .instance (boundCall t typed))], [(t.name, t.table)]⟩ := by
  have hvalue : bindValue [(t.name, t.table)]
      (.instance ⟨t.name, keptEntries a values, some location⟩) =
        (typedCall a values location).map fun typed => .instance (boundCall t typed) := by
    show (bindInstance _ _).map Value.instance = _
    rw [bindInstance_call]
    cases typedCall a values location <;> rfl
  have hrows : (bindRows [(t.name, t.table)] t.table.rows).map
      (fun rows => { t.table with rows := rows }) = .ok t.table := by
    rw [t.rows_table]
    show Except.ok { t.table with rows := [] } = _
    rw [← t.rows_table]
  unfold Document.bind
  simp only [Entries.tryMapValues, hvalue, hrows]
  cases typedCall a values location <;> rfl

theorem resolve_call :
    (Document.mk [(g, .instance ⟨t.name, keptEntries a values, some location⟩)]
      [(t.name, t.table)]).resolve =
      (typedCall a values location).map fun typed =>
        ⟨[(g, .instance (boundCall t typed))], [(t.name, t.table.buildIndex)]⟩ := by
  cases htyped : typedCall a values location with
  | error e =>
      rw [Document.resolve, bind_call, htyped]
      rfl
  | ok typed =>
      refine Document.resolve_of_bind (bind_call.trans (congrArg _ htyped)) ?_
      constructor
      · intro v hv
        rw [List.mem_singleton.mp hv]
        exact (settled_boundCall htyped).inert t.name
      · intro entry hentry row hin
        rw [List.mem_singleton.mp hentry, t.rows_table] at hin
        cases hin

end Binding

/-- A call with literals compiles to what its arguments are typed to. -/
theorem compile_callLine (s : Sources) (dir : String) (a : TextArguments t)
    (values : String → String) (hg : isIdentifier g.toList) (hkeyless : t.Keyless) :
    ∃ location, compile s (.text dir (textOf (t.lines ++ [callLine a g values]))) =
      (typedCall a values location).map fun typed =>
        ⟨[(g, .instance (boundCall t typed))], [(t.name, t.table.buildIndex)]⟩ := by
  obtain ⟨l, hl, hread⟩ := t.readDocument_of_line s dir (completeLine_callLine a hg)
  obtain ⟨location, hfeed⟩ := feedAll_callLine a hg hkeyless hl
  refine ⟨location, ?_⟩
  rw [compile, hread, hfeed]
  exact resolve_call

/-! ## Which calls keep their strings -/

/-- Where every name leads to its field, no argument displaces another. -/
theorem keptEntries_of_leads {a : TextArguments t} (h : a.Leads) :
    keptEntries a values = a.stored.map (keptEntry values) := by
  apply Entries.ofList_of_nodup
  rw [Entries.names, List.map_map]
  exact h.nodup

theorem names_keptEntries {a : TextArguments t} (h : a.Leads) :
    Entries.names (keptEntries a values) = a.stored.map Prod.fst := by
  rw [keptEntries_of_leads h, Entries.names, List.map_map]
  rfl

/-- Where every name leads to its field, the arguments are typed to the strings of all fields. -/
theorem typedCall_of_aligned {a : TextArguments t} (h : a.Aligned) (location : Location) :
    typedCall a values location = .ok (a.order.map (textEntry values)) := by
  obtain ⟨count, hcount⟩ := Binding.exists_countPositions_iff.mpr h.counted
  have htyped : typedCall a values location =
      .ok ([] ++ a.stored.map fun p => textEntry values p.2) := by
    rw [typedCall, Binding.typeCall, names_keptEntries h.leads, hcount, keptEntries_of_leads h.leads]
    exact typeArguments_texts (fun p hp => h.leads.fieldFor hp) a.nodup_map_snd_stored
  rw [htyped, ← a.map_snd_stored, List.map_map]
  rfl

/-- Where a call keeps its strings, its arguments are typed, and arranging puts the strings into
their fields. -/
theorem exists_typedCall_of_compile {s : Sources} {dir : String} {a : TextArguments t}
    (hg : isIdentifier g.toList) (hkeyless : t.Keyless)
    (h : ∃ d, compile s (.text dir (textOf (t.lines ++ [callLine a g values]))) = .ok d ∧
      d.global? g = some (.instance (.ofFields t.name (t.entries values)))) :
    ∃ typed location, typedCall a values location = .ok typed ∧
      Binding.arrange t.table.fields typed = t.entries values := by
  obtain ⟨d, hd, hglobal⟩ := h
  obtain ⟨location, hcompile⟩ := compile_callLine s dir a values hg hkeyless
  rw [hcompile] at hd
  obtain ⟨typed, htyped, rfl⟩ := map_eq_ok_iff.mp hd
  refine ⟨typed, location, htyped, ?_⟩
  rw [Document.global?, Entries.get?, if_pos rfl] at hglobal
  injection hglobal with hglobal
  injection hglobal with hglobal
  exact congrArg Record.fields hglobal

/-- A call keeps every choice of strings exactly when its arguments are aligned. -/
theorem compile_callLine_iff (s : Sources) (dir : String) (a : TextArguments t)
    (hg : isIdentifier g.toList) (hkeyless : t.Keyless) :
    (∀ values, ∃ d, compile s (.text dir (textOf (t.lines ++ [callLine a g values]))) = .ok d ∧
      d.global? g = some (.instance (.ofFields t.name (t.entries values)))) ↔ a.Aligned := by
  constructor
  · intro h
    have hleads : a.Leads := by
      intro p hp
      -- a string that no other field has shows which argument came to the field
      let values : String → String := fun name => if name = p.2 then "x" else ""
      obtain ⟨typed, location, htyped, harrange⟩ := exists_typedCall_of_compile hg hkeyless (h values)
      have hmem : (p.2, Value.text (.plain "x")) ∈ Binding.arrange t.table.fields typed := by
        rw [harrange]
        refine List.mem_map.mpr ⟨p.2, TextArguments.mem_names_of_mem_stored hp, ?_⟩
        simp only [values, if_true]
      rcases Binding.mem_of_mem_arrange hmem with hmem | ⟨f, hf, -, hfilled⟩
      · obtain ⟨q, hq, field, count, hfor, hname, hplain⟩ := origin_of_typedCall htyped _ hmem
        have hfield : q.2 = p.2 := by
          by_contra hne
          simp [values, hne] at hplain
        have hpq : q = p := List.inj_on_of_nodup_map a.nodup_map_snd_stored hq hp hfield
        subst hpq
        exact (TextArguments.fieldFor_iff (TextArguments.mem_names_of_mem_stored hq)).mp
          ⟨field, hfor, hname⟩
      · -- no field has a default to fill it
        rw [default_of_mem_fields hf] at hfilled
        cases hfilled
    obtain ⟨typed, location, htyped, -⟩ := exists_typedCall_of_compile hg hkeyless (h id)
    obtain ⟨count, hcount, -⟩ := Binding.typeCall_eq_ok_iff.mp htyped
    rw [names_keptEntries hleads] at hcount
    exact ⟨hleads, Binding.exists_countPositions_iff.mp ⟨count, hcount⟩⟩
  · intro h values
    obtain ⟨location, hcompile⟩ := compile_callLine s dir a values hg hkeyless
    rw [typedCall_of_aligned h] at hcompile
    refine ⟨_, hcompile, ?_⟩
    rw [Document.global?, Entries.get?, if_pos rfl, boundCall, arrange_order]

/-- A call whose arguments name the two fields of its struct, each by the position of the other. -/
def crossedStruct : TextStruct where
  name := "P"
  fields := [⟨"_arg1", false, false⟩, ⟨"_arg0", false, false⟩]
  isIdentifier_name := by decide
  isUpper_name := by decide
  nonempty := List.cons_ne_nil _ _
  isIdentifier_field := by decide
  nodup := by decide

def crossedArguments : TextArguments crossedStruct := ⟨0, ["_arg1", "_arg0"], 1, .refl _⟩

def crossedValues (name : String) : String := if name = "_arg1" then "a" else "b"

/-- What the crossed call compiles to: each field has the string of the other. -/
def crossedDocument : Document :=
  ⟨[("g", .instance (.ofFields "P" [("_arg1", .text (.plain "b")), ("_arg0", .text (.plain "a"))]))],
    [("P", crossedStruct.table)]⟩

theorem compile_crossed :
    compile .empty (.text "/"
      (textOf (crossedStruct.lines ++ [callLine crossedArguments "g" crossedValues]))) =
      .ok crossedDocument := by
  decide +kernel

theorem callLine_crossed :
    ¬ ∃ d, compile .empty (.text "/"
        (textOf (crossedStruct.lines ++ [callLine crossedArguments "g" crossedValues]))) = .ok d ∧
      d.global? "g" = some (.instance (.ofFields "P"
        [("_arg1", .text (.plain "a")), ("_arg0", .text (.plain "b"))])) := by
  rintro ⟨d, hd, hglobal⟩
  rw [compile_crossed] at hd
  cases hd
  exact absurd hglobal (by decide +kernel)

/-! ## All positions -/

/-- Strings written as literals come out as they went in: as elements of an array, as arguments of a
row, and as arguments of a call, if no label of the call is the name of another position. -/
theorem compile_literals (s : Sources) (dir : String) :
    (∀ (g : String) (gap : Nat) (texts : List String), isIdentifier g.toList → texts ≠ [] →
      compile s (.text dir (textOf [arrayLine g gap texts])) =
        .ok ⟨[(g, .array (texts.map fun t => .text (.plain t)))], []⟩) ∧
    (∀ (t : TextStruct) (a : TextArguments t) (values : String → String),
      compile s (.text dir (textOf (t.lines ++ [rowLine a values]))) =
        .ok ⟨[], [(t.name, (t.table.addRow (.ofFields t.name (t.entries values))).buildIndex)]⟩) ∧
    ∀ (t : TextStruct) (a : TextArguments t) (g : String), isIdentifier g.toList → t.Keyless →
      ((∀ values, ∃ d,
        compile s (.text dir (textOf (t.lines ++ [callLine a g values]))) = .ok d ∧
          d.global? g = some (.instance (.ofFields t.name (t.entries values)))) ↔ a.Aligned) ∧
      (t.fields.length < Binding.positionBound →
        (a.Aligned ↔ ∀ label ∈ a.labels, ∀ i, Binding.position? label = some i →
          t.names[i]? = some label)) :=
  ⟨fun _ _ _ hg hne => compile_arrayLine s dir hg hne,
    fun _ a _ => compile_rowLine s dir a,
    fun _ a _ hg hkeyless =>
      ⟨compile_callLine_iff s dir a hg hkeyless, fun hfields => TextArguments.aligned_iff hfields⟩⟩

/-- A struct of two fields, the second of which is given by name. -/
def pairStruct : TextStruct where
  name := "P"
  fields := [⟨"x", false, false⟩, ⟨"y", false, false⟩]
  isIdentifier_name := by decide
  isUpper_name := by decide
  nonempty := List.cons_ne_nil _ _
  isIdentifier_field := by decide
  nodup := by decide

def pairArguments : TextArguments pairStruct := ⟨1, ["y"], 1, .refl _⟩

theorem compile_literals_pair :
    compile .empty (.text "/" (textOf [arrayLine "g" 1 ["a#", "\", \x7b"]])) =
        .ok ⟨[("g", .array [.text (.plain "a#"), .text (.plain "\", \x7b")])], []⟩ ∧
      ∀ values, ∃ d,
        compile .empty (.text "/"
          (textOf (pairStruct.lines ++ [callLine pairArguments "g" values]))) = .ok d ∧
          d.global? "g" = some (.instance (.ofFields "P" (pairStruct.entries values))) := by
  have hkeyless : pairStruct.Keyless := by
    intro f hf
    rcases List.mem_cons.mp hf with rfl | hf
    · rfl
    · rw [List.mem_singleton.mp hf]
  obtain ⟨harray, -, hcall⟩ := compile_literals .empty "/"
  obtain ⟨hexact, haligned⟩ := hcall pairStruct pairArguments "g" (by decide) hkeyless
  refine ⟨harray "g" 1 ["a#", "\", \x7b"] (by decide) (by decide), hexact.mpr ?_⟩
  refine (haligned (by decide)).mpr ?_
  intro label hlabel i hposition
  rw [List.mem_singleton.mp hlabel] at hposition
  cases hposition

end RowConfig
