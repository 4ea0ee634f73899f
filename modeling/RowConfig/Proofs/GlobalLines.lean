import RowConfig.Builder
import RowConfig.Proofs.LineShapes
import RowConfig.Proofs.Lines

/-!
# Lines of globals

A global whose value is a list or a call: a text in brackets, with a name before it or not. Its line
is complete (`completeLine_globalLine`), and feeding it reads the value and sets the global
(`Builder.feedAll_global`). A list is read element by element (`Reader.read_list`), and a
call of a struct without a key as an inline row of what it collects from the text in its brackets
(`Reader.read_call`).
-/

namespace RowConfig

open Chars

/-- A text in brackets behind a name, or behind nothing. -/
def bracketed (front : List Char) (opening closing : Char) (body : List Char) : List Char :=
  front ++ opening :: (body ++ [closing])

/-- The declaration of a global. -/
def globalLine (type : List Char) (array : Bool) (g : String) (value : List Char) : List Char :=
  LineKind.declaration [] type array g.toList (' ' :: value)

variable {type front body value : List Char} {array : Bool} {g : String} {opening closing : Char}

theorem head?_bracketed : (bracketed front opening closing body).head? =
    front.head?.or (some opening) := List.head?_append

theorem solid_bracketed (hfront : front.head?.all (!isBlank ·)) (hopening : isBlank opening = false)
    (hclosing : isBlank closing = false) : Solid (bracketed front opening closing body) := by
  constructor
  · cases front with
    | nil => exact ⟨opening, body ++ [closing], rfl, hopening⟩
    | cons c front =>
        exact ⟨c, front ++ opening :: (body ++ [closing]), rfl, (Bool.not_eq_true' _).mp hfront⟩
  · refine ⟨front ++ opening :: body, closing, ?_, hclosing⟩
    rw [bracketed, List.append_assoc, List.cons_append]

theorem completeLine_globalLine (htype : isIdentifier type) (hg : isIdentifier g.toList)
    (hfront : ∀ c ∈ front, isBare c) (hpair : IsPair opening closing)
    (hclosing : isBlank closing = false ∧ closing ≠ '\\')
    (hbody : Passes (fun c => Scan.isPlain c ∧ c ≠ '#') body)
    (hbreak : '\n' ∉ body ∧ '\r' ∉ body) :
    CompleteLine (globalLine type array g (bracketed front opening closing body)) := by
  -- the type with its mark, the name with the colon, and the value
  have htypeLevel : Level ([] ++ type) := Level.nil.append_bare (isBare_of_isIdentifier htype)
  have hmark : Level ([] ++ type ++ LineKind.arrayMark array) := by
    cases array with
    | false => exact htypeLevel.append_bare fun c hc => by cases hc
    | true =>
        exact htypeLevel.append_brackets isPair_square (passes_nil _)
          ⟨List.not_mem_nil, List.not_mem_nil⟩
  have hblank : isBare ' ' := by decide
  have hcolon : isBare ':' := by decide
  have hname : ∀ c ∈ ' ' :: (g.toList ++ ':' :: ' ' :: front), isBare c := by
    intro c hc
    rcases List.mem_cons.mp hc with rfl | hc
    · exact hblank
    rcases List.mem_append.mp hc with hc | hc
    · exact isBare_of_isIdentifier hg c hc
    rcases List.mem_cons.mp hc with rfl | hc
    · exact hcolon
    rcases List.mem_cons.mp hc with rfl | hc
    · exact hblank
    · exact hfront c hc
  have hlevel := (hmark.append_bare hname).append_brackets hpair hbody hbreak
  have hline : globalLine type array g (bracketed front opening closing body) =
      [] ++ type ++ LineKind.arrayMark array ++ ' ' :: (g.toList ++ ':' :: ' ' :: front) ++
        opening :: (body ++ [closing]) := by
    simp only [globalLine, bracketed, LineKind.declaration, List.append_assoc, List.cons_append,
      List.nil_append]
  rw [hline]
  refine hlevel.completeLine ⟨[] ++ type ++ LineKind.arrayMark array ++
    ' ' :: (g.toList ++ ':' :: ' ' :: front) ++ opening :: body, closing, ?_, hclosing⟩
  rw [List.append_assoc _ (opening :: body), List.cons_append]

/-- What stands before the value of a global that is no array is plain, and a quote may open behind
it. -/
theorem exists_before_value (htype : isIdentifier type) (hg : isIdentifier g.toList) :
    ∃ front : List Char, (∀ value, globalLine type false g value = front ++ value) ∧
      (∀ c ∈ front, isBare c) ∧ Scan.mayOpenAfter front.getLast? := by
  refine ⟨type ++ ' ' :: (g.toList ++ [':']) ++ [' '], fun value => ?_, ?_, ?_⟩
  · simp only [globalLine, LineKind.declaration, LineKind.arrayMark, List.append_assoc,
      List.cons_append, List.nil_append, Bool.false_eq_true, if_false]
  · simp only [List.forall_mem_cons, List.forall_mem_append]
    exact ⟨⟨isBare_of_isIdentifier htype, rfl, isBare_of_isIdentifier hg, rfl,
      List.forall_mem_nil _⟩, rfl, List.forall_mem_nil _⟩
  · rw [List.getLast?_concat]
    decide

/-- A text that stands as the value of a global by itself: a reader passes through it, and it begins
and ends like no other line. -/
structure StandsAlone (value : List Char) : Prop where
  passes : Passes (fun c => Scan.isPlain c ∧ c ≠ '#') value
  noBreak : '\n' ∉ value ∧ '\r' ∉ value
  head : ∃ c rest, value = c :: rest ∧ isBlank c = false ∧ c ≠ '('
  last : ∃ front c, value = front ++ [c] ∧ isBlank c = false ∧ c ≠ '\\'

namespace StandsAlone

theorem solid (h : StandsAlone value) : Solid value := by
  obtain ⟨c, rest, hhead, hc, -⟩ := h.head
  obtain ⟨front, d, hlast, hd, -⟩ := h.last
  exact ⟨⟨c, rest, hhead, hc⟩, front, d, hlast, hd⟩

theorem head?_ne (h : StandsAlone value) : value.head? ≠ some '(' := by
  obtain ⟨c, rest, rfl, -, hc⟩ := h.head
  exact fun heq => hc (Option.some.inj heq)

theorem completeLine (h : StandsAlone value) (htype : isIdentifier type)
    (hg : isIdentifier g.toList) : CompleteLine (globalLine type false g value) := by
  obtain ⟨front, hline, hfront, hopen⟩ := exists_before_value htype hg
  have hbare : ∀ c ∈ front, Scan.isPlain c ∧ c ≠ '#' ∧ c ≠ '\n' ∧ c ≠ '\r' :=
    fun c hc => isBare_iff.mp (hfront c hc)
  rw [hline]
  apply completeLine_of_passes
  · apply h.passes.append
    · exact fun c hc => (hbare c hc).1
    · exact fun c hc => ⟨(hbare c hc).1, (hbare c hc).2.1⟩
    · intro c hc
      rwa [hc] at hopen
  · rw [List.mem_append, List.mem_append, not_or, not_or]
    exact ⟨⟨fun hin => (hbare _ hin).2.2.1 rfl, h.noBreak.1⟩,
      fun hin => (hbare _ hin).2.2.2 rfl, h.noBreak.2⟩
  · obtain ⟨before, c, heq, hc, hbackslash⟩ := h.last
    refine ⟨front ++ before, c, ?_, hc, hbackslash⟩
    rw [heq, List.append_assoc]

end StandsAlone

theorem solid_call (hname : isIdentifier front) : Solid (bracketed front '(' ')' body) := by
  obtain ⟨c, rest, heq, hc⟩ := (solid_of_isIdentifier hname).head
  refine solid_bracketed ?_ (by decide) (by decide)
  rw [heq, List.head?_cons, Option.all_some, hc]
  rfl

/-- A call begins with a name, not with a bracket. -/
theorem head?_call (hname : isIdentifier front) :
    (bracketed front '(' ')' body).head? ≠ some '(' := by
  obtain ⟨c, rest, heq, -⟩ := (solid_of_isIdentifier hname).head
  have hpart : isIdentifierPart c :=
    isIdentifierPart_of_mem hname (by rw [heq]; exact List.mem_cons_self)
  rw [head?_bracketed, heq, List.head?_cons, Option.some_or]
  exact fun h => ne_of_class hpart (by decide) (Option.some.inj h)

/-- A call with balanced brackets is split into its name and what stands in the brackets. -/
theorem Reader.splitCall?_bracketed (hname : isIdentifier front) (hbalanced : isBalanced body)
    (column : Nat) : splitCall? ⟨bracketed front '(' ')' body, column⟩ =
      some (front, ⟨body, column + front.length + 1⟩) := by
  have honce : splitOnce? '(' (bracketed front '(' ')' body) = some (front, body ++ [')']) :=
    splitOnce?_append (not_mem_of_isIdentifier hname (by decide)) _
  have hstrip : stripEnd? [')'] (body ++ [')']) = some body := stripEnd?_eq_some_iff.mpr rfl
  have htrim : trimEnd front = front := (solid_of_isIdentifier hname).trimEnd_append []
  unfold splitCall?
  simp only [honce, hstrip, htrim, hname, hbalanced, Bool.and_self, if_true]

/-- A call of a declared struct without a key is read as an inline row. -/
theorem Reader.read_call {r : Reader} {name : String} {t : Table}
    (hname : isIdentifier name.toList) (ht : Entries.get? r.tables name = some t)
    (hkey : t.key = none) (hbalanced : isBalanced body) :
    ∃ place, r.read (bracketed name.toList '(' ')' body) ⟨.struct name, false⟩ =
      (collectArguments name 0 [] false
        (Span.arguments ⟨body, name.toList.length + 1⟩)).map fun fields =>
          .instance ⟨name, fields, some place⟩ := by
  have hsolid : Solid (bracketed name.toList '(' ')' body) := solid_call hname
  have hnull : isNullWord (bracketed name.toList '(' ')' body) = false :=
    isNullWord_of_mem (c := '(') (List.mem_append_right _ List.mem_cons_self) (by decide)
  have hcall : splitCall? ⟨bracketed name.toList '(' ')' body, 0⟩ =
      some (name.toList, ⟨body, name.toList.length + 1⟩) := by
    rw [splitCall?_bracketed hname hbalanced, Nat.zero_add]
  have htable : (Entries.get? r.tables name).any (fun t => t.key.isNone) = true := by
    rw [ht, Option.any_some, hkey]
    rfl
  refine ⟨r.place ⟨bracketed name.toList '(' ')' body, 0⟩, ?_⟩
  unfold Reader.read
  simp only [Span.trimmed, hsolid.trim_eq, hsolid.indent_eq, List.length_nil, Nat.add_zero, hnull,
    Bool.false_eq_true, if_false, readScalar, readCall, hcall, String.ofList_toList, ne_eq,
    not_true_eq_false, htable, if_true]

/-- What stands in two brackets is found there if it is balanced. -/
theorem Span.inside?_eq_some_iff {s inner : Span} : s.inside? opening closing = some inner ↔
    ∃ body, s.text = bracketed [] opening closing body ∧ isBalanced body ∧
      inner = ⟨body, s.column + 1⟩ := by
  obtain ⟨text, column⟩ := s
  constructor
  · intro h
    cases text with
    | nil => cases h
    | cons c cs =>
        unfold inside? at h
        simp only at h
        split at h
        · next hc =>
          split at h
          · next body hstrip =>
            split at h
            · next hbody =>
              cases h
              rw [hc, stripEnd?_eq_some_iff.mp hstrip]
              exact ⟨body, rfl, hbody, rfl⟩
            · cases h
          · cases h
        · cases h
  · rintro ⟨body, rfl, hbody, rfl⟩
    have hstrip : stripEnd? [closing] (body ++ [closing]) = some body := stripEnd?_eq_some_iff.mpr rfl
    show (if opening = opening then _ else none) = _
    simp only [if_true, hstrip, hbody]

/-- A list is read element by element. -/
theorem Reader.read_list (r : Reader) (hbody : isBalanced body) (type : ScalarType) :
    r.read (bracketed [] '[' ']' body) ⟨type, true⟩ =
      (r.readElements type (Span.arguments ⟨body, 1⟩)).map .array := by
  have hsolid : Solid (bracketed [] '[' ']' body) := solid_bracketed rfl (by decide) (by decide)
  have hnull : isNullWord (bracketed [] '[' ']' body) = false :=
    isNullWord_of_mem (c := '[') List.mem_cons_self (by decide)
  have hinside : Span.inside? '[' ']' ⟨bracketed [] '[' ']' body, 0⟩ = some ⟨body, 1⟩ :=
    Span.inside?_eq_some_iff.mpr ⟨body, rfl, hbody, rfl⟩
  unfold Reader.read
  simp only [Span.trimmed, hsolid.trim_eq, hsolid.indent_eq, List.length_nil, Nat.add_zero, hnull,
    Bool.false_eq_true, if_false, if_true, readArray, hinside]

/-- The line of a global is recognised, and its value is what was written. -/
theorem ofLine?_globalLine (htype : isIdentifier type) (hg : isIdentifier g.toList)
    (hvalue : Solid value) :
    ∃ f : FieldLine, LineKind.ofLine? (globalLine type array g value) = some (.field f) ∧
      f.isGlobal = true ∧ f.isKey = false ∧ f.typeName = type ∧ f.array = array ∧
      f.name.text = g.toList ∧ f.value.text = value := by
  have hdeclaration : ∃ f : FieldLine,
      LineKind.fieldLine? ([] ++ globalLine type array g value) = some f ∧
        f.isGlobal = List.isEmpty [] ∧ f.isKey = List.contains [] '*' ∧
        f.nullable = List.contains [] '?' ∧ f.typeName = type ∧ f.array = array ∧
        f.name.text = g.toList ∧ f.value.text = trim (' ' :: value) :=
    LineKind.fieldLine?_declaration (fun c hc => by cases hc) (fun c hc => by cases hc) htype hg
  obtain ⟨f, hfield, hglobal, hkey, -, hftype, hfarray, hname, htext⟩ := hdeclaration
  refine ⟨f, LineKind.ofLine?_of_fieldLine? hfield, hglobal, hkey, hftype, hfarray, hname, ?_⟩
  rw [htext]
  exact hvalue.trim_cons

namespace Builder

variable {b : Builder} {l : LogicalLine}

/-- Where no row waits, the line of a global reads its value and sets it. -/
theorem feed_global (hrow : b.row = none) (htype : isIdentifier type) (hg : isIdentifier g.toList)
    (hvalue : Solid value) (hhead : value.head? ≠ some '(')
    (hl : l.text.toList = globalLine type array g value) :
    ∃ location, b.feed l =
      ((Reader.mk b.document.tables location).read value ⟨.ofName (String.ofList type), array⟩).map
        fun v => { b with document := b.document.setGlobal g v } := by
  have hline : ∃ f : FieldLine, LineKind.ofLine? (globalLine type array g value) = some (.field f) ∧
      f.isGlobal = true ∧ f.isKey = false ∧ f.typeName = type ∧ f.array = array ∧
      f.name.text = g.toList ∧ f.value.text = value := ofLine?_globalLine htype hg hvalue
  obtain ⟨f, hkind, hglobal, hkey, hftype, hfarray, hname, htext⟩ := hline
  rw [← hl] at hkind
  have hempty : value.isEmpty = false := hvalue.isEmpty_eq
  have hchoices : isChoiceList f.value = false := by
    rw [isChoiceList, htext]
    exact beq_eq_false_iff_ne.mpr hhead
  refine ⟨l.location f.value.offset f.value.size, ?_⟩
  have hflush : b.flush = .ok b := by
    unfold flush
    simp only [hrow]
  unfold feed
  simp only [hkind, hflush]
  show (if f.isGlobal then b.global l f else b.field l f) = _
  rw [hglobal, if_pos rfl, global]
  simp only [hkey, Bool.false_eq_true, if_false, hchoices, htext, hempty, hname,
    String.ofList_toList, reader, typeOf, hftype, hfarray]

/-- A document that ends with the line of a global. -/
theorem feedAll_global (hrow : b.row = none) (htype : isIdentifier type)
    (hg : isIdentifier g.toList) (hvalue : Solid value) (hhead : value.head? ≠ some '(')
    (hl : l.text.toList = globalLine type array g value) :
    ∃ location, b.feedAll [l] =
      ((Reader.mk b.document.tables location).read value ⟨.ofName (String.ofList type), array⟩).map
        fun v => b.document.setGlobal g v := by
  obtain ⟨location, hfeed⟩ := feed_global hrow htype hg hvalue hhead hl
  refine ⟨location, ?_⟩
  rw [feedAll, hfeed]
  cases (Reader.mk b.document.tables location).read value
      ⟨.ofName (String.ofList type), array⟩ with
  | error e => rfl
  | ok v =>
      show Except.map document (flush _) = _
      rw [flush]
      simp only [hrow]
      rfl

end Builder

end RowConfig
