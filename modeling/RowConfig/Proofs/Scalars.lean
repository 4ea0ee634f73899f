import RowConfig.Proofs.Entries
import RowConfig.Proofs.GlobalLines
import RowConfig.Proofs.Positions
import RowConfig.Proofs.Settled

/-!
# Scalars that are printed and read back

Integers and booleans are printed as templates show them, strings as literals. Read at its own
type, what is printed for a scalar is that scalar (`Scalar.read_printed`), so a text with one line
for each of any scalars exports these scalars under their names (`compile_printedText`).
-/

namespace RowConfig

open Chars Number

/-! ## Integers in base ten -/

namespace Number

theorem baseOfLetter?_of_isDigit {c : Char} (h : c.isDigit) : baseOfLetter? c = none := by
  unfold baseOfLetter?
  split
  case h_7 => rfl
  all_goals exact absurd h (by decide)

/-- Digits alone have no base mark. -/
theorem baseAndDigits_of_digits {cs : List Char} (h : ∀ c ∈ cs, c.isDigit) :
    baseAndDigits cs = (10, cs) := by
  unfold baseAndDigits
  split
  · next letter digits =>
    have hdigit : letter.isDigit := h letter (List.mem_cons_of_mem _ List.mem_cons_self)
    rw [baseOfLetter?_of_isDigit hdigit]
  · rfl

theorem magnitude?_toString (n : Nat) : magnitude? (toString n).toList = some n := by
  unfold magnitude?
  rw [baseAndDigits_of_digits fun c hc => isDigit_of_mem_toString hc]
  exact natural?_toString n

theorem toList_toString_negSucc (n : Nat) :
    (toString (Int.negSucc n)).toList = '-' :: (toString (n + 1)).toList :=
  String.toList_append

/-- An integer is printed as digits, perhaps behind a minus sign. -/
theorem isDigit_or_eq_of_mem_toString {n : Int} {c : Char} (h : c ∈ (toString n).toList) :
    c.isDigit ∨ c = '-' := by
  cases n with
  | ofNat n => exact .inl (isDigit_of_mem_toString (n := n) h)
  | negSucc n =>
      rw [toList_toString_negSucc, List.mem_cons] at h
      rcases h with rfl | h
      · exact .inr rfl
      · exact .inl (isDigit_of_mem_toString h)

theorem toList_toString_int_ne_nil (n : Int) : (toString n).toList ≠ [] := by
  cases n with
  | ofNat n => exact toList_toString_ne_nil n
  | negSucc n =>
      rw [toList_toString_negSucc]
      exact List.cons_ne_nil _ _

theorem toLower_of_isDigit {c : Char} (h : c.isDigit) : c.toLower = c := by
  obtain ⟨-, hnine⟩ := Bool.and_eq_true_iff.mp h
  have hnine : c.val ≤ '9'.val := of_decide_eq_true hnine
  refine dif_neg ?_
  rintro ⟨hletter, -⟩
  exact absurd (UInt32.le_trans hletter hnine) (by decide)

/-- An integer of the language is read from its digits and sign. -/
theorem integer?_toString {n : Int} (hmin : minInt ≤ n) (hmax : n ≤ maxInt) :
    integer? (toString n).toList = some n := by
  have hrange : inRange? n = some n := if_pos ⟨hmin, hmax⟩
  cases n with
  | ofNat n =>
      show integer? (toString n).toList = _
      unfold integer?
      split
      · next cs heq =>
        -- no digit is a minus sign
        have hsign : '-'.isDigit := isDigit_of_mem_toString (heq ▸ List.mem_cons_self)
        exact absurd hsign (by decide)
      · rw [magnitude?_toString, Option.bind_some]
        exact hrange
  | negSucc n =>
      rw [toList_toString_negSucc, integer?, magnitude?_toString, Option.bind_some]
      exact hrange

end Number

/-! ## Printing -/

/-- A 64-bit integer, a boolean or a string. -/
inductive Scalar where
  | int (n : Int64)
  | bool (b : Bool)
  | str (s : String)
deriving DecidableEq, Repr

namespace Scalar

def typeName : Scalar → List Char
  | int _ => ['i', 'n', 't']
  | bool _ => ['b', 'o', 'o', 'l']
  | str _ => ['s', 't', 'r']

def type : Scalar → ScalarType
  | int _ => .int
  | bool _ => .bool
  | str _ => .str

def value : Scalar → Value
  | int n => .int n.toInt
  | bool b => .bool b
  | str s => .text (.plain s)

def node : Scalar → Node
  | int n => .int n.toInt
  | bool b => .bool b
  | str s => .string s

/-- A string is printed as a literal, another scalar as its text. -/
def printed : Scalar → List Char
  | str s => quoted s
  | v => v.value.render.toList

/-- The line of a global with the scalar as its value. -/
def line (g : String) (v : Scalar) : List Char := globalLine v.typeName false g v.printed

theorem isIdentifier_typeName (v : Scalar) : isIdentifier v.typeName := by cases v <;> rfl

theorem ofName_typeName (v : Scalar) : ScalarType.ofName (String.ofList v.typeName) = v.type := by
  cases v <;> rfl

theorem toNode_value (v : Scalar) : v.value.toNode = v.node := by cases v <;> rfl

theorem settled_value (v : Scalar) : v.value.Settled := by
  apply Value.settled_of_parts
  · cases v <;> rfl
  · intro p hp
    cases v <;> cases hp

/-! ## What is printed -/

/-- A letter, a digit, an underscore or a minus sign. -/
def isWordPart (c : Char) : Bool := isIdentifierPart c || c == '-'

theorem isBlank_of_isWordPart {c : Char} (h : isWordPart c) : isBlank c = false := by
  rcases Bool.or_eq_true_iff.mp h with h | h
  · exact isBlank_of_isIdentifierPart h
  · rw [beq_iff_eq.mp h]
    decide

theorem standsAlone_word {word : List Char} (hne : word ≠ []) (h : ∀ c ∈ word, isWordPart c) :
    StandsAlone word := by
  have hplain : ∀ c ∈ word, Scan.isPlain c := fun c hc =>
    Scan.isPlain_of_class (by decide) (h c hc)
  have hne_of : ∀ c ∈ word, ∀ d, isWordPart d = false → c ≠ d := fun c hc d hd =>
    ne_of_class (h c hc) hd
  constructor
  · intro s after hs _ _
    refine ⟨⟨_, Scan.run_plain hs hplain⟩, Scan.codeAll_of_forall fun c hc => ?_⟩
    exact ⟨hplain c hc, hne_of c hc _ (by decide)⟩
  · exact ⟨fun hin => hne_of _ hin '\n' (by decide) rfl,
      fun hin => hne_of _ hin '\r' (by decide) rfl⟩
  · obtain ⟨c, rest, rfl⟩ := List.exists_cons_of_ne_nil hne
    have hc := List.mem_cons_self (a := c) (l := rest)
    exact ⟨c, rest, rfl, isBlank_of_isWordPart (h c hc), hne_of c hc _ (by decide)⟩
  · obtain ⟨front, c, rfl⟩ := (List.eq_nil_or_concat' word).resolve_left hne
    have hc : c ∈ front ++ [c] := List.mem_append_right _ List.mem_cons_self
    exact ⟨front, c, rfl, isBlank_of_isWordPart (h c hc), hne_of c hc _ (by decide)⟩

theorem standsAlone_quoted (s : String) : StandsAlone (quoted s) where
  passes := (passes_quoted s).imp fun c => False.elim
  noBreak := not_mem_quoted s
  head := ⟨'"', escape s.toList ++ ['"'], rfl, by decide, by decide⟩
  last := ⟨'"' :: escape s.toList, '"', rfl, by decide, by decide⟩

theorem standsAlone_printed (v : Scalar) : StandsAlone v.printed := by
  cases v with
  | int n =>
      apply standsAlone_word (toList_toString_int_ne_nil n.toInt)
      intro c hc
      rcases isDigit_or_eq_of_mem_toString hc with hdigit | rfl
      · simp [isWordPart, isIdentifierPart, Char.isAlphanum, hdigit]
      · rfl
  | bool b =>
      have hne : (toString b).toList ≠ [] := by cases b <;> decide
      have hword : (toString b).toList.all isWordPart := by cases b <;> rfl
      exact standsAlone_word hne (List.all_eq_true.mp hword)
  | str s => exact standsAlone_quoted s

/-! ## Reading it -/

theorem isNullWord_printed (v : Scalar) : Reader.isNullWord v.printed = false := by
  cases v with
  | int n =>
      obtain ⟨c, rest, heq⟩ := List.exists_cons_of_ne_nil (toList_toString_int_ne_nil n.toInt)
      have hc : c ∈ (toString n.toInt).toList := by
        rw [heq]
        exact List.mem_cons_self
      apply isNullWord_of_mem hc
      rcases isDigit_or_eq_of_mem_toString hc with hdigit | rfl
      · rw [toLower_of_isDigit hdigit]
        intro hin
        fin_cases hin <;> cases hdigit
      · decide
  | bool b =>
      have he : 'e' ∈ (toString b).toList := by cases b <;> decide
      exact isNullWord_of_mem he (by decide)
  | str s => exact isNullWord_quoted s

/-- What is printed for a scalar is read as that scalar. -/
theorem read_printed (r : Reader) (v : Scalar) :
    r.read v.printed ⟨v.type, false⟩ = .ok v.value := by
  obtain ⟨column, hread⟩ :=
    read_of_solid r (standsAlone_printed v).solid (isNullWord_printed v) v.type
  rw [hread]
  cases v with
  | int n =>
      have hint : integer? (toString n.toInt).toList = some n.toInt :=
        integer?_toString n.le_toInt (Int.le_sub_one_of_lt n.toInt_lt)
      show r.readScalar ⟨(toString n.toInt).toList, column⟩ .int = _
      unfold Reader.readScalar
      simp only [hint]
      rfl
  | bool b => cases b <;> rfl
  | str s =>
      show r.readScalar ⟨quoted s, column⟩ .str = _
      rw [Reader.readScalar, readText_quoted]
      rfl

end Scalar

/-! ## Texts of scalars -/

section Texts

variable {entries : Entries Scalar}

/-- The text with one line for each scalar. -/
def printedText (entries : Entries Scalar) : String := textOf (entries.map fun e => e.2.line e.1)

/-- The lines set the globals that they print, behind those that are set already. -/
theorem feedAll_printed {globals : Entries Value} {lines : List LogicalLine}
    (hnames : ∀ name ∈ Entries.names entries, isIdentifier name.toList)
    (hdistinct : (Entries.names globals ++ Entries.names entries).Nodup)
    (hlines : lines.map (fun l => l.text.toList) = entries.map fun e => e.2.line e.1) :
    (Builder.mk ⟨globals, []⟩ none none).feedAll lines =
      .ok ⟨globals ++ Entries.mapValues Scalar.value entries, []⟩ := by
  induction entries generalizing globals lines with
  | nil =>
      rw [List.map_nil, List.map_eq_nil_iff] at hlines
      rw [hlines, Entries.mapValues, List.map_nil, List.append_nil]
      rfl
  | cons e entries ih =>
      obtain ⟨g, v⟩ := e
      obtain ⟨l, more, rfl, hl, hmore⟩ := List.map_eq_cons_iff.mp hlines
      obtain ⟨hg, hnames⟩ := List.forall_mem_cons.mp hnames
      obtain ⟨hnew, hdistinct⟩ := Entries.nodup_names_snoc (v := v.value) hdistinct
      have halone : StandsAlone v.printed := v.standsAlone_printed
      obtain ⟨location, hfeed⟩ := Builder.feed_global (b := ⟨⟨globals, []⟩, none, none⟩) rfl
        v.isIdentifier_typeName hg halone.solid halone.head?_ne hl
      rw [v.ofName_typeName, Scalar.read_printed] at hfeed
      have hset : Document.setGlobal ⟨globals, []⟩ g v.value = ⟨globals ++ [(g, v.value)], []⟩ := by
        rw [Document.setGlobal, Entries.insert_of_not_mem hnew]
      rw [Builder.feedAll, hfeed]
      show (Builder.mk (Document.setGlobal ⟨globals, []⟩ g v.value) none none).feedAll more = _
      rw [hset, ih hnames hdistinct hmore, List.append_assoc]
      rfl

/-- A text with one line for each scalar, whatever the scalars are, exports the scalars under their
names, in the order of the lines. -/
theorem compile_printedText (s : Sources) (dir : String)
    (hnames : ∀ name ∈ Entries.names entries, isIdentifier name.toList)
    (hdistinct : (Entries.names entries).Nodup) :
    (compile s (.text dir (printedText entries))).map Document.toNode =
      .ok (.object (Entries.mapValues Scalar.node entries)) := by
  have hcomplete : ∀ l ∈ entries.map fun e => e.2.line e.1, CompleteLine l := by
    intro l hl
    obtain ⟨e, he, rfl⟩ := List.mem_map.mp hl
    exact e.2.standsAlone_printed.completeLine e.2.isIdentifier_typeName
      (hnames _ (Entries.mem_names_of_mem he))
  obtain ⟨lines, hlines, hread⟩ := readDocument_of_complete s dir hcomplete
  -- no global is set before the first line
  have hstart : (Entries.names ([] : Entries Value) ++ Entries.names entries).Nodup := hdistinct
  have hdocument : Document.ofLines lines = .ok ⟨Entries.mapValues Scalar.value entries, []⟩ :=
    feedAll_printed hnames hstart hlines
  have hsettled : (Entries.mapValues Scalar.value entries).Settled := by
    intro v hv
    obtain ⟨e, he, rfl⟩ := List.mem_map.mp hv
    obtain ⟨e, -, rfl⟩ := List.mem_map.mp he
    exact e.2.settled_value
  have hnodes : Entries.mapValues Value.toNode (Entries.mapValues Scalar.value entries) =
      Entries.mapValues Scalar.node entries := by
    rw [Entries.mapValues, Entries.mapValues, List.map_map]
    exact List.map_congr_left fun e _ => congrArg (Prod.mk e.1) e.2.toNode_value
  rw [compile, printedText, hread, hdocument]
  show Except.map Document.toNode (Document.resolve _) = _
  rw [Document.resolve_of_settled hsettled, ← hnodes]
  rfl

/-- Scalars at the ends of their types, and a string of characters that mean something elsewhere. -/
def edgeScalars : Entries Scalar :=
  [("least", .int Int64.minValue), ("greatest", .int Int64.maxValue), ("null", .bool false),
    ("int", .str " # \"\x7bleast\x7d\" \\n\n\r,null")]

theorem compile_printedText_edges :
    (∀ name ∈ Entries.names edgeScalars, isIdentifier name.toList) ∧
      (Entries.names edgeScalars).Nodup ∧
      printedText edgeScalars =
        "int least: -9223372036854775808\nint greatest: 9223372036854775807\nbool null: false\n" ++
          "str int: \" # \\\"\\\x7bleast\\\x7d\\\" \\\\n\\n\\r,null\"\n" ∧
      (compile .empty (.text "/" (printedText edgeScalars))).map Document.toNode =
        .ok (.object [("least", .int (-9223372036854775808)),
          ("greatest", .int 9223372036854775807), ("null", .bool false),
          ("int", .string " # \"\x7bleast\x7d\" \\n\n\r,null")]) := by
  have hnames : ∀ name ∈ Entries.names edgeScalars, isIdentifier name.toList := by decide
  have hdistinct : (Entries.names edgeScalars).Nodup := by decide
  exact ⟨hnames, hdistinct, by decide +kernel, compile_printedText .empty "/" hnames hdistinct⟩

end Texts

end RowConfig
