import RowConfig.Proofs.GlobalLines
import RowConfig.Proofs.Quoting

/-!
# Texts over several lines

`tripled` writes a string between tripled quotes with its line feeds as they are. The text is cut
into physical lines at these line feeds, and the reader is inside of the literal at each of them, so
that the joiner puts the lines together again (`assemble_tripled`). The literal is then read as the
string that it was written for (`ofSource_tripled`), whatever stands at the ends of its lines.
-/

namespace RowConfig

open Chars Escape

/-- A character as it is written in a literal over several lines. -/
def spreadChar : Char → List Char
  | '\\' => ['\\', '\\']
  | '"' => ['\\', '"']
  | '{' => ['\\', '{']
  | '\r' => ['\\', 'r']
  | c => [c]

/-- A text as it is written in a literal over several lines. -/
def spread (cs : List Char) : List Char := cs.flatMap spreadChar

/-- A string as a literal between tripled quotes, on the lines after the opening ones. -/
def tripled (t : String) : List Char :=
  Quote.tripleDouble.delimiter ++ '\n' :: (spread t.toList ++ Quote.tripleDouble.delimiter)

variable {cs u front text : List Char} {line origin : SourceLine}

theorem writes_spreadChar (c : Char) : Writes (spreadChar c) c := by
  unfold spreadChar
  split
  · exact .escaped rfl
  · exact .escaped rfl
  · exact .escaped rfl
  · exact .escaped rfl
  · next hbackslash hquote hbrace _ => exact .bare hbackslash hquote hbrace

theorem spread_append (u v : List Char) : spread (u ++ v) = spread u ++ spread v :=
  List.flatMap_append

/-- Line feeds stay and carriage returns do not. -/
theorem not_mem_spread (h : '\n' ∉ cs) : '\n' ∉ spread cs ∧ '\r' ∉ spread cs := by
  have hchar : ∀ c, ('\n' ∈ spreadChar c → c = '\n') ∧ '\r' ∉ spreadChar c := by
    intro c
    unfold spreadChar
    split
    · decide
    · decide
    · decide
    · decide
    · next hreturn =>
      simp only [List.mem_singleton]
      exact ⟨Eq.symm, fun heq => hreturn heq.symm⟩
  constructor
  · intro hin
    obtain ⟨c, hc, hin⟩ := List.mem_flatMap.mp hin
    exact h ((hchar c).1 hin ▸ hc)
  · intro hin
    obtain ⟨c, -, hin⟩ := List.mem_flatMap.mp hin
    exact (hchar c).2 hin

/-- The first line of what is left of a literal ends at the first line feed of its text, or else is
that of the closing quotes. -/
theorem lines_spread (cs : List Char) :
    (∃ u v, cs = u ++ '\n' :: v ∧ lines (spread cs ++ Quote.tripleDouble.delimiter) =
      spread u :: lines (spread v ++ Quote.tripleDouble.delimiter)) ∨
    lines (spread cs ++ Quote.tripleDouble.delimiter) =
      [spread cs ++ Quote.tripleDouble.delimiter] := by
  by_cases hin : '\n' ∈ cs
  · obtain ⟨u, v, rfl, hu⟩ := List.eq_append_cons_of_mem hin
    obtain ⟨hfeed, hreturn⟩ := not_mem_spread hu
    refine .inl ⟨u, v, rfl, ?_⟩
    rw [spread_append, List.append_assoc]
    exact lines_append hfeed hreturn _
  · obtain ⟨hfeed, hreturn⟩ := not_mem_spread hin
    refine .inr (lines_of_not_mem ?_ ?_ ?_)
    · exact List.append_ne_nil_of_right_ne_nil _ (by decide)
    · exact fun h => (List.mem_append.mp h).elim hfeed (by decide)
    · exact fun h => (List.mem_append.mp h).elim hreturn (by decide)

/-! ## Assembling the lines -/

namespace Scan

variable {s : Scan}

/-- The reader at the start of a line inside of the literal. -/
def inTripled : Scan := { start with quote := some .tripleDouble }

theorem run_opening (hs : s.atCode) (hopen : mayOpenAfter s.previous) :
    s.run Quote.tripleDouble.delimiter [] =
      { s with quote := some .tripleDouble, previous := some '"' } := by
  obtain ⟨hquote, hrest⟩ : s.quote = none ∧ s.rest = 0 := by
    simpa [atCode] using hs
  have hopens : s.opens? '"' ['"', '"'] = some .tripleDouble := if_pos hopen
  have hnext : s.next '"' ['"', '"'] = s.opened .tripleDouble := next_opens hquote hrest hopens
  show ((s.next '"' ['"', '"']).next '"' ['"']).next '"' [] = _
  rw [hnext]
  simp only [next, opened, Quote.delimiter]
  rw [hrest]
  rfl

theorem run_spread (cs after : List Char) :
    inTripled.run (spread cs) after = inTripled ∧
      inTripled.CodeAll (fun _ => False) (spread cs) after :=
  run_flatMap writes_spreadChar rfl rfl rfl cs after

end Scan

namespace Joiner

variable {opener : Location}

/-- Any plain text before the literal, behind which a quote may open, begins a line that waits. -/
theorem feed_opening (hfront : ∀ c ∈ front, isBare c) (hopen : Scan.mayOpenAfter front.getLast?)
    (hline : line.text.toList = front ++ Quote.tripleDouble.delimiter) : ∃ opener,
    start.feed line =
      (⟨.inTripled, .unclosed (front ++ Quote.tripleDouble.delimiter) line opener⟩, []) := by
  have hcode : Scan.start.CodeAll (· ≠ '#') (front ++ Quote.tripleDouble.delimiter) [] := by
    apply Scan.codeAll_of_forall
    intro c hc
    rcases List.mem_append.mp hc with hc | hc
    · exact (isBare_iff.mp (hfront c hc)).2.1
    · rw [List.eq_of_mem_replicate hc]
      decide
  have hprevious : Scan.mayOpenAfter (front.getLast?.or none) := by
    rw [Option.or_none]
    exact hopen
  have hrun : Scan.start.run (front ++ Quote.tripleDouble.delimiter) [] =
      { Scan.inTripled with previous := some '"' } := by
    rw [Scan.run_append, Scan.run_plain rfl fun c hc => (isBare_iff.mp (hfront c hc)).1,
      Scan.run_opening rfl hprevious]
    rfl
  have hread : ∃ place, readCode Scan.start 0 none (front ++ Quote.tripleDouble.delimiter) = _ :=
    Scan.readCode_eq hcode
  obtain ⟨place, hread⟩ := hread
  unfold feed
  simp only [hline, start, hread, hrun, extend]
  exact ⟨_, rfl⟩

/-- A line inside of the literal is added to the text as it is. -/
theorem feed_inside (hline : line.text.toList = spread u) :
    feed ⟨.inTripled, .unclosed text origin opener⟩ line =
      (⟨.inTripled, .unclosed (text ++ '\n' :: spread u) origin opener⟩, []) := by
  obtain ⟨hrun, hcode⟩ := Scan.run_spread u []
  have hread : ∃ place, readCode Scan.inTripled 0 none (spread u) = _ :=
    Scan.readCode_eq (hcode.imp fun _ h => h.elim)
  obtain ⟨place, hread⟩ := hread
  rw [hrun] at hread
  unfold feed
  simp only [hline, hread, extend]
  rfl

/-- The line that closes the literal completes the text. -/
theorem feed_closing (hline : line.text.toList = spread u ++ Quote.tripleDouble.delimiter) :
    feed ⟨.inTripled, .unclosed text origin opener⟩ line =
      (start, [⟨String.ofList
        (text ++ '\n' :: (spread u ++ Quote.tripleDouble.delimiter)), origin⟩]) := by
  obtain ⟨hrun, hcode⟩ := Scan.run_spread u (Quote.tripleDouble.delimiter ++ [])
  have hcode : Scan.inTripled.CodeAll (· ≠ '#') (spread u ++ Quote.tripleDouble.delimiter) [] := by
    rw [Scan.codeAll_append]
    refine ⟨hcode.imp fun _ h => h.elim, Scan.codeAll_of_forall fun c hc => ?_⟩
    rw [List.eq_of_mem_replicate hc]
    decide
  have hread : ∃ place,
      readCode Scan.inTripled 0 none (spread u ++ Quote.tripleDouble.delimiter) = _ :=
    Scan.readCode_eq hcode
  obtain ⟨place, hread⟩ := hread
  rw [Scan.run_append, hrun] at hread
  have hlast : ∃ front c, text ++ '\n' :: (spread u ++ Quote.tripleDouble.delimiter) =
      front ++ [c] ∧ isBlank c = false ∧ c ≠ '\\' := by
    refine ⟨text ++ '\n' :: (spread u ++ ['"', '"']), '"', ?_, by decide⟩
    rw [List.append_assoc, List.cons_append, List.append_assoc]
    rfl
  obtain ⟨hbackslash, hemit⟩ := emit_of_last hlast
  unfold feed
  simp only [hline, hread, extend, hbackslash, hemit]
  rfl

/-- The lines after the opening one, cut at the line feeds of the text, put it together again. -/
theorem assemble_inside {lines : List SourceLine} {cs text : List Char}
    (hlines : lines.map (fun line => line.text.toList) =
      Chars.lines (spread cs ++ Quote.tripleDouble.delimiter)) :
    assemble ⟨.inTripled, .unclosed text origin opener⟩ lines =
      .ok [⟨String.ofList (text ++ '\n' :: (spread cs ++ Quote.tripleDouble.delimiter)),
        origin⟩] := by
  -- each line of the text is consumed with its line feed, so the induction is on the lines
  induction lines generalizing cs text with
  | nil =>
      rcases lines_spread cs with ⟨u, v, -, hcut⟩ | hlast
      · rw [hcut] at hlines
        cases hlines
      · rw [hlast] at hlines
        cases hlines
  | cons line more ih =>
      rcases lines_spread cs with ⟨u, v, rfl, hcut⟩ | hlast
      · rw [hcut] at hlines
        obtain ⟨hline, hmore⟩ := List.cons.inj hlines
        rw [assemble_of_feed (feed_inside hline), ih hmore, spread_append]
        simp only [List.append_assoc, List.cons_append]
        rfl
      · rw [hlast] at hlines
        obtain ⟨hline, hmore⟩ := List.cons.inj hlines
        obtain rfl := List.map_eq_nil_iff.mp hmore
        rw [assemble, feed_closing hline]
        rfl

end Joiner

/-- A plain text and the literal behind it are assembled to the line that they were cut from. -/
theorem assemble_tripled (file : Option String) (hfront : ∀ c ∈ front, isBare c)
    (hopen : Scan.mayOpenAfter front.getLast?) (t : String) : ∃ origin,
    assemble (SourceLine.ofText file (String.ofList (front ++ tripled t))) =
      .ok [⟨String.ofList (front ++ tripled t), origin⟩] := by
  have hbreak : '\n' ∉ front ++ Quote.tripleDouble.delimiter ∧
      '\r' ∉ front ++ Quote.tripleDouble.delimiter := by
    constructor
    · exact fun h => (List.mem_append.mp h).elim
        (fun h => (isBare_iff.mp (hfront _ h)).2.2.1 rfl) (by decide)
    · exact fun h => (List.mem_append.mp h).elim
        (fun h => (isBare_iff.mp (hfront _ h)).2.2.2 rfl) (by decide)
  have hlines : (SourceLine.ofText file (String.ofList (front ++ tripled t))).map
      (fun line => line.text.toList) = (front ++ Quote.tripleDouble.delimiter) ::
        lines (spread t.toList ++ Quote.tripleDouble.delimiter) := by
    rw [map_text_ofText, String.toList_ofList, tripled, ← List.append_assoc]
    exact lines_append hbreak.1 hbreak.2 _
  obtain ⟨line, more, hmap, hline, hmore⟩ := List.map_eq_cons_iff.mp hlines
  obtain ⟨opener, hfeed⟩ := Joiner.feed_opening hfront hopen hline
  refine ⟨line, ?_⟩
  rw [hmap]
  have hassemble := (Joiner.assemble_of_feed hfeed more).trans (Joiner.assemble_inside hmore)
  rwa [List.append_assoc] at hassemble

/-! ## Reading the literal -/

theorem tripled_eq_append (t : String) : tripled t =
    Quote.tripleDouble.delimiter ++ '\n' :: (spread t.toList ++ ['"', '"']) ++ ['"'] := by
  rw [List.append_assoc, List.cons_append, List.append_assoc]
  rfl

theorem solid_tripled (t : String) : Solid (tripled t) :=
  ⟨⟨'"', _, rfl, rfl⟩, _, '"', tripled_eq_append t, rfl⟩

/-- The literal reads as the string that it was written for: the line break behind the opening
quotes is no part of it. -/
theorem readText_tripled (r : Reader) (t : String) (column : Nat) :
    r.readText ⟨tripled t, column⟩ = .ok (.plain t) := by
  have hopening : Quote.opening? (tripled t) = some .tripleDouble := rfl
  have hbody : Reader.literalBody? .tripleDouble ⟨tripled t, column⟩ =
      some ⟨spread t.toList, column + 3 + 1⟩ := by
    have hstart : stripStart? Quote.tripleDouble.delimiter (tripled t) =
        some ('\n' :: spread t.toList ++ Quote.tripleDouble.delimiter) :=
      stripStart?_eq_some_iff.mpr rfl
    have hend : stripEnd? Quote.tripleDouble.delimiter
        ('\n' :: spread t.toList ++ Quote.tripleDouble.delimiter) =
          some ('\n' :: spread t.toList) := stripEnd?_eq_some_iff.mpr rfl
    show Option.map _ ((stripStart? _ (tripled t)).bind (stripEnd? _)) = _
    rw [hstart, Option.bind_some, hend]
    rfl
  have hdecode : decode (spread t.toList) = .ok t.toList := decode_flatMap writes_spreadChar _
  have hplain : hasPlaceholder true (spread t.toList) = false :=
    hasPlaceholder_flatMap writes_spreadChar _
  unfold Reader.readText
  simp only [hopening, hbody, Reader.escapedText, hdecode, hplain, Quote.hasEscapes, if_true,
    Bool.false_eq_true, if_false, String.ofList_toList]

theorem read_tripled (r : Reader) (t : String) :
    r.read (tripled t) ⟨.str, false⟩ = .ok (.text (.plain t)) := by
  have hnull : Reader.isNullWord (tripled t) = false :=
    isNullWord_of_mem (c := '"') List.mem_cons_self (by decide)
  obtain ⟨column, hread⟩ := read_of_solid r (solid_tripled t) hnull .str
  rw [hread, Reader.readScalar, readText_tripled]
  rfl

/-- What stands before the value of a global is plain, and a quote may open behind it. -/
theorem exists_front {g : String} (hg : isIdentifier g.toList) : ∃ front : List Char,
    (∀ value, globalLine ['s', 't', 'r'] false g value = front ++ value) ∧
      (∀ c ∈ front, isBare c) ∧ Scan.mayOpenAfter front.getLast? :=
  exists_before_value rfl hg

/-- A global that is given any string as a literal over several lines has that string: no blank,
hash, backslash or line feed of it is lost or added. -/
theorem ofSource_tripled {g : String} (hg : isIdentifier g.toList) (file : Option String)
    (t : String) :
    Document.ofSource (SourceLine.ofText file
      (String.ofList (globalLine ['s', 't', 'r'] false g (tripled t)))) =
        .ok ⟨[(g, .text (.plain t))], []⟩ := by
  obtain ⟨front, hline, hfront, hopen⟩ := exists_front hg
  obtain ⟨origin, hassemble⟩ := assemble_tripled file hfront hopen t
  rw [← hline] at hassemble
  have hhead : (tripled t).head? = some '"' := rfl
  obtain ⟨location, hfeed⟩ : ∃ location, Builder.start.feedAll
      [⟨String.ofList (globalLine ['s', 't', 'r'] false g (tripled t)), origin⟩] = _ :=
    Builder.feedAll_global rfl (by decide) hg (solid_tripled t) (by rw [hhead]; decide)
      String.toList_ofList
  have htype : ScalarType.ofName (String.ofList ['s', 't', 'r']) = .str := rfl
  rw [htype, read_tripled] at hfeed
  unfold Document.ofSource
  rw [hassemble]
  exact hfeed

theorem ofSource_tripled_edges :
    isIdentifier "g".toList ∧
      Document.ofSource (SourceLine.ofText none
        "str g: \"\"\"\n  # a \n\n\\\"\\\x7bx\x7d\\r\\\\\n\"\"\"") =
          .ok ⟨[("g", .text (.plain "  # a \n\n\"\x7bx\x7d\r\\\n"))], []⟩ := by
  have hg : isIdentifier "g".toList := rfl
  have htext : String.ofList (globalLine ['s', 't', 'r'] false "g"
      (tripled "  # a \n\n\"\x7bx\x7d\r\\\n")) =
        "str g: \"\"\"\n  # a \n\n\\\"\\\x7bx\x7d\\r\\\\\n\"\"\"" := rfl
  rw [← htext]
  exact ⟨hg, ofSource_tripled hg none _⟩

end RowConfig
