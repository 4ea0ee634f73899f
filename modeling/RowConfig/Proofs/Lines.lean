import Mathlib.Data.List.TakeWhile
import RowConfig.Compile
import RowConfig.Proofs.Arguments
import RowConfig.Proofs.Pointwise

/-!
# Lines that stand alone

A line that is complete passes through include expansion, comment stripping and assembly as it is:
it begins no comment and no directive, leaves nothing open and does not ask for the next line. A
text of such lines is read from exactly these lines (`readDocument_of_complete`).
-/

namespace RowConfig

open Chars

/-- The text of a document with these lines. -/
def textOf (ls : List (List Char)) : String := String.ofList (ls.flatMap (· ++ ['\n']))

theorem map_text_ofText (file : Option String) (text : String) :
    (SourceLine.ofText file text).map (fun line => line.text.toList) = lines text.toList := by
  rw [SourceLine.ofText, List.map_map]
  show (lines text.toList).zipIdx.map (fun p => (String.ofList p.1).toList) = _
  simp only [String.toList_ofList]
  exact List.zipIdx_map_fst 0 _

namespace Joiner

variable {text : List Char}

/-- A line that completes nothing only changes what the lines after it are added to. -/
theorem assemble_of_feed {i j : Joiner} {line : SourceLine} (hfeed : i.feed line = (j, []))
    (lines : List SourceLine) : i.assemble (line :: lines) = j.assemble lines := by
  rw [assemble, hfeed]
  show (j.assemble lines).map id = _
  cases j.assemble lines <;> rfl

theorem beforeBackslash?_eq_some_iff {body : List Char} :
    beforeBackslash? text = some body ↔ trimEnd text = body ++ ['\\'] := stripEnd?_eq_some_iff

/-- A text that ends with neither a blank nor a backslash makes a logical line as it is. -/
theorem emit_of_last (h : ∃ front c, text = front ++ [c] ∧ isBlank c = false ∧ c ≠ '\\') :
    beforeBackslash? text = none ∧
      ∀ origin, emit text origin = [⟨String.ofList text, origin⟩] := by
  obtain ⟨front, c, rfl, hblank, hc⟩ := h
  have htrim : trimEnd (front ++ [c]) = front ++ [c] := trimEnd_append_singleton hblank
  constructor
  · rw [Option.eq_none_iff_forall_ne_some]
    intro body hbody
    rw [beforeBackslash?_eq_some_iff, htrim] at hbody
    exact hc (List.cons.inj (List.append_inj' hbody rfl).2).1
  · intro origin
    rw [emit, htrim]
    cases front <;> rfl

end Joiner

/-- The line is a logical line by itself. -/
structure CompleteLine (l : List Char) : Prop where
  noBreak : '\n' ∉ l ∧ '\r' ∉ l
  noComment : Scan.start.CodeAll (· ≠ '#') l []
  closed : ∃ p, Scan.start.run l [] = { Scan.start with previous := p }
  last : ∃ front c, l = front ++ [c] ∧ isBlank c = false ∧ c ≠ '\\'

namespace CompleteLine

variable {l : List Char} {line : SourceLine}

/-- A hash that begins a line would be code. -/
theorem noDirective (h : CompleteLine l) : (trimStart l).head? ≠ some '#' := by
  intro hhead
  obtain ⟨rest, hrest⟩ := List.head?_eq_some_iff.mp hhead
  have hplain : ∀ c ∈ indent l, Scan.isPlain c := fun c hc =>
    Scan.isPlain_of_isBlank (List.mem_takeWhile_imp hc)
  have hcode := h.noComment
  rw [← indent_append_trimStart l, Scan.codeAll_append, Scan.run_plain rfl hplain, hrest] at hcode
  exact hcode.2.1 (Scan.isCode_of_atCode rfl (by decide)) rfl

theorem ofLine_eq (h : CompleteLine l) (hline : line.text.toList = l) :
    Include.ofLine line = .ok .nothing := by
  have hdirective : stripStart? Include.directive (trimStart l) = none := by
    cases hstrip : stripStart? Include.directive (trimStart l) with
    | none => rfl
    | some rest =>
        have heq := stripStart?_eq_some_iff.mp hstrip
        exact absurd (by rw [heq]; rfl) h.noDirective
  unfold Include.ofLine
  simp only [hline, hdirective]

/-- Between two lines nothing waits, and a complete line leaves it so. -/
theorem feed_start (h : CompleteLine l) (hline : line.text.toList = l) :
    Joiner.start.feed line = (Joiner.start, [⟨String.ofList l, line⟩]) := by
  have hread : ∃ opener, readCode Scan.start 0 none l = ⟨l, Scan.start.run l [], opener⟩ :=
    Scan.readCode_eq h.noComment
  obtain ⟨opener, hread⟩ := hread
  obtain ⟨p, hclosed⟩ := h.closed
  rw [hclosed] at hread
  obtain ⟨hbackslash, hemit⟩ := Joiner.emit_of_last h.last
  unfold Joiner.feed
  simp only [hline, show Joiner.start.scan = Scan.start from rfl, hread, Joiner.extend,
    show Joiner.start.waiting = .nothing from rfl, hbackslash, hemit]
  rfl

end CompleteLine

theorem expand_of_complete (s : Sources) (dir : String) {lines : List SourceLine}
    (h : ∀ line ∈ lines, CompleteLine line.text.toList) :
    Include.expand s [] (lines.map fun line => (dir, line)) = .ok lines := by
  induction lines with
  | nil => simp [Include.expand]
  | cons line lines ih =>
      have hline := (h line List.mem_cons_self).ofLine_eq rfl
      rw [List.map_cons, Include.expand]
      simp only [hline, ih fun line' hline' => h line' (List.mem_cons_of_mem _ hline')]
      rfl

theorem assemble_of_complete {lines : List SourceLine}
    (h : ∀ line ∈ lines, CompleteLine line.text.toList) :
    assemble lines = .ok (lines.map fun line => ⟨line.text, line⟩) := by
  unfold assemble
  induction lines with
  | nil => rfl
  | cons line lines ih =>
      have hline := (h line List.mem_cons_self).feed_start rfl
      rw [String.ofList_toList] at hline
      rw [Joiner.assemble, hline]
      simp only [ih fun line' hline' => h line' (List.mem_cons_of_mem _ hline')]
      rfl

/-! ## Putting lines together -/

/-- A character that means nothing to any stage. -/
def isBare (c : Char) : Bool := Scan.isPlain c && c != '#' && c != '\n' && c != '\r'

theorem isBare_iff {c : Char} : isBare c ↔ Scan.isPlain c ∧ c ≠ '#' ∧ c ≠ '\n' ∧ c ≠ '\r' := by
  simp only [isBare, Bool.and_eq_true, bne_iff_ne, and_assoc]

theorem isBare_of_isIdentifier {cs : List Char} (h : isIdentifier cs) : ∀ c ∈ cs, isBare c := by
  intro c hc
  have hpart := isIdentifierPart_of_mem h hc
  exact isBare_iff.mpr ⟨isPlain_of_isIdentifierPart hpart, ne_of_class hpart (by decide),
    ne_of_class hpart (by decide), ne_of_class hpart (by decide)⟩

/-- A text on one line through which a reader passes from the start of the line, meeting no hash. It
is then at top level. -/
structure Level (u : List Char) : Prop where
  noBreak : '\n' ∉ u ∧ '\r' ∉ u
  reads : ∀ after : List Char, after.head? ≠ some '"' →
    (∃ p, Scan.start.run u after = { Scan.start with previous := p }) ∧
      Scan.start.CodeAll (· ≠ '#') u after

/-- A bracket and the one that closes it. -/
structure IsPair (opening closing : Char) : Prop where
  opening_not_quote : Scan.isQuote opening = false
  closing_not_quote : Scan.isQuote closing = false
  opening_not_hash : opening ≠ '#'
  closing_not_hash : closing ≠ '#'
  noBreak : '\n' ∉ [opening, closing] ∧ '\r' ∉ [opening, closing]
  opens : Scan.mayOpenAfter (some opening)
  inside : ∀ p, (Scan.code { Scan.start with previous := p } opening).atCode
  closes : ∀ p q, Scan.code { Scan.code { Scan.start with previous := p } opening with
    previous := q } closing = { Scan.start with previous := some closing }

theorem isPair_square : IsPair '[' ']' :=
  ⟨rfl, rfl, by decide, by decide, by decide, rfl, fun _ => rfl, fun _ _ => rfl⟩

theorem isPair_round : IsPair '(' ')' :=
  ⟨rfl, rfl, by decide, by decide, by decide, rfl, fun _ => rfl, fun _ _ => rfl⟩

theorem passes_nil (P : Char → Prop) : Passes P [] := fun s _ _ _ _ => ⟨⟨s.previous, rfl⟩, trivial⟩

namespace Level

variable {u v : List Char}

theorem nil : Level [] :=
  ⟨⟨List.not_mem_nil, List.not_mem_nil⟩, fun _ _ => ⟨⟨none, rfl⟩, trivial⟩⟩

theorem append_bare (h : Level u) (hv : ∀ c ∈ v, isBare c) : Level (u ++ v) := by
  have hv : ∀ c ∈ v, Scan.isPlain c ∧ c ≠ '#' ∧ c ≠ '\n' ∧ c ≠ '\r' := fun c hc =>
    isBare_iff.mp (hv c hc)
  constructor
  · rw [List.mem_append, List.mem_append, not_or, not_or]
    exact ⟨⟨h.noBreak.1, fun hin => (hv _ hin).2.2.1 rfl⟩, h.noBreak.2, fun hin =>
      (hv _ hin).2.2.2 rfl⟩
  · intro after hafter
    have hnext : (v ++ after).head? ≠ some '"' := by
      cases v with
      | nil => exact hafter
      | cons c v =>
          intro hhead
          cases hhead
          exact absurd (hv '"' List.mem_cons_self).1 (by decide)
    obtain ⟨⟨p, hrun⟩, hcode⟩ := h.reads (v ++ after) hnext
    rw [Scan.run_append, Scan.codeAll_append, hrun, Scan.run_plain rfl fun c hc => (hv c hc).1]
    exact ⟨⟨_, rfl⟩, hcode, Scan.codeAll_of_forall fun c hc => (hv c hc).2.1⟩

/-- Brackets around a text that a reader passes through. -/
theorem append_brackets {opening closing : Char} {body : List Char} (h : Level u)
    (hpair : IsPair opening closing) (hbody : Passes (fun c => Scan.isPlain c ∧ c ≠ '#') body)
    (hbreak : '\n' ∉ body ∧ '\r' ∉ body) : Level (u ++ opening :: (body ++ [closing])) := by
  constructor
  · obtain ⟨hfeed, hreturn⟩ := hpair.noBreak
    simp only [List.mem_cons, List.not_mem_nil, or_false, not_or] at hfeed hreturn
    simp only [List.mem_append, List.mem_cons, List.not_mem_nil, or_false, not_or]
    exact ⟨⟨h.noBreak.1, hfeed.1, hbreak.1, hfeed.2⟩, h.noBreak.2, hreturn.1, hbreak.2, hreturn.2⟩
  · intro after hafter
    obtain ⟨⟨p, hrun⟩, hcode⟩ := h.reads (opening :: (body ++ [closing]) ++ after) (by
      intro hhead
      cases hhead
      cases hpair.opening_not_quote)
    -- inside of the brackets, up to the closing one
    obtain ⟨⟨q, hrunBody⟩, hcodeBody⟩ := hbody (Scan.code { Scan.start with previous := p } opening)
      ([closing] ++ after) (hpair.inside p) hpair.opens (by
      intro hhead
      cases hhead
      cases hpair.closing_not_quote)
    have hs : Scan.atCode
        { Scan.code { Scan.start with previous := p } opening with previous := q } :=
      hpair.inside p
    rw [Scan.run_append, Scan.codeAll_append, hrun, Scan.run, Scan.CodeAll,
      Scan.next_of_atCode rfl hpair.opening_not_quote, Scan.run_append, Scan.codeAll_append,
      hrunBody, Scan.run, Scan.CodeAll, Scan.next_of_atCode hs hpair.closing_not_quote,
      hpair.closes]
    exact ⟨⟨_, rfl⟩, hcode, fun _ => hpair.opening_not_hash, hcodeBody.imp fun c hc => hc.2,
      fun _ => hpair.closing_not_hash, trivial⟩

/-- A line ends with something else than a blank or a backslash. -/
theorem completeLine {l : List Char} (h : Level l)
    (hlast : ∃ front c, l = front ++ [c] ∧ isBlank c = false ∧ c ≠ '\\') : CompleteLine l := by
  obtain ⟨hrun, hcode⟩ := h.reads [] (by decide)
  exact ⟨h.noBreak, hcode, hrun, hlast⟩

end Level

theorem completeLine_of_bare {l : List Char} (h : ∀ c ∈ l, isBare c)
    (hlast : ∃ front c, l = front ++ [c] ∧ isBlank c = false ∧ c ≠ '\\') : CompleteLine l := by
  have hlevel : Level ([] ++ l) := Level.nil.append_bare h
  exact hlevel.completeLine hlast

theorem completeLine_of_passes {l : List Char} (h : Passes (fun c => Scan.isPlain c ∧ c ≠ '#') l)
    (hbreak : '\n' ∉ l ∧ '\r' ∉ l)
    (hlast : ∃ front c, l = front ++ [c] ∧ isBlank c = false ∧ c ≠ '\\') : CompleteLine l := by
  obtain ⟨hrun, hcode⟩ := h Scan.start [] rfl rfl (by decide)
  exact ⟨hbreak, hcode.imp fun c hc => hc.2, hrun, hlast⟩

/-- A text of complete lines is read from these lines. -/
theorem readDocument_of_complete (s : Sources) (dir : String) {ls : List (List Char)}
    (h : ∀ l ∈ ls, CompleteLine l) :
    ∃ lines : List LogicalLine, lines.map (fun l => l.text.toList) = ls ∧
      readDocument s (.text dir (textOf ls)) = Document.ofLines lines := by
  let source := SourceLine.ofText none (textOf ls)
  have htexts : source.map (fun line => line.text.toList) = ls := by
    show List.map _ (SourceLine.ofText none (textOf ls)) = ls
    rw [map_text_ofText, textOf, String.toList_ofList,
      lines_flatMap fun l hl => (h l hl).noBreak]
  have hcomplete : ∀ line ∈ source, CompleteLine line.text.toList := by
    intro line hline
    apply h
    rw [← htexts]
    exact List.mem_map_of_mem hline
  refine ⟨source.map fun line => ⟨line.text, line⟩, ?_, ?_⟩
  · rw [List.map_map]
    exact htexts
  · have hlines : Input.lines s (.text dir (textOf ls)) = .ok source :=
      expand_of_complete s dir hcomplete
    rw [readDocument, hlines]
    simp only [Document.ofSource, assemble_of_complete hcomplete]

end RowConfig
