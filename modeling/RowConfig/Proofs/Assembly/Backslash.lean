import RowConfig.Proofs.Lines

/-!
# Lines broken by a backslash

A line is broken in two by a backslash outside of literals and comments (`IsBreak`). The reader
forgets the last character at the end of the first line, but as no quote begins the second line it
reads on as it would have on the whole line (`readCode_withPrevious`). The two lines are assembled
to one whose text is that of the whole line exactly where no round bracket is open at the break:
inside of one the lines are joined by a line break, and the backslash before it stays
(`assemble_backslash`).
-/

namespace RowConfig

open Chars

/-! ## What stands ahead -/

namespace Scan

variable {s : Scan} {P : Char → Prop} {c : Char} {cs u after : List Char}

/-- No quote begins the text. -/
def bareAhead (after : List Char) : Bool := after.head?.all (!isQuote ·)

/-- A run of quotes does not go on behind a text where no quote follows. -/
theorem isPrefixOf_append {p : List Char} (hp : ∀ d ∈ p, isQuote d) (h : bareAhead after)
    (u : List Char) : p.isPrefixOf (u ++ after) = p.isPrefixOf u := by
  induction p generalizing u with
  | nil => rfl
  | cons d p ih =>
      cases u with
      | nil =>
          cases after with
          | nil => rfl
          | cons a after =>
              have ha : isQuote a = false := (Bool.not_eq_true' _).mp h
              have hne : d ≠ a := by
                rintro rfl
                rw [hp d List.mem_cons_self] at ha
                cases ha
              show ((d == a) && p.isPrefixOf after) = false
              rw [beq_false_of_ne hne, Bool.false_and]
      | cons c u =>
          show ((d == c) && p.isPrefixOf (u ++ after)) = ((d == c) && p.isPrefixOf u)
          rw [ih fun e he => hp e (List.mem_cons_of_mem _ he)]

theorem isQuote_char (q : Quote) : isQuote q.char := by
  cases q <;> rfl

theorem isPrefixOf_delimiter_append (h : bareAhead after) (q : Quote) (u : List Char) :
    q.delimiter.isPrefixOf (u ++ after) = q.delimiter.isPrefixOf u :=
  isPrefixOf_append (fun _ hd => List.eq_of_mem_replicate hd ▸ isQuote_char q) h u

theorem isPrefixOf_triple_eq_false (h : ∀ rest, cs = c :: c :: rest → False) :
    (List.replicate 3 c).isPrefixOf (c :: cs) = false := by
  rw [Bool.eq_false_iff]
  intro hprefix
  obtain ⟨rest, hrest⟩ := List.isPrefixOf_iff_prefix.mp hprefix
  exact h rest (List.cons.inj hrest).2.symm

/-- The quote that opens is the first of the four whose delimiter stands there. -/
theorem opening?_eq (cs : List Char) : Quote.opening? cs =
    [Quote.tripleDouble, .tripleSingle, .double, .single].find? (·.delimiter.isPrefixOf cs) := by
  unfold Quote.opening?
  split
  · rfl
  · rfl
  · next cs hnot =>
    have h : Quote.tripleDouble.delimiter.isPrefixOf ('"' :: cs) = false :=
      isPrefixOf_triple_eq_false hnot
    simp only [List.find?, h]
    rfl
  · next cs hnot =>
    have h : Quote.tripleSingle.delimiter.isPrefixOf ('\'' :: cs) = false :=
      isPrefixOf_triple_eq_false hnot
    simp only [List.find?, h]
    rfl
  · next htripleDouble htripleSingle hdouble hsingle =>
    rw [eq_comm, List.find?_eq_none]
    intro q _ hq
    obtain ⟨rest, rfl⟩ := List.isPrefixOf_iff_prefix.mp hq
    cases q with
    | double => exact hdouble _ rfl
    | single => exact hsingle _ rfl
    | tripleDouble => exact htripleDouble _ rfl
    | tripleSingle => exact htripleSingle _ rfl

theorem opens?_append (h : bareAhead after) (s : Scan) (c : Char) (u : List Char) :
    s.opens? c (u ++ after) = s.opens? c u := by
  have hopening : Quote.opening? (c :: u ++ after) = Quote.opening? (c :: u) := by
    simp only [opening?_eq, isPrefixOf_delimiter_append h]
  unfold opens?
  rw [← List.cons_append, hopening]

theorem next_append (h : bareAhead after) (s : Scan) (c : Char) (u : List Char) :
    s.next c (u ++ after) = s.next c u := by
  unfold next
  simp only [opens?_append h, ← List.cons_append, isPrefixOf_delimiter_append h]

/-- Where no quote follows it, a text is read as it is at the end of a line. -/
theorem run_of_bareAhead (h : bareAhead after) : s.run u after = s.run u [] := by
  induction u generalizing s with
  | nil => rfl
  | cons c u ih => rw [run, run, next_append h, ih, List.append_nil]

theorem codeAll_of_bareAhead (h : bareAhead after) :
    s.CodeAll P u after ↔ s.CodeAll P u [] := by
  induction u generalizing s with
  | nil => exact Iff.rfl
  | cons c u ih =>
      simp only [CodeAll, isCode, next_append h, opens?_append h, ih, List.append_nil]

/-- Outside of literals, what is left of a unit is the end of a closing delimiter. -/
def Ends (s : Scan) (cs : List Char) : Prop :=
  s.quote = none → ∃ q : Quote, List.replicate s.rest q.char <+: cs

theorem Ends.next (h : s.Ends (c :: cs)) : (s.next c cs).Ends cs := by
  have hstep := s.step_next c cs
  generalize s.next c cs = t at hstep
  intro hnone
  cases hstep with
  | within hrest =>
      obtain ⟨q, hq⟩ := h hnone
      refine ⟨q, ?_⟩
      rw [← Nat.sub_add_cancel hrest, List.replicate_succ] at hq
      exact (List.cons_prefix_cons.mp hq).2
  | opens q => cases hnone
  | code hrest =>
      -- a character of code is a unit by itself
      have hcode : (s.code c).rest = s.rest := by
        unfold code bracket
        split <;> rfl
      rw [hcode, hrest]
      exact ⟨.double, List.nil_prefix⟩
  | escapes q hquote =>
      rw [show ({ s with rest := 1 } : Scan).quote = s.quote from rfl, hquote] at hnone
      cases hnone
  | closes q _ hcloses =>
      have hdelimiter : q.delimiter = q.char :: List.replicate (q.delimiter.length - 1) q.char := by
        cases q <;> rfl
      rw [hdelimiter] at hcloses
      exact ⟨q, (List.cons_prefix_cons.mp hcloses).2⟩
  | inside q hquote =>
      rw [hquote] at hnone
      cases hnone

theorem Ends.run (h : s.Ends (u ++ after)) : (s.run u after).Ends after := by
  induction u generalizing s with
  | nil => exact h
  | cons c u ih => exact ih h.next

/-- Outside of literals and before no quote, the reader stands between two units. -/
theorem Ends.atCode (h : s.Ends after) (hquote : s.quote = none) (hafter : bareAhead after) :
    s.atCode := by
  obtain ⟨q, hq⟩ := h hquote
  have hzero : s.rest = 0 := by
    cases hrest : s.rest with
    | zero => rfl
    | succ n =>
        rw [hrest, List.replicate_succ] at hq
        cases after with
        | nil => exact absurd hq (by simp)
        | cons a after =>
            have ha : isQuote a = false := (Bool.not_eq_true' _).mp hafter
            rw [← (List.cons_prefix_cons.mp hq).1, isQuote_char] at ha
            cases ha
  rw [Scan.atCode, hquote, hzero]
  rfl

/-- The same state with another character read last. -/
def withPrevious (s : Scan) (p : Option Char) : Scan := { s with previous := p }

/-- Reading a character of code forgets the one before it. -/
theorem code_withPrevious (s : Scan) (p : Option Char) (c : Char) :
    (s.withPrevious p).code c = s.code c := by
  unfold code bracket
  split <;> rfl

theorem endLine_withPrevious (hs : s.atCode) (p : Option Char) :
    (s.withPrevious p).endLine = s.withPrevious none := by
  simp only [atCode, Bool.and_eq_true, Option.isNone_iff_eq_none, beq_iff_eq] at hs
  simp only [endLine, withPrevious, hs.1, hs.2, Option.filter_none]

/-- Outside of literals, only a round bracket can be open. -/
theorem isOpen_withPrevious (hs : s.atCode) (p : Option Char) :
    (s.withPrevious p).isOpen = decide (0 < s.parens) := by
  simp only [atCode, Bool.and_eq_true, Option.isNone_iff_eq_none] at hs
  simp only [isOpen, inTriple, withPrevious, hs.1, Option.any_none, Bool.false_or]

theorem parens_le_code (hc : c ≠ ')') : s.parens ≤ (s.code c).parens := by
  unfold code bracket
  split
  case h_1 => exact Nat.le_succ _
  case h_2 => exact absurd rfl hc
  all_goals exact Nat.le_refl _

/-- Only a closing bracket lowers the number of open round brackets. -/
theorem parens_le_next (hc : c ≠ ')') : s.parens ≤ (s.next c cs).parens := by
  have hstep := s.step_next c cs
  generalize s.next c cs = t at hstep
  cases hstep with
  | code => exact parens_le_code hc
  | within | opens | escapes | closes | inside => exact Nat.le_refl _

end Scan

/-! ## The second line -/

section Code

variable {s : Scan} {c : Char} {cs : List Char} {column column' : Nat} {opener opener' : Option Nat}

/-- Where a line is read from tells only where delimiters open. -/
theorem readCode_place (s : Scan) (cs : List Char) (column column' : Nat)
    (opener opener' : Option Nat) :
    (readCode s column opener cs).code = (readCode s column' opener' cs).code ∧
      (readCode s column opener cs).state = (readCode s column' opener' cs).state := by
  induction cs generalizing s column column' opener opener' with
  | nil => exact ⟨rfl, rfl⟩
  | cons c cs ih =>
      rw [readCode, readCode]
      split
      · exact ⟨rfl, rfl⟩
      · obtain ⟨hcode, hstate⟩ := ih (s.next c cs) (column + 1) (column' + 1)
          (if s.opensLine c cs then some column else opener)
          (if s.opensLine c cs then some column' else opener')
        exact ⟨congrArg (c :: ·) hcode, hstate⟩

/-- A text that begins with no quote is read alike whatever was read before it. -/
theorem readCode_withPrevious (hs : s.atCode) (hc : Scan.isQuote c = false) (p : Option Char) :
    (readCode (s.withPrevious p) column opener (c :: cs)).code =
        (readCode s column' opener' (c :: cs)).code ∧
      (readCode (s.withPrevious p) column opener (c :: cs)).state.isOpen =
        (readCode s column' opener' (c :: cs)).state.isOpen := by
  have hs' : (s.withPrevious p).atCode := hs
  rw [readCode, readCode, hs, hs', Scan.next_of_atCode hs hc, Scan.next_of_atCode hs' hc,
    Scan.code_withPrevious]
  split
  · exact ⟨rfl, rfl⟩
  · obtain ⟨hcode, hstate⟩ := readCode_place (s.code c) cs (column + 1) (column' + 1)
      (if (s.withPrevious p).opensLine c cs then some column else opener)
      (if s.opensLine c cs then some column' else opener')
    exact ⟨congrArg (c :: ·) hcode, congrArg Scan.isOpen hstate⟩

/-- Code begins as its line does. -/
theorem head?_code_readCode (s : Scan) (cs : List Char) (column : Nat) (opener : Option Nat) :
    (readCode s column opener cs).code = [] ∨
      (readCode s column opener cs).code.head? = cs.head? := by
  cases cs with
  | nil => exact .inl rfl
  | cons c cs =>
      rw [readCode]
      split
      · exact .inl rfl
      · exact .inr rfl

/-- Code without closing brackets closes none. -/
theorem parens_le_readCode (h : ')' ∉ (readCode s column opener cs).code) :
    s.parens ≤ (readCode s column opener cs).state.parens := by
  induction cs generalizing s column opener with
  | nil => exact Nat.le_refl _
  | cons c cs ih =>
      rw [readCode] at h ⊢
      split
      · exact Nat.le_refl _
      · next hhash =>
        rw [if_neg hhash] at h
        obtain ⟨hc, hcs⟩ := not_or.mp (mt List.mem_cons.mpr h)
        exact Nat.le_trans (Scan.parens_le_next (Ne.symm hc)) (ih hcs)

end Code

/-! ## The end of the document -/

namespace Joiner

variable {j : Joiner} {line : SourceLine} {done : List LogicalLine} {c : Char} {text : List Char}

/-- A text that the document ends with: a backslash at its end asks for nothing any more. -/
def closing (text : List Char) : List Char := (beforeBackslash? text).getD text

/-- A last line that leaves no delimiter open completes what waits for it. -/
theorem assemble_last (h : (readCode j.scan 0 none line.text.toList).state.isOpen = false) :
    j.assemble [line] =
      .ok (emit (closing (j.extend line (readCode j.scan 0 none line.text.toList).code).1)
        (j.extend line (readCode j.scan 0 none line.text.toList).code).2.1) := by
  unfold assemble feed closing
  simp only [h, Bool.false_eq_true, if_false]
  split
  · next body hbody =>
    rw [hbody]
    rfl
  · next hnone =>
    rw [hnone]
    exact congrArg Except.ok (List.append_nil _)

/-- Lines with an open delimiter at their end are not assembled. -/
theorem isOpen_of_assemble_last (h : j.assemble [line] = .ok done) :
    (readCode j.scan 0 none line.text.toList).state.isOpen = false := by
  rw [Bool.eq_false_iff]
  intro hopen
  unfold assemble feed at h
  simp only [hopen, if_true] at h
  unfold assemble finish at h
  simp only at h
  split at h
  · split at h <;> cases h
  · cases h

theorem emit_eq_singleton_iff {origin : SourceLine} {l : LogicalLine} :
    emit text origin = [l] ↔ trimEnd text ≠ [] ∧ l = ⟨String.ofList (trimEnd text), origin⟩ := by
  unfold emit
  cases trimEnd text with
  | nil => simp
  | cons c cs => simp [eq_comm]

/-- A character that is neither blank nor a backslash keeps what is before it. -/
theorem closing_append_cons (hblank : isBlank c = false) (hc : c ≠ '\\') (u v : List Char) :
    closing (u ++ c :: v) = u ++ c :: closing v := by
  unfold closing
  cases hv : beforeBackslash? v with
  | some body =>
      have htrim := beforeBackslash?_eq_some_iff.mp hv
      have hbody : beforeBackslash? (u ++ c :: v) = some (u ++ c :: body) := by
        rw [beforeBackslash?_eq_some_iff, trimEnd_append_cons hblank, htrim, List.append_assoc,
          List.cons_append]
      rw [hbody]
      rfl
  | none =>
      have hnone : beforeBackslash? (u ++ c :: v) = none := by
        rw [Option.eq_none_iff_forall_ne_some]
        intro body hbody
        rw [beforeBackslash?_eq_some_iff, trimEnd_append_cons hblank] at hbody
        -- the backslash would be the last character of `v`, or `c` itself
        rcases List.eq_nil_or_concat' (trimEnd v) with htrim | ⟨front, d, htrim⟩
        · rw [htrim] at hbody
          exact hc (List.cons.inj (List.append_inj' hbody rfl).2).1
        · rw [htrim, ← List.cons_append, ← List.append_assoc] at hbody
          obtain rfl := (List.cons.inj (List.append_inj' hbody rfl).2).1
          rw [beforeBackslash?_eq_some_iff.mpr htrim] at hv
          cases hv
      rw [hnone]
      rfl

end Joiner

/-! ## Breaking a line -/

/-- A line of the two parts may be broken between them: the first part ends outside of literals and
comments, and the second begins neither with a blank nor with a quote. -/
structure IsBreak (x y : List Char) : Prop where
  noComment : Scan.start.CodeAll (· ≠ '#') x y
  noLiteral : (Scan.start.run x y).quote = none
  head : ∃ c rest, y = c :: rest ∧ isBlank c = false ∧ Scan.isQuote c = false

namespace IsBreak

variable {x y : List Char} {line first second : SourceLine} {l : LogicalLine}

theorem bareAhead (h : IsBreak x y) : Scan.bareAhead y := by
  obtain ⟨c, rest, rfl, -, hc⟩ := h.head
  exact (Bool.not_eq_true' _).mpr hc

theorem atCode (h : IsBreak x y) : (Scan.start.run x y).atCode := by
  have hstart : Scan.start.Ends (x ++ y) := fun _ => ⟨.double, List.nil_prefix⟩
  exact hstart.run.atCode h.noLiteral h.bareAhead

/-- The first line is read to its backslash, the reader being then where it is on the whole line. -/
theorem readCode_first (h : IsBreak x y) : ∃ opener,
    readCode Scan.start 0 none (x ++ ['\\']) =
      ⟨x ++ ['\\'], (Scan.start.run x y).withPrevious (some '\\'), opener⟩ := by
  have hahead : Scan.bareAhead ['\\'] := rfl
  have hrun : Scan.start.run x ['\\'] = Scan.start.run x y := by
    rw [Scan.run_of_bareAhead hahead, Scan.run_of_bareAhead h.bareAhead]
  have hcode : Scan.start.CodeAll (· ≠ '#') x ['\\'] := by
    rw [Scan.codeAll_of_bareAhead hahead, ← Scan.codeAll_of_bareAhead h.bareAhead]
    exact h.noComment
  have hread : ∃ opener, readCode Scan.start 0 none (x ++ ['\\']) = _ := Scan.readCode_append hcode
  obtain ⟨opener, hread⟩ := hread
  refine ⟨opener, ?_⟩
  have hnext : (Scan.start.run x y).next '\\' [] =
      (Scan.start.run x y).withPrevious (some '\\') := Scan.next_of_atCode h.atCode rfl
  have hhash : ((Scan.start.run x y).atCode && '\\' == '#') = false := Bool.and_false _
  have hopens : (Scan.start.run x y).opensLine '\\' [] = false := by
    unfold Scan.opensLine
    rw [Scan.opens?_eq_none rfl]
    exact Bool.and_false _
  rw [hread, hrun, readCode, hhash, hopens, hnext]
  rfl

/-- The reader as the second line finds it. -/
def carried (x y : List Char) : Scan := (Scan.start.run x y).withPrevious none

/-- Where no round bracket is open, the backslash asks for the second line. -/
theorem feed_first_joined (h : IsBreak x y) (hfirst : first.text.toList = x ++ ['\\'])
    (hparens : (Scan.start.run x y).parens = 0) :
    Joiner.start.feed first = (⟨carried x y, .joined x first⟩, []) := by
  obtain ⟨opener, hread⟩ := h.readCode_first
  have hbody : Joiner.beforeBackslash? (x ++ ['\\']) = some x :=
    Joiner.beforeBackslash?_eq_some_iff.mpr (trimEnd_append_singleton rfl)
  unfold Joiner.feed
  simp only [hfirst, Joiner.start, hread, Scan.isOpen_withPrevious h.atCode,
    Scan.endLine_withPrevious h.atCode, hparens, Joiner.extend, hbody]
  rfl

/-- Where one is open, the bracket asks for it, and the backslash is part of the text. -/
theorem feed_first_unclosed (h : IsBreak x y) (hfirst : first.text.toList = x ++ ['\\'])
    (hparens : 0 < (Scan.start.run x y).parens) : ∃ opener,
    Joiner.start.feed first = (⟨carried x y, .unclosed (x ++ ['\\']) first opener⟩, []) := by
  obtain ⟨opener, hread⟩ := h.readCode_first
  unfold Joiner.feed
  simp only [hfirst, Joiner.start, hread, Scan.isOpen_withPrevious h.atCode,
    Scan.endLine_withPrevious h.atCode, decide_eq_true hparens, Joiner.extend, if_true]
  exact ⟨_, rfl⟩

/-- The code of the second line, as the whole line has it after the first part. -/
def codeAfter (x y : List Char) : List Char := (readCode (carried x y) 0 none y).code

/-- The code of the whole line is the first part and the code of the second line, which leaves open
what the whole line leaves open. -/
theorem readCode_whole (h : IsBreak x y) :
    (readCode Scan.start 0 none (x ++ y)).code = x ++ codeAfter x y ∧
      (readCode (carried x y) 0 none y).state.isOpen =
        (readCode Scan.start 0 none (x ++ y)).state.isOpen := by
  have hread : ∃ opener, readCode Scan.start 0 none (x ++ y) = _ :=
    Scan.readCode_append h.noComment
  obtain ⟨opener, hread⟩ := hread
  have hplace : (readCode (carried x y) 0 none y).code =
        (readCode (Scan.start.run x y) (0 + x.length) opener y).code ∧
      (readCode (carried x y) 0 none y).state.isOpen =
        (readCode (Scan.start.run x y) (0 + x.length) opener y).state.isOpen := by
    have hcode := h.atCode
    obtain ⟨c, rest, rfl, -, hc⟩ := h.head
    exact readCode_withPrevious hcode hc none
  rw [hread]
  exact ⟨congrArg (x ++ ·) hplace.1.symm, hplace.2⟩

/-- The code of the second line begins with no blank. -/
theorem trimStart_codeAfter (h : IsBreak x y) : trimStart (codeAfter x y) = codeAfter x y := by
  obtain ⟨c, rest, rfl, hblank, -⟩ := h.head
  unfold codeAfter
  rcases head?_code_readCode (carried x (c :: rest)) (c :: rest) 0 none with hnil | hhead
  · rw [hnil]
    rfl
  · obtain ⟨code, hcode⟩ := List.head?_eq_some_iff.mp hhead
    rw [hcode, trimStart_cons hblank]

/-- What the whole line is assembled to. -/
theorem assemble_whole (h : IsBreak x y) (hline : line.text.toList = x ++ y)
    (hwhole : assemble [line] = .ok [l]) :
    (readCode (carried x y) 0 none y).state.isOpen = false ∧
      Joiner.emit (Joiner.closing (x ++ codeAfter x y)) line = [l] := by
  obtain ⟨hcode, hopen⟩ := h.readCode_whole
  have hclosed := Joiner.isOpen_of_assemble_last hwhole
  have hlast : assemble [line] = _ := Joiner.assemble_last hclosed
  rw [hwhole, Joiner.start] at hlast
  simp only [Joiner.extend, hline, hcode] at hlast
  rw [Joiner.start, hline, ← hopen] at hclosed
  exact ⟨hclosed, (Except.ok.inj hlast).symm⟩

end IsBreak

variable {x y : List Char} {line first second : SourceLine} {l : LogicalLine}

/-- A line is broken by a backslash without a change to its text if no round bracket is open at the
break. -/
theorem assemble_joined (hcut : IsBreak x y) (hline : line.text.toList = x ++ y)
    (hfirst : first.text.toList = x ++ ['\\']) (hsecond : second.text.toList = y)
    (hwhole : assemble [line] = .ok [l]) (hparens : (Scan.start.run x y).parens = 0) :
    assemble [first, second] = .ok [⟨l.text, first⟩] := by
  obtain ⟨hclosed, hemit⟩ := hcut.assemble_whole hline hwhole
  obtain ⟨hsolid, rfl⟩ := Joiner.emit_eq_singleton_iff.mp hemit
  have hfeed := hcut.feed_first_joined hfirst hparens
  have hlast : Joiner.assemble ⟨IsBreak.carried x y, .joined x first⟩ [second] = .ok (Joiner.emit
      (Joiner.closing (x ++ trimStart (IsBreak.codeAfter x y))) first) := by
    subst hsecond
    exact Joiner.assemble_last hclosed
  rw [hcut.trimStart_codeAfter, Joiner.emit_eq_singleton_iff.mpr ⟨hsolid, rfl⟩] at hlast
  exact (Joiner.assemble_of_feed hfeed [second]).trans hlast

/-- If one is open, the backslash and a line break are put into the text at the break. -/
theorem assemble_unclosed (hcut : IsBreak x y) (hline : line.text.toList = x ++ y)
    (hfirst : first.text.toList = x ++ ['\\']) (hsecond : second.text.toList = y)
    (hwhole : assemble [line] = .ok [l]) (hparens : 0 < (Scan.start.run x y).parens) :
    ∃ rest, l.text.toList = x ++ rest ∧
      assemble [first, second] = .ok [⟨String.ofList (x ++ '\\' :: '\n' :: rest), first⟩] := by
  obtain ⟨hclosed, hemit⟩ := hcut.assemble_whole hline hwhole
  obtain ⟨opener, hfeed⟩ := hcut.feed_first_unclosed hfirst hparens
  -- the whole line closes the bracket, so the code after the break has a closing bracket
  have hmem : ')' ∈ IsBreak.codeAfter x y := by
    by_contra hnone
    have hle : (IsBreak.carried x y).parens ≤ _ := parens_le_readCode hnone
    have hzero := (Bool.or_eq_false_iff.mp hclosed).2
    exact of_decide_eq_false hzero (Nat.lt_of_lt_of_le hparens hle)
  obtain ⟨u, v, huv⟩ := List.append_of_mem hmem
  have hkeep : ∀ before, trimEnd (Joiner.closing (before ++ IsBreak.codeAfter x y)) =
      before ++ (u ++ ')' :: trimEnd (Joiner.closing v)) := by
    intro before
    rw [huv, ← List.append_assoc, Joiner.closing_append_cons rfl (by decide),
      trimEnd_append_cons rfl, List.append_assoc]
  obtain ⟨-, rfl⟩ := Joiner.emit_eq_singleton_iff.mp hemit
  refine ⟨u ++ ')' :: trimEnd (Joiner.closing v), ?_, ?_⟩
  · rw [String.toList_ofList, hkeep]
  · have hlast : Joiner.assemble
        ⟨IsBreak.carried x y, .unclosed (x ++ ['\\']) first opener⟩ [second] = .ok (Joiner.emit
          (Joiner.closing (x ++ ['\\'] ++ '\n' :: IsBreak.codeAfter x y)) first) := by
      subst hsecond
      exact Joiner.assemble_last hclosed
    have htext : trimEnd (Joiner.closing (x ++ ['\\'] ++ '\n' :: IsBreak.codeAfter x y)) =
        x ++ '\\' :: '\n' :: (u ++ ')' :: trimEnd (Joiner.closing v)) := by
      have hkept := hkeep (x ++ ['\\', '\n'])
      simpa using hkept
    rw [Joiner.emit_eq_singleton_iff.mpr ⟨by rw [htext]; simp, rfl⟩, htext] at hlast
    exact (Joiner.assemble_of_feed hfeed [second]).trans hlast

/-- A line broken by a backslash is assembled to one line whose text is that of the whole line if
and only if no round bracket is open at the break. If one is, the text has the backslash and a line
break there. -/
theorem assemble_backslash (hcut : IsBreak x y) (hline : line.text.toList = x ++ y)
    (hfirst : first.text.toList = x ++ ['\\']) (hsecond : second.text.toList = y)
    (hwhole : assemble [line] = .ok [l]) :
    ∃ l', assemble [first, second] = .ok [l'] ∧ l'.origin = first ∧
      (l'.text = l.text ↔ (Scan.start.run x y).parens = 0) ∧
      (0 < (Scan.start.run x y).parens → ∃ rest, l.text.toList = x ++ rest ∧
        l'.text.toList = x ++ '\\' :: '\n' :: rest) := by
  rcases Nat.eq_zero_or_pos (Scan.start.run x y).parens with hzero | hopen
  · have hjoined := assemble_joined hcut hline hfirst hsecond hwhole hzero
    refine ⟨_, hjoined, rfl, ⟨fun _ => hzero, fun _ => rfl⟩, fun hopen => ?_⟩
    exact absurd hzero (Nat.ne_of_gt hopen)
  · obtain ⟨rest, hrest, hunclosed⟩ := assemble_unclosed hcut hline hfirst hsecond hwhole hopen
    refine ⟨_, hunclosed, rfl, ⟨fun htext => ?_, fun hzero => ?_⟩, fun _ => ⟨rest, hrest, ?_⟩⟩
    · -- the broken line is longer by the backslash and the line break
      have hchars : x ++ '\\' :: '\n' :: rest = x ++ rest := by
        rw [← hrest, ← htext, String.toList_ofList]
      have hlength := congrArg List.length hchars
      simp only [List.length_append, List.length_cons] at hlength
      omega
    · exact absurd hzero (Nat.ne_of_gt hopen)
    · exact String.toList_ofList

theorem assemble_backslash_comment :
    let line : SourceLine := ⟨"- f(a), b # c", none, 1⟩
    let first : SourceLine := ⟨"- f(a), \\", none, 1⟩
    let second : SourceLine := ⟨"b # c", none, 2⟩
    IsBreak "- f(a), ".toList "b # c".toList ∧ assemble [line] = .ok [⟨"- f(a), b", line⟩] ∧
      ∃ l', assemble [first, second] = .ok [l'] ∧ l'.text = "- f(a), b" := by
  have hcut : IsBreak "- f(a), ".toList "b # c".toList :=
    ⟨Scan.codeAll_of_forall (by simp), rfl, 'b', _, rfl, rfl, rfl⟩
  have hwhole : assemble [⟨"- f(a), b # c", none, 1⟩] =
      .ok [⟨"- f(a), b", ⟨"- f(a), b # c", none, 1⟩⟩] := rfl
  have hfirst : (SourceLine.mk "- f(a), \\" none 1).text.toList = "- f(a), ".toList ++ ['\\'] := rfl
  have hsecond : (SourceLine.mk "b # c" none 2).text.toList = "b # c".toList := rfl
  obtain ⟨l', hl', -, htext, -⟩ := assemble_backslash hcut rfl hfirst hsecond hwhole
  exact ⟨hcut, hwhole, l', hl', htext.mpr rfl⟩

/-- Inside of a round bracket the text is not that of the whole line. -/
theorem not_assemble_backslash_round :
    let line : SourceLine := ⟨"- f(a,b)", none, 1⟩
    let first : SourceLine := ⟨"- f(a,\\", none, 1⟩
    let second : SourceLine := ⟨"b)", none, 2⟩
    IsBreak "- f(a,".toList "b)".toList ∧ assemble [line] = .ok [⟨"- f(a,b)", line⟩] ∧
      assemble [first, second] = .ok [⟨"- f(a,\\\nb)", first⟩] ∧
      ¬∃ l', assemble [first, second] = .ok [l'] ∧ l'.text = "- f(a,b)" := by
  have hcut : IsBreak "- f(a,".toList "b)".toList :=
    ⟨Scan.codeAll_of_forall (by simp), rfl, 'b', _, rfl, rfl, rfl⟩
  have hbroken : assemble [⟨"- f(a,\\", none, 1⟩, ⟨"b)", none, 2⟩] =
      .ok [⟨"- f(a,\\\nb)", ⟨"- f(a,\\", none, 1⟩⟩] := rfl
  refine ⟨hcut, rfl, hbroken, ?_⟩
  rintro ⟨l', hl', htext⟩
  rw [hbroken] at hl'
  cases hl'
  exact absurd htext (by decide)

end RowConfig
