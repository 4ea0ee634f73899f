import Mathlib.Data.List.Induction
import RowConfig.Proofs.Assembly
import RowConfig.Proofs.Assembly.Backslash

/-!
# Delimiters that are not closed

Assembly fails where a delimiter is open at the end of the document, and the joiner then names the
opening delimiter that it noted. It notes one when a line is left open that nothing waits for: the
last one on the line that opens outside of round brackets (`Opening.Reported`). That delimiter stays
open until the end of its line, and it is not looked at again. The fault points at a delimiter that
is open at the end of the document if the noted one is and no literal is open inside of it, neither
at the end of its line nor at the end of the document (`exists_reported_of_assemble`).
-/

namespace RowConfig

/-- What opens: a literal or a round bracket. -/
inductive Delimiter where
  | literal (q : Quote)
  | bracket
deriving DecidableEq, Repr

namespace Delimiter

def text : Delimiter → List Char
  | literal q => q.delimiter
  | bracket => ['(']

/-- It stays open at the end of a line. -/
def spansLines : Delimiter → Bool
  | literal q => q.isTriple
  | bracket => true

/-- In this state a delimiter is open that opened with `depth` round brackets open before it. -/
def IsOpen (depth : Nat) (s : Scan) : Delimiter → Prop
  | literal q => s.quote = some q
  | bracket => depth < s.parens

end Delimiter

namespace Scan

variable {s : Scan} {P Q : Scan → Prop} {c : Char} {cs front : List Char} {lines : List SourceLine}
  {column depth k : Nat} {opener : Option Nat} {d : Delimiter}

/-- The delimiter that opens at `c`, which `cs` follows. -/
def begins? (s : Scan) (c : Char) (cs : List Char) : Option Delimiter :=
  if s.atCode then
    match s.opens? c cs with
    | some q => some (.literal q)
    | none => if c = '(' then some .bracket else none
  else none

/-- The delimiter that a fault names in this state. -/
def named (s : Scan) : Delimiter :=
  match s.quote with
  | some q => if q.isTriple then .literal q else .bracket
  | none => .bracket

/-- The state after a line. -/
def afterLine (s : Scan) (line : SourceLine) : Scan :=
  (readCode s 0 none line.text.toList).state.endLine

/-- The state after some lines. -/
def afterLines (s : Scan) (lines : List SourceLine) : Scan := lines.foldl afterLine s

/-- All states that the code of a line leads through have the property. -/
def Throughout (P : Scan → Prop) (s : Scan) : List Char → Prop
  | [] => P s
  | c :: cs => P s ∧ ((s.atCode && c == '#') = false → Throughout P (s.next c cs) cs)

/-- All states that the code of some lines leads through have the property. -/
def ThroughoutLines (P : Scan → Prop) (s : Scan) : List SourceLine → Prop
  | [] => P s
  | line :: lines => s.Throughout P line.text.toList ∧ (s.afterLine line).ThroughoutLines P lines

/-- No delimiter that the joiner would note opens in the code of a line. -/
def Quiet (s : Scan) : List Char → Prop
  | [] => True
  | c :: cs => (s.atCode && c == '#') = false → s.opensLine c cs = false ∧ Quiet (s.next c cs) cs

theorem afterLines_append (s : Scan) (a b : List SourceLine) :
    s.afterLines (a ++ b) = (s.afterLines a).afterLines b := List.foldl_append

/-- The joiner notes delimiters that may stay open and that open outside of round brackets. -/
theorem opensLine_iff : s.opensLine c cs ↔
    ∃ d, s.begins? c cs = some d ∧ d.spansLines ∧ s.parens = 0 := by
  unfold opensLine begins?
  cases s.atCode with
  | false => simp
  | true =>
      cases s.opens? c cs with
      | some q => simp [Delimiter.spansLines, and_comm]
      | none => simp [Delimiter.spansLines, and_comm]

theorem Throughout.imp (hPQ : ∀ s, P s → Q s) (h : s.Throughout P cs) : s.Throughout Q cs := by
  induction cs generalizing s with
  | nil => exact hPQ s h
  | cons c cs ih => exact ⟨hPQ s h.1, fun hcode => ih (h.2 hcode)⟩

theorem Throughout.head (h : s.Throughout P cs) : P s := by
  cases cs with
  | nil => exact h
  | cons c cs => exact h.1

theorem ThroughoutLines.head (h : s.ThroughoutLines P lines) : P s := by
  cases lines with
  | nil => exact h
  | cons line lines => exact h.1.head

/-- What holds throughout a line holds at its end. -/
theorem Throughout.state (h : s.Throughout P cs) : P (readCode s column opener cs).state := by
  induction cs generalizing s column opener with
  | nil => exact h
  | cons c cs ih =>
      rw [readCode]
      split
      · exact h.1
      · next hcode => exact ih (h.2 (Bool.eq_false_iff.mpr hcode))

theorem ThroughoutLines.afterLines (h : s.ThroughoutLines P lines) : P (s.afterLines lines) := by
  induction lines generalizing s with
  | nil => exact h
  | cons line lines ih => exact ih h.2

/-! ## Reading a line -/

/-- A comment is no code. -/
theorem ne_hash_of_isCode (hcode : (s.atCode && c == '#') = false) (h : s.isCode c cs) : c ≠ '#' := by
  rintro rfl
  rw [(Bool.and_eq_true_iff.mp h).1] at hcode
  cases hcode

/-- The delimiter noted on a line is the last one that opens there outside of round brackets. -/
theorem opener_readCode_cases (s : Scan) (column : Nat) (opener : Option Nat) (cs : List Char) :
    ((readCode s column opener cs).opener = opener ∧ s.Quiet cs) ∨
      ∃ front c back, cs = front ++ c :: back ∧
        (readCode s column opener cs).opener = some (column + front.length) ∧
        s.CodeAll (· ≠ '#') front (c :: back) ∧ (s.run front (c :: back)).opensLine c back ∧
        ((s.run front (c :: back)).next c back).Quiet back ∧
        ∃ column' opener', (readCode s column opener cs).state =
          (readCode ((s.run front (c :: back)).next c back) column' opener' back).state := by
  induction cs generalizing s column opener with
  | nil => exact .inl ⟨rfl, trivial⟩
  | cons c cs ih =>
      rw [readCode]
      split
      · next hhash =>
        refine .inl ⟨rfl, fun hcode => ?_⟩
        rw [hhash] at hcode
        cases hcode
      · next hhash =>
        have hcode := Bool.eq_false_iff.mpr hhash
        rcases ih (s.next c cs) (column + 1) (if s.opensLine c cs then some column else opener) with
          ⟨hopener, hquiet⟩ | ⟨front, d, back, rfl, hopener, hfront, hrest⟩
        · cases hopens : s.opensLine c cs with
          | false =>
              rw [hopens] at hopener
              exact .inl ⟨hopener, fun _ => ⟨hopens, hquiet⟩⟩
          | true =>
              rw [hopens] at hopener
              exact .inr ⟨[], c, cs, rfl, hopener, trivial, hopens, hquiet, _, _, rfl⟩
        · refine .inr ⟨c :: front, d, back, rfl, ?_, ⟨ne_hash_of_isCode hcode, hfront⟩, hrest⟩
          rw [List.length_cons, Nat.add_comm front.length 1, ← Nat.add_assoc]
          exact hopener

/-! ## What stays open -/

/-- The reader is at a character of code or leaves the brackets and the open literal as they are,
but for a literal that it closes. -/
theorem next_cases (s : Scan) (c : Char) (cs : List Char) :
    (s.atCode ∧ ∃ q, s.opens? c cs = some q ∧ s.next c cs = s.opened q) ∨
    (s.atCode ∧ s.opens? c cs = none ∧ s.next c cs = s.code c) ∨
    (s.next c cs).parens = s.parens ∧
      ((s.next c cs).quote = s.quote ∨ (s.next c cs).quote = none) := by
  by_cases hrest : 0 < s.rest
  · refine .inr (.inr ?_)
    rw [next, if_pos hrest]
    exact ⟨rfl, .inl rfl⟩
  have hstep := s.step_next c cs
  have hzero : s.rest = 0 := Nat.eq_zero_of_not_pos hrest
  have hatCode : s.quote = none → s.atCode := by
    intro hquote
    rw [atCode, hquote, hzero]
    rfl
  generalize s.next c cs = t at hstep
  cases hstep with
  | opens q hquote hopens => exact .inl ⟨hatCode hquote, q, hopens, rfl⟩
  | code _ hquote hopens => exact .inr (.inl ⟨hatCode hquote, hopens, rfl⟩)
  | within | escapes | inside => exact .inr (.inr ⟨rfl, .inl rfl⟩)
  | closes => exact .inr (.inr ⟨rfl, .inr rfl⟩)

/-- With no literal over lines and no round bracket open, one of them must open first. -/
theorem isOpen_next_eq_false (hs : s.isOpen = false) (hopens : s.opensLine c cs = false) :
    (s.next c cs).isOpen = false := by
  obtain ⟨htriple, hparens⟩ := Bool.or_eq_false_iff.mp hs
  have hparens : s.parens = 0 := Nat.eq_zero_of_not_pos (of_decide_eq_false hparens)
  rcases s.next_cases c cs with ⟨hcode, q, hq, hnext⟩ | ⟨hcode, hnone, hnext⟩ | ⟨hsame, hquote⟩
  · rw [opensLine, hcode, hparens, hq] at hopens
    rw [hnext]
    unfold isOpen inTriple opened
    simp_all
  · rw [opensLine, hcode, hparens, hnone] at hopens
    have hc : c ≠ '(' := by simpa using hopens
    rw [hnext]
    unfold isOpen inTriple code bracket
    split <;> simp_all [atCode]
  · unfold isOpen inTriple at *
    rw [hsame]
    rcases hquote with hquote | hquote <;> rw [hquote] <;> simp_all

/-- A line that opens nothing for further lines is not left open. -/
theorem isOpen_readCode_eq_false (hs : s.isOpen = false) (hquiet : s.Quiet cs) :
    (readCode s column opener cs).state.isOpen = false := by
  induction cs generalizing s column opener with
  | nil => exact hs
  | cons c cs ih =>
      rw [readCode]
      split
      · exact hs
      · next hhash =>
        obtain ⟨hopens, hquiet⟩ := hquiet (Bool.eq_false_iff.mpr hhash)
        exact ih (isOpen_next_eq_false hs hopens) hquiet

/-- In this state the delimiter is open and no round bracket is open around it. -/
def Outermost (d : Delimiter) (s : Scan) : Prop :=
  d.IsOpen 0 s ∧ ∀ q, d = .literal q → s.parens = 0

theorem outermost_bracket (h : 0 < s.parens) : s.Outermost .bracket := by
  refine ⟨h, ?_⟩
  rintro q ⟨⟩

theorem outermost_next (hd : s.begins? c cs = some d) (hparens : s.parens = 0) :
    (s.next c cs).Outermost d := by
  unfold begins? at hd
  split at hd
  · next hcode =>
    obtain ⟨hquote, hrest⟩ := Bool.and_eq_true_iff.mp hcode
    have hquote := Option.isNone_iff_eq_none.mp hquote
    have hrest := beq_iff_eq.mp hrest
    split at hd
    · next q hopens =>
      cases hd
      rw [next_opens hquote hrest hopens]
      exact ⟨rfl, fun _ _ => hparens⟩
    · split at hd
      · next hc =>
        cases hd
        rw [hc, next_of_atCode hcode (by decide)]
        exact outermost_bracket (Nat.succ_pos _)
      · cases hd
  · cases hd

/-- Unless another delimiter opens outside of brackets, the outermost one is open or none is. -/
theorem Outermost.next (h : s.Outermost d) (hopens : s.opensLine c cs = false) :
    (s.next c cs).Outermost d ∨ (s.next c cs).isOpen = false := by
  cases d with
  | literal q =>
      obtain ⟨hq, hparens⟩ : s.quote = some q ∧ s.parens = 0 := ⟨h.1, h.2 q rfl⟩
      have hcode : s.atCode = false := by rw [atCode, hq]; rfl
      rcases s.next_cases c cs with ⟨hatCode, -⟩ | ⟨hatCode, -⟩ | ⟨hsame, hquote⟩
      · rw [hcode] at hatCode
        cases hatCode
      · rw [hcode] at hatCode
        cases hatCode
      · rcases hquote with hquote | hquote
        · exact .inl ⟨hquote.trans hq, fun _ _ => hsame.trans hparens⟩
        · refine .inr ?_
          rw [isOpen, inTriple, hquote, hsame, hparens]
          rfl
  | bracket =>
      have hopen : 0 < s.parens := h.1
      rcases s.next_cases c cs with ⟨-, q, -, hnext⟩ | ⟨hcode, -, hnext⟩ | ⟨hsame, -⟩
      · rw [hnext]
        exact .inl (outermost_bracket hopen)
      · by_cases hleft : 0 < (s.next c cs).parens
        · exact .inl (outermost_bracket hleft)
        · -- the bracket closes, and no literal is open where it does
          have hquote : (s.next c cs).quote = none := by
            rw [atCode, Bool.and_eq_true, Option.isNone_iff_eq_none] at hcode
            rw [hnext]
            unfold code bracket
            split <;> exact hcode.1
          refine .inr ?_
          rw [isOpen, inTriple, hquote, decide_eq_false hleft]
          rfl
      · exact .inl (outermost_bracket (Nat.lt_of_lt_of_eq hopen hsame.symm))

/-- The outermost delimiter is open throughout a line at whose end one is open, unless another one
opens outside of brackets. -/
theorem Outermost.throughout (h : s.Outermost d) (hquiet : s.Quiet cs)
    (hend : (readCode s column opener cs).state.isOpen) : s.Throughout (Outermost d) cs := by
  induction cs generalizing s column opener with
  | nil => exact h
  | cons c cs ih =>
      refine ⟨h, fun hcode => ?_⟩
      obtain ⟨hopens, hquiet⟩ := hquiet hcode
      rw [readCode, hcode, if_neg Bool.false_ne_true] at hend
      rcases h.next hopens with hnext | hclosed
      · exact ih hnext hquiet hend
      · rw [isOpen_readCode_eq_false hclosed hquiet] at hend
        cases hend

/-- What a fault names is the delimiter that is open, if no literal is open inside of it. -/
theorem named_of_isOpen (h : d.IsOpen depth s) (hspans : d.spansLines)
    (hinside : d = .bracket → s.inTriple = false) : s.named = d := by
  cases d with
  | literal q =>
      have hquote : s.quote = some q := h
      have htriple : q.isTriple := hspans
      rw [named, hquote]
      exact if_pos htriple
  | bracket =>
      have htriple := hinside rfl
      unfold named
      unfold inTriple at htriple
      split
      · next q hquote =>
        rw [hquote, Option.any_some] at htriple
        rw [htriple, if_neg Bool.false_ne_true]
      · rfl

theorem inTriple_endLine (s : Scan) : s.endLine.inTriple = s.inTriple := by
  unfold inTriple endLine
  cases s.quote with
  | none => rfl
  | some q => cases q <;> rfl

theorem length_text_named (s : Scan) : s.named.text.length = if s.inTriple then 3 else 1 := by
  unfold named inTriple
  cases s.quote with
  | none => rfl
  | some q => cases q <;> rfl

theorem inTriple_of_named (h : s.named = .bracket) : s.inTriple = false := by
  unfold named at h
  unfold inTriple
  split at h
  · next q hquote =>
    rw [hquote, Option.any_some, Bool.eq_false_iff]
    intro htriple
    rw [if_pos htriple] at h
    cases h
  · next hquote => rw [hquote, Option.any_none]

end Scan

/-! ## The delimiters of a document -/

/-- A place in the code of a document where a delimiter opens. -/
@[ext]
structure Opening (lines : List SourceLine) where
  before : List SourceLine
  line : SourceLine
  after : List SourceLine
  front : List Char
  char : Char
  back : List Char
  delimiter : Delimiter
  lines_eq : lines = before ++ line :: after
  text_eq : line.text.toList = front ++ char :: back
  noComment : (Scan.start.afterLines before).CodeAll (· ≠ '#') front (char :: back)
  begins : ((Scan.start.afterLines before).run front (char :: back)).begins? char back =
    some delimiter

namespace Opening

variable {lines : List SourceLine} (o : Opening lines)

/-- The state of the reader before the delimiter. -/
def state : Scan := (Scan.start.afterLines o.before).run o.front (o.char :: o.back)

/-- The state of the reader at the end of the delimiter's line. -/
def lineEnd : Scan := Scan.start.afterLines (o.before ++ [o.line])

/-- The span of `length` characters that begins with the delimiter. -/
def place (length : Nat) : Location := o.line.location (o.front.length + 1) length

/-- The delimiter is open in a state. -/
def IsOpen (s : Scan) : Prop := o.delimiter.IsOpen o.state.parens s

/-- The delimiter stays open until the end of its line. -/
def StaysOpenOnLine : Prop := (o.state.next o.char o.back).Throughout o.IsOpen o.back

/-- The delimiter stays open until the end of the document: no further character of it closes the
delimiter. -/
def StaysOpen : Prop := o.StaysOpenOnLine ∧ o.lineEnd.ThroughoutLines o.IsOpen o.after

/-- The joiner notes this delimiter: it opens outside of round brackets on a line before which
nothing is open, it stays open until the end of this line, and something is open at the end of
every line that follows. -/
structure Reported : Prop where
  spansLines : o.delimiter.spansLines
  outermost : o.state.parens = 0
  closedBefore : (Scan.start.afterLines o.before).isOpen = false
  onLine : o.StaysOpenOnLine
  openAfter : ∀ more, more <+: o.after → (o.lineEnd.afterLines more).isOpen

/-- The place in a document that goes on. -/
def append (more : List SourceLine) : Opening (lines ++ more) :=
  { o with
    after := o.after ++ more
    lines_eq := (congrArg (· ++ more) o.lines_eq).trans (List.append_assoc _ _ _) }

/-- A noted delimiter is kept while a line is left open. -/
theorem Reported.append {o : Opening lines} (h : o.Reported) {line : SourceLine}
    (hopen : (Scan.start.afterLines (lines ++ [line])).isOpen) : (o.append [line]).Reported := by
  refine ⟨h.spansLines, h.outermost, h.closedBefore, h.onLine, fun more hmore => ?_⟩
  rcases List.prefix_concat_iff.mp hmore with rfl | hmore
  · show ((Scan.start.afterLines (o.before ++ [o.line])).afterLines (o.after ++ [line])).isOpen
    rwa [← Scan.afterLines_append, List.append_assoc, ← List.append_assoc [o.line],
      List.singleton_append, ← List.append_assoc, ← o.lines_eq]
  · exact h.openAfter more hmore

end Opening

namespace Fault

/-- What a fault says is open: where, and which delimiter. -/
def unclosed? : Fault → Option (Location × Delimiter)
  | unclosedString l _ q => some (l, .literal q)
  | unclosedList l => some (l, .bracket)
  | _ => none

/-- The fault points at a delimiter that is open at the end of the document, and names it. -/
def PointsAtOpen (lines : List SourceLine) (fault : Fault) : Prop :=
  ∃ o : Opening lines, o.StaysOpen ∧
    fault.unclosed? = some (o.place o.delimiter.text.length, o.delimiter)

end Fault

/-! ## The delimiter that the joiner notes -/

namespace Joiner

variable {lines : List SourceLine} {line origin : SourceLine} {text : List Char} {opener : Location}
  {fault : Fault}

/-- Reading one more line is reading the lines and then feeding it. -/
theorem run_snoc (j : Joiner) (lines : List SourceLine) (line : SourceLine) :
    j.run (lines ++ [line]) = (((j.run lines).1.feed line).1,
      (j.run lines).2 ++ ((j.run lines).1.feed line).2) := by
  induction lines generalizing j with
  | nil => exact congrArg (Prod.mk (j.feed line).1) (List.append_nil _)
  | cons first lines ih =>
      show (((j.feed first).1.run (lines ++ [line])).1,
        (j.feed first).2 ++ ((j.feed first).1.run (lines ++ [line])).2) = _
      rw [ih, ← List.append_assoc]
      rfl

theorem scan_feed (j : Joiner) (line : SourceLine) :
    (j.feed line).1.scan = j.scan.afterLine line := by
  unfold feed Scan.afterLine
  simp only
  split
  · rfl
  · split <;> rfl

theorem scan_run (j : Joiner) (lines : List SourceLine) :
    (j.run lines).1.scan = j.scan.afterLines lines := by
  induction lines generalizing j with
  | nil => rfl
  | cons line lines ih =>
      show ((j.feed line).1.run lines).1.scan = _
      rw [ih, scan_feed]
      rfl

/-- A text waits at an open delimiter behind a line that is left open, and only there. -/
theorem waiting_feed (j : Joiner) (line : SourceLine) :
    (j.scan.afterLine line).isOpen = false ∧
        (∀ text origin opener, (j.feed line).1.waiting ≠ .unclosed text origin opener) ∨
      (readCode j.scan 0 none line.text.toList).state.isOpen ∧
        ∃ text origin, (j.feed line).1.waiting = .unclosed text origin
          ((j.extend line (readCode j.scan 0 none line.text.toList).code).2.2.getD
            (line.location ((readCode j.scan 0 none line.text.toList).opener.getD 0 + 1)
              (if (readCode j.scan 0 none line.text.toList).state.inTriple then 3 else 1))) := by
  unfold feed
  simp only
  split
  · next hopen => exact .inr ⟨hopen, _, _, rfl⟩
  · next hopen =>
    have hclosed : (j.scan.afterLine line).isOpen = false := by
      rw [Scan.afterLine, isOpen_endLine, Bool.eq_false_iff]
      exact hopen
    refine .inl ⟨hclosed, ?_⟩
    split
    · exact fun _ _ _ h => nomatch h
    · exact fun _ _ _ h => nomatch h

/-- Where no text waits at an open delimiter, none is open. -/
theorem isOpen_afterLines_eq_false
    (h : ∀ text origin opener, (start.run lines).1.waiting ≠ .unclosed text origin opener) :
    (Scan.start.afterLines lines).isOpen = false := by
  rcases List.eq_nil_or_concat' lines with rfl | ⟨before, line, rfl⟩
  · rfl
  · rw [run_snoc] at h
    rcases waiting_feed (start.run before).1 line with ⟨hclosed, -⟩ | ⟨-, text, origin, hwaiting⟩
    · rw [scan_run] at hclosed
      rw [Scan.afterLines_append]
      exact hclosed
    · exact absurd hwaiting (h _ _ _)

/-- What waits for nothing or behind a backslash has no opening delimiter. -/
theorem opener_extend (j : Joiner) (line : SourceLine) (code : List Char)
    (h : ∀ text origin opener, j.waiting ≠ .unclosed text origin opener) :
    (j.extend line code).2.2 = none := by
  unfold extend
  cases hwaiting : j.waiting with
  | nothing => rfl
  | joined text origin => rfl
  | unclosed text origin opener => exact absurd hwaiting (h _ _ _)

/-- A line that is left open with nothing open before it opens a delimiter that is noted. -/
theorem exists_reported_of_isOpen
    (hbefore : (Scan.start.afterLines lines).isOpen = false)
    (hopen : (readCode (Scan.start.afterLines lines) 0 none line.text.toList).state.isOpen) :
    ∃ o : Opening (lines ++ [line]), o.Reported ∧
      line.location
          ((readCode (Scan.start.afterLines lines) 0 none line.text.toList).opener.getD 0 + 1)
          (if (readCode (Scan.start.afterLines lines) 0 none line.text.toList).state.inTriple then 3
            else 1) =
        o.place o.lineEnd.named.text.length := by
  rcases Scan.opener_readCode_cases (Scan.start.afterLines lines) 0 none line.text.toList with
    ⟨-, hquiet⟩ | ⟨front, c, back, htext, hopener, hcode, hopens, hquiet, column, opener, hstate⟩
  · rw [Scan.isOpen_readCode_eq_false hbefore hquiet] at hopen
    cases hopen
  · obtain ⟨d, hd, hspans, hparens⟩ := Scan.opensLine_iff.mp hopens
    let o : Opening (lines ++ [line]) := ⟨lines, line, [], front, c, back, d, rfl, htext, hcode, hd⟩
    have hend : o.lineEnd = (Scan.start.afterLines lines).afterLine line :=
      Scan.afterLines_append _ _ _
    have hline : o.StaysOpenOnLine := by
      have hstate' := hopen
      rw [hstate] at hstate'
      have hthroughout := (Scan.outermost_next hd hparens).throughout hquiet hstate'
      refine hthroughout.imp fun s hs => ?_
      show d.IsOpen o.state.parens s
      rw [show o.state.parens = 0 from hparens]
      exact hs.1
    refine ⟨o, ⟨hspans, hparens, hbefore, hline, ?_⟩, ?_⟩
    · intro more hmore
      rw [List.prefix_nil.mp hmore]
      show o.lineEnd.isOpen
      rw [hend]
      exact (isOpen_endLine _).trans hopen
    · rw [hopener, Nat.zero_add, hend, Scan.length_text_named, Scan.afterLine, Scan.inTriple_endLine]
      rfl

/-- The joiner notes a delimiter when it leaves a line open, and keeps it until a line is closed. -/
theorem exists_reported_of_waiting
    (h : (start.run lines).1.waiting = .unclosed text origin opener) :
    ∃ o : Opening lines, o.Reported ∧ opener = o.place o.lineEnd.named.text.length := by
  induction lines using List.reverseRecOn generalizing text origin opener with
  | nil => cases h
  | append_singleton lines line ih =>
      have hscan : (start.run lines).1.scan = Scan.start.afterLines lines := scan_run _ _
      rw [run_snoc] at h
      rcases waiting_feed (start.run lines).1 line with ⟨-, hno⟩ | ⟨hopen, _, _, hfeed⟩
      · exact absurd h (hno _ _ _)
      rw [hfeed] at h
      cases h
      rw [hscan] at hopen ⊢
      by_cases hwaits : ∃ text₀ origin₀ opener₀,
          (start.run lines).1.waiting = .unclosed text₀ origin₀ opener₀
      · -- the line goes on with a text that waits already
        obtain ⟨text₀, origin₀, opener₀, hwaiting⟩ := hwaits
        obtain ⟨o, ho, rfl⟩ := ih hwaiting
        refine ⟨o.append [line], ho.append ?_, ?_⟩
        · rw [Scan.afterLines_append]
          exact (isOpen_endLine _).trans hopen
        · unfold extend
          simp only [hwaiting]
          rfl
      · have hno : ∀ text₀ origin₀ opener₀,
            (start.run lines).1.waiting ≠ .unclosed text₀ origin₀ opener₀ :=
          fun _ _ _ heq => hwaits ⟨_, _, _, heq⟩
        obtain ⟨o, ho, hplace⟩ := exists_reported_of_isOpen (isOpen_afterLines_eq_false hno) hopen
        refine ⟨o, ho, ?_⟩
        rw [opener_extend _ _ _ hno]
        exact hplace

/-- A document that is not assembled ends with a text that waits at an open delimiter. -/
theorem exists_waiting_of_assemble (h : RowConfig.assemble lines = .error fault) :
    ∃ text origin opener, (start.run lines).1.waiting = .unclosed text origin opener ∧
      fault.unclosed? = some (opener, (Scan.start.afterLines lines).named) := by
  have hscan : (start.run lines).1.scan = Scan.start.afterLines lines := scan_run _ _
  have happend := start.assemble_append lines []
  rw [List.append_nil] at happend
  have hfinish : ((start.run lines).1.finish).map ((start.run lines).2 ++ ·) = .error fault :=
    happend.symm.trans h
  unfold finish at hfinish
  split at hfinish
  · cases hfinish
  · cases hfinish
  · next text origin opener hwaiting =>
    refine ⟨text, origin, opener, hwaiting, ?_⟩
    rw [hscan] at hfinish
    unfold Scan.named
    cases hquote : (Scan.start.afterLines lines).quote with
    | none =>
        rw [hquote] at hfinish
        cases hfinish
        rfl
    | some q =>
        rw [hquote] at hfinish
        cases q <;> cases hfinish <;> rfl

end Joiner

/-! ## Where faults of assembly point -/

namespace Opening

variable {lines : List SourceLine} {o o' : Opening lines}

/-- No literal is open inside of the bracket, neither at the end of its line nor at the end of the
document. -/
def HoldsNoLiteral (o : Opening lines) : Prop :=
  o.delimiter = .bracket →
    o.lineEnd.inTriple = false ∧ (Scan.start.afterLines lines).inTriple = false

/-- A delimiter that stays open is open at the end of its line and at the end of the document. -/
theorem StaysOpen.ends (h : o.StaysOpen) :
    o.IsOpen o.lineEnd ∧ o.IsOpen (Scan.start.afterLines lines) := by
  refine ⟨h.2.head, ?_⟩
  have hfinal := h.2.afterLines
  rwa [lineEnd, ← Scan.afterLines_append, List.append_assoc, List.singleton_append,
    ← o.lines_eq] at hfinal

/-- On lines that differ, a delimiter is determined by its place. -/
theorem eq_of_place (hnodup : lines.Nodup) {m n : Nat} (h : o.place m = o'.place n) : o = o' := by
  obtain ⟨before, line, after, front, c, back, d, hlines, htext, hcode, hd⟩ := o
  obtain ⟨before', line', after', front', c', back', d', hlines', htext', hcode', hd'⟩ := o'
  have hline : line = line' := by
    obtain ⟨text, file, number⟩ := line
    obtain ⟨text', file', number'⟩ := line'
    obtain ⟨rfl, rfl, -, -, rfl⟩ := Location.mk.inj h
    rfl
  have hcolumn : front.length = front'.length := Nat.succ.inj (congrArg Location.column h)
  subst hline
  subst hlines
  obtain ⟨hbefore, hafter⟩ : line ∉ before ∧ line ∉ after := by
    have hparts := List.nodup_middle.mp hnodup
    exact not_or.mp (mt List.mem_append.mpr (List.nodup_cons.mp hparts).1)
  obtain ⟨rfl, -, rfl⟩ := (List.append_cons_inj_of_notMem hbefore hafter).mp hlines'
  rw [htext] at htext'
  obtain ⟨rfl, hback⟩ := List.append_inj htext' hcolumn
  cases hback
  rw [hd] at hd'
  cases hd'
  rfl

end Opening

/-- A fault of assembly is at the place of a delimiter that was open at the end of its line. It
points at a delimiter that is open at the end of the document if this one is and no literal is open
inside of it, and on lines that differ only then. -/
theorem exists_reported_of_assemble {lines : List SourceLine} {fault : Fault}
    (h : assemble lines = .error fault) :
    ∃ o : Opening lines, o.Reported ∧
      fault.unclosed? =
        some (o.place o.lineEnd.named.text.length, (Scan.start.afterLines lines).named) ∧
      (o.StaysOpen ∧ o.HoldsNoLiteral → fault.PointsAtOpen lines) ∧
      (lines.Nodup → fault.PointsAtOpen lines → o.StaysOpen ∧ o.HoldsNoLiteral) := by
  obtain ⟨text, origin, opener, hwaiting, hfault⟩ := Joiner.exists_waiting_of_assemble h
  obtain ⟨o, ho, rfl⟩ := Joiner.exists_reported_of_waiting hwaiting
  refine ⟨o, ho, hfault, ?_, ?_⟩
  · rintro ⟨hstays, hinside⟩
    obtain ⟨hline, hfinal⟩ := hstays.ends
    have hnamed := Scan.named_of_isOpen hline ho.spansLines fun hd => (hinside hd).1
    have hnames := Scan.named_of_isOpen hfinal ho.spansLines fun hd => (hinside hd).2
    refine ⟨o, hstays, ?_⟩
    rw [hfault, hnamed, hnames]
  · rintro hnodup ⟨o', hstays, hpoints⟩
    rw [hfault] at hpoints
    obtain ⟨hplace, hnames⟩ := Prod.mk.inj (Option.some.inj hpoints)
    obtain rfl := Opening.eq_of_place hnodup hplace
    refine ⟨hstays, fun hd => ?_⟩
    rw [hd] at hnames hplace
    have hlength : o.lineEnd.named.text.length = Delimiter.bracket.text.length :=
      congrArg Location.length hplace
    rw [Scan.length_text_named] at hlength
    refine ⟨?_, Scan.inTriple_of_named hnames⟩
    rw [Bool.eq_false_iff]
    intro htriple
    rw [if_pos htriple] at hlength
    cases hlength

/-- A row whose list goes on over two lines and is not closed. -/
def openRow : List SourceLine := [⟨"- a, (b,", none, 1⟩, ⟨"c # and so on", none, 2⟩]

theorem exists_reported_of_assemble_openRow :
    assemble openRow = .error (.unclosedList ⟨none, 1, 6, 1, "- a, (b,"⟩) ∧
      ∃ o : Opening openRow, o.Reported ∧
        (Fault.unclosedList ⟨none, 1, 6, 1, "- a, (b,"⟩).unclosed? =
          some (o.place o.lineEnd.named.text.length, (Scan.start.afterLines openRow).named) ∧
        (o.StaysOpen ∧ o.HoldsNoLiteral →
          (Fault.unclosedList ⟨none, 1, 6, 1, "- a, (b,"⟩).PointsAtOpen openRow) ∧
        (openRow.Nodup → (Fault.unclosedList ⟨none, 1, 6, 1, "- a, (b,"⟩).PointsAtOpen openRow →
          o.StaysOpen ∧ o.HoldsNoLiteral) :=
  ⟨rfl, exists_reported_of_assemble rfl⟩

/-- A bracket that the second line closes before it opens another one. -/
def reopened : List SourceLine := [⟨"(", none, 1⟩, ⟨") (", none, 2⟩]

/-- The joiner notes the first bracket, and the second one is left open. -/
theorem not_pointsAtOpen_reopened :
    assemble reopened = .error (.unclosedList ⟨none, 1, 1, 1, "("⟩) ∧
      ¬(Fault.unclosedList ⟨none, 1, 1, 1, "("⟩).PointsAtOpen reopened := by
  refine ⟨rfl, ?_⟩
  rintro ⟨⟨before, line, after, front, c, back, d, hlines, htext, hcode, hd⟩, hstays, hpoints⟩
  obtain ⟨hplace, hdelimiter⟩ := Prod.mk.inj (Option.some.inj hpoints)
  have hdelimiter : Delimiter.bracket = d := hdelimiter
  have hnumber : 1 = line.number := congrArg Location.line hplace
  subst hdelimiter
  cases before with
  | nil =>
      cases hlines
      -- behind the bracket that closes, no more brackets are open than before any other one
      have hsecond : (Scan.start.afterLines [⟨"(", none, 1⟩]).Throughout _ [')', ' ', '('] :=
        hstays.2.1
      have hclosed := (hsecond.2 rfl).head
      exact absurd hclosed (Nat.not_lt_zero _)
  | cons first before =>
      obtain ⟨rfl, hlines⟩ := List.cons.inj hlines
      cases before with
      | nil =>
          cases hlines
          cases hnumber
      | cons second before =>
          obtain ⟨-, hlines⟩ := List.cons.inj hlines
          cases before <;> cases hlines

end RowConfig
