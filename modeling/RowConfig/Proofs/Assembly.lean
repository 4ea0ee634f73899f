import RowConfig.LogicalLine
import RowConfig.Proofs.Pointwise

/-!
# Assembling lines in parts

A document may be read in parts: the joiner goes on from where the lines before left it
(`Joiner.assemble_append`). At the end of a line it keeps its reader and the text that waits, and
where nothing waits all that is left of the reader is its count of square and curly brackets
(`Joiner.AtLineEnd.eq_of_idle`). Assembly never looks at this count (`assemble_withBrackets`), so
lines after which nothing is pending are assembled apart from those that follow
(`assemble_append_of_idle`).
-/

namespace RowConfig

/-! ## Square and curly brackets -/

namespace Scan

/-- The same state with another count of square and curly brackets. -/
def withBrackets (s : Scan) (n : Nat) : Scan := { s with brackets := n }

variable (s : Scan) (n : Nat) (c : Char) (cs : List Char)

@[simp] theorem quote_withBrackets : (s.withBrackets n).quote = s.quote := rfl

@[simp] theorem rest_withBrackets : (s.withBrackets n).rest = s.rest := rfl

@[simp] theorem atCode_withBrackets : (s.withBrackets n).atCode = s.atCode := rfl

@[simp] theorem isOpen_withBrackets : (s.withBrackets n).isOpen = s.isOpen := rfl

@[simp] theorem inTriple_withBrackets : (s.withBrackets n).inTriple = s.inTriple := rfl

@[simp] theorem opensLine_withBrackets :
    (s.withBrackets n).opensLine c cs = s.opensLine c cs := rfl

@[simp] theorem endLine_withBrackets : (s.withBrackets n).endLine = s.endLine.withBrackets n := rfl

/-- Reading a character of code, the one step that counts brackets, changes all else alike. -/
theorem exists_code_withBrackets :
    ∃ m, (s.withBrackets n).code c = (s.code c).withBrackets m := by
  unfold code bracket
  split
  all_goals exact ⟨_, rfl⟩

/-- The count tells the reader nothing about the next character. -/
theorem exists_next_withBrackets :
    ∃ m, (s.withBrackets n).next c cs = (s.next c cs).withBrackets m := by
  have hopens : (s.withBrackets n).opens? c cs = s.opens? c cs := rfl
  unfold next
  simp only [hopens, rest_withBrackets, quote_withBrackets]
  split
  · exact ⟨n, rfl⟩
  split
  · split
    · exact ⟨n, rfl⟩
    · exact s.exists_code_withBrackets n c
  · refine ⟨n, ?_⟩
    split
    · rfl
    · split <;> rfl

end Scan

/-- A line has the same code and the same opener, whatever the count of brackets before it. -/
theorem exists_readCode_withBrackets (s : Scan) (n column : Nat) (opener : Option Nat)
    (cs : List Char) : ∃ m, readCode (s.withBrackets n) column opener cs =
      { readCode s column opener cs with
        state := (readCode s column opener cs).state.withBrackets m } := by
  induction cs generalizing s n column opener with
  | nil => exact ⟨n, rfl⟩
  | cons c cs ih =>
      rw [readCode, readCode, Scan.atCode_withBrackets, Scan.opensLine_withBrackets]
      split
      · exact ⟨n, rfl⟩
      · obtain ⟨k, hk⟩ := s.exists_next_withBrackets n c cs
        obtain ⟨m, hm⟩ := ih (s.next c cs) k (column + 1)
          (if s.opensLine c cs then some column else opener)
        rw [hk, hm]
        exact ⟨m, rfl⟩

namespace Joiner

/-- So does a line that is added. -/
theorem exists_feed_withBrackets (s : Scan) (n : Nat) (waiting : Waiting) (line : SourceLine) :
    ∃ m, feed ⟨s.withBrackets n, waiting⟩ line =
      (⟨(feed ⟨s, waiting⟩ line).1.scan.withBrackets m, (feed ⟨s, waiting⟩ line).1.waiting⟩,
        (feed ⟨s, waiting⟩ line).2) := by
  obtain ⟨m, hm⟩ := exists_readCode_withBrackets s n 0 none line.text.toList
  have hextend : ∀ code, extend ⟨s.withBrackets n, waiting⟩ line code =
      extend ⟨s, waiting⟩ line code := fun _ => rfl
  refine ⟨m, ?_⟩
  unfold feed
  simp only [hm, hextend, Scan.isOpen_withBrackets, Scan.inTriple_withBrackets,
    Scan.endLine_withBrackets]
  split
  · rfl
  · split <;> rfl

/-- Whether and how lines are assembled does not depend on the brackets counted before. -/
theorem assemble_withBrackets (s : Scan) (n : Nat) (waiting : Waiting) (lines : List SourceLine) :
    assemble ⟨s.withBrackets n, waiting⟩ lines = assemble ⟨s, waiting⟩ lines := by
  induction lines generalizing s n waiting with
  | nil => rfl
  | cons line lines ih =>
      obtain ⟨m, hm⟩ := exists_feed_withBrackets s n waiting line
      rw [assemble, assemble, hm]
      exact congrArg (Except.map _) (ih _ m _)

/-! ## Parts of a document -/

/-- The state after some lines, and the logical lines that they complete. -/
def run (j : Joiner) : List SourceLine → Joiner × List LogicalLine
  | [] => (j, [])
  | line :: lines =>
    let (j, done) := j.feed line
    let (j, more) := j.run lines
    (j, done ++ more)

variable {j : Joiner} {a b lines : List SourceLine}

/-- Lines are assembled from where the lines before them left the joiner. -/
theorem assemble_append (j : Joiner) (a b : List SourceLine) :
    j.assemble (a ++ b) = ((j.run a).1.assemble b).map ((j.run a).2 ++ ·) := by
  induction a generalizing j with
  | nil =>
      show j.assemble b = (j.assemble b).map id
      cases j.assemble b <;> rfl
  | cons line a ih =>
      show ((j.feed line).1.assemble (a ++ b)).map ((j.feed line).2 ++ ·) =
        (((j.feed line).1.run a).1.assemble b).map
          ((j.feed line).2 ++ ((j.feed line).1.run a).2 ++ ·)
      rw [ih]
      cases ((j.feed line).1.run a).1.assemble b with
      | error e => rfl
      | ok done => simp only [Except.map, List.append_assoc]

/-- What holds between two lines: the reader has ended its line, and a text with an open delimiter
waits only while the reader is inside of it. -/
structure AtLineEnd (j : Joiner) : Prop where
  ended : j.scan.endLine = j.scan
  inside : ∀ text origin opener, j.waiting = .unclosed text origin opener → j.scan.isOpen

theorem endLine_endLine (s : Scan) : s.endLine.endLine = s.endLine := by
  unfold Scan.endLine
  cases s.quote with
  | none => rfl
  | some q => cases q <;> rfl

theorem isOpen_endLine (s : Scan) : s.endLine.isOpen = s.isOpen := by
  unfold Scan.isOpen Scan.inTriple Scan.endLine
  cases s.quote with
  | none => rfl
  | some q => cases q <;> rfl

theorem atLineEnd_start : AtLineEnd start where
  ended := rfl
  inside := fun _ _ _ h => nomatch h

/-- Every line leaves the joiner at its end. -/
theorem atLineEnd_feed (j : Joiner) (line : SourceLine) : AtLineEnd (j.feed line).1 := by
  unfold feed
  simp only
  split
  · next hopen =>
    refine ⟨endLine_endLine _, fun _ _ _ _ => ?_⟩
    rw [isOpen_endLine]
    exact hopen
  · split
    · exact ⟨endLine_endLine _, fun _ _ _ h => nomatch h⟩
    · exact ⟨endLine_endLine _, fun _ _ _ h => nomatch h⟩

theorem AtLineEnd.run (h : AtLineEnd j) (lines : List SourceLine) :
    AtLineEnd (j.run lines).1 := by
  induction lines generalizing j with
  | nil => exact h
  | cons line lines ih => exact ih (atLineEnd_feed j line)

/-- Nothing is pending: no literal in tripled quotes and no round bracket is open, and no backslash
asks for another line. -/
structure Idle (j : Joiner) : Prop where
  literal : j.scan.inTriple = false
  bracket : j.scan.parens = 0
  backslash : ∀ text origin, j.waiting ≠ .joined text origin

/-- Between two lines with nothing pending, the joiner is as at the start of the document but for
the brackets that it has counted. -/
theorem AtLineEnd.eq_of_idle (h : AtLineEnd j) (hidle : Idle j) :
    j = ⟨Scan.start.withBrackets j.scan.brackets, .nothing⟩ := by
  obtain ⟨⟨quote, parens, brackets, previous, rest⟩, waiting⟩ := j
  obtain ⟨hended, hinside⟩ := h
  obtain ⟨hliteral, hbracket, hbackslash⟩ := hidle
  simp only [Scan.endLine, Scan.mk.injEq, true_and] at hended hbracket
  obtain ⟨hquote, rfl, rfl⟩ := hended
  subst hbracket
  -- at the end of a line only a tripled literal can be open, and none is
  have hnone : quote = none := by
    cases quote with
    | none => rfl
    | some q =>
        have htriple : q.isTriple = false := hliteral
        rw [Option.filter_some, htriple] at hquote
        cases hquote
  subst hnone
  cases waiting with
  | nothing => rfl
  | joined text origin => exact absurd rfl (hbackslash text origin)
  | unclosed text origin opener =>
      have hopen := hinside text origin opener rfl
      cases hopen

end Joiner

/-- Lines after which nothing is pending are assembled apart from the lines that follow: the logical
lines of both parts stand one after the other, and a fault is that of the second part. Neither
literals in single quotes or double quotes nor square and curly brackets that the first part leaves
open matter to the second. -/
theorem assemble_append_of_idle {a b : List SourceLine} {done : List LogicalLine}
    (ha : assemble a = .ok done) (hidle : (Joiner.start.run a).1.Idle) :
    assemble (a ++ b) = (assemble b).map (done ++ ·) := by
  have hstate := (Joiner.atLineEnd_start.run a).eq_of_idle hidle
  have hfirst : ∀ lines, (Joiner.start.run a).1.assemble lines = assemble lines := by
    intro lines
    rw [hstate, Joiner.assemble_withBrackets]
    rfl
  have hdone : (Joiner.start.run a).2 = done := by
    have happend := Joiner.start.assemble_append a []
    rw [List.append_nil, hfirst] at happend
    have hok : assemble a = .ok ((Joiner.start.run a).2 ++ []) := happend
    rw [ha, List.append_nil] at hok
    cases hok
    rfl
  have happend := Joiner.start.assemble_append a b
  rwa [hfirst, hdone] at happend

/-- A line that leaves a literal in single quotes and a square bracket open. -/
def looseLine : SourceLine := ⟨"- [a, 'b", none, 1⟩

theorem assemble_append_of_idle_loose :
    assemble [looseLine] = .ok [⟨"- [a, 'b", looseLine⟩] ∧
      (Joiner.start.run [looseLine]).1.scan.brackets = 1 ∧
      (Joiner.start.run [looseLine]).1.Idle ∧
      ∀ b, assemble ([looseLine] ++ b) =
        (assemble b).map ([⟨"- [a, 'b", looseLine⟩] ++ ·) := by
  have ha : assemble [looseLine] = .ok [⟨"- [a, 'b", looseLine⟩] := rfl
  have hwaiting : (Joiner.start.run [looseLine]).1.waiting = .nothing := rfl
  have hidle : (Joiner.start.run [looseLine]).1.Idle := by
    refine ⟨rfl, rfl, fun text origin h => ?_⟩
    rw [hwaiting] at h
    cases h
  exact ⟨ha, rfl, hidle, fun b => assemble_append_of_idle ha hidle⟩

end RowConfig
