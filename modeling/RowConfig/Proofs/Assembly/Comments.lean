import RowConfig.Proofs.Assembly.Unclosed
import RowConfig.Proofs.Columns

/-!
# Comments

A hash outside of literals begins a comment, and what is read of a line ends before it. So a comment
behind a line changes nothing that is read of the line (`readCode_comment`): the hash is not part of
any delimiter, and nothing behind it is looked at. All else that the joiner takes from a line is its
file and its number, and its text as a quotation in locations. Hence lines are joined alike, or
refused alike, with the comment and without it (`assemble_commented`).
-/

namespace RowConfig

/-- The line with a hash and a text behind it. -/
def SourceLine.commented (line : SourceLine) (comment : List Char) : SourceLine :=
  { line with text := String.ofList (line.text.toList ++ '#' :: comment) }

/-! ## Reading a line with a comment -/

section Reading

variable {s : Scan} {cs after : List Char} {column : Nat} {opener : Option Nat}

theorem Scan.ends_of_rest (h : s.rest = 0) (cs : List Char) : s.Ends cs := by
  intro _
  rw [h]
  exact ⟨.double, List.nil_prefix⟩

/-- A line begins between two units. -/
theorem Scan.rest_afterLines (lines : List SourceLine) :
    (Scan.start.afterLines lines).rest = 0 := by
  rcases List.eq_nil_or_concat' lines with rfl | ⟨before, line, rfl⟩
  · rfl
  · rw [Scan.afterLines_append]
    rfl

theorem Scan.opensLine_append (h : Scan.bareAhead after) (s : Scan) (c : Char) (cs : List Char) :
    s.opensLine c (cs ++ after) = s.opensLine c cs := by
  rw [Scan.opensLine, Scan.opens?_append h, Scan.opensLine]

/-- A comment behind a line after which no literal is open is not read. The line may have a comment
of its own, and the hash is then in it. -/
theorem readCode_comment (hends : s.Ends cs)
    (houtside : (readCode s column opener cs).state.quote = none) (comment : List Char) :
    readCode s column opener (cs ++ '#' :: comment) = readCode s column opener cs := by
  have hbare : Scan.bareAhead ('#' :: comment) := rfl
  induction cs generalizing s column opener with
  | nil =>
      have hcode : s.atCode := hends.atCode houtside rfl
      show readCode s column opener ('#' :: comment) = ⟨[], s, opener⟩
      rw [readCode, hcode]
      rfl
  | cons c cs ih =>
      rw [readCode] at houtside
      rw [List.cons_append, readCode, readCode, Scan.next_append hbare, Scan.opensLine_append hbare]
      split
      · rfl
      · next hhash =>
        rw [if_neg hhash] at houtside
        rw [ih hends.next houtside]

end Reading

/-! ## Forgetting the texts of physical lines -/

def SourceLine.withoutText (l : SourceLine) : SourceLine := { l with text := "" }

def Location.withoutText (l : Location) : Location := { l with text := "" }

/-- The text of a logical line, with the file and the number of its first physical line. -/
def LogicalLine.withoutText (l : LogicalLine) : LogicalLine :=
  { l with origin := l.origin.withoutText }

/-- What assembly gives, but for the texts of physical lines: the logical lines with the files and
numbers of their first lines, or the fault with its file, line, column and length. -/
def outline : Except Fault (List LogicalLine) → Except Fault (List LogicalLine)
  | .ok lines => .ok (lines.map LogicalLine.withoutText)
  | .error fault => .error (fault.mapLocation Location.withoutText)

theorem outline_map_append (done : List LogicalLine) (x : Except Fault (List LogicalLine)) :
    outline (x.map (done ++ ·)) = (outline x).map (done.map LogicalLine.withoutText ++ ·) := by
  cases x with
  | error fault => rfl
  | ok lines => exact congrArg Except.ok List.map_append

namespace Joiner

/-- Adds a physical line of which this was read. -/
def add (j : Joiner) (line : SourceLine) (read : CodeLine) : Joiner × List LogicalLine :=
  let (text, origin, opener) := j.extend line read.code
  let scan := read.state.endLine
  if read.state.isOpen then
    let width := if read.state.inTriple then 3 else 1
    let here := line.location (read.opener.getD 0 + 1) width
    (⟨scan, .unclosed text origin (opener.getD here)⟩, [])
  else
    match beforeBackslash? text with
    | some body => (⟨scan, .joined body origin⟩, [])
    | none => (⟨scan, .nothing⟩, emit text origin)

theorem feed_eq_add (j : Joiner) (line : SourceLine) :
    j.feed line = j.add line (readCode j.scan 0 none line.text.toList) := rfl

/-- The joiner with the texts of physical lines left out. -/
def withoutText (j : Joiner) : Joiner :=
  { j with
    waiting := match j.waiting with
      | .nothing => .nothing
      | .joined text origin => .joined text origin.withoutText
      | .unclosed text origin opener => .unclosed text origin.withoutText opener.withoutText }

theorem emit_withoutText (text : List Char) (origin : SourceLine) :
    emit text origin.withoutText = (emit text origin).map LogicalLine.withoutText := by
  unfold emit
  split <;> rfl

theorem extend_withoutText (j : Joiner) (line : SourceLine) (code : List Char) :
    j.withoutText.extend line.withoutText code =
      ((j.extend line code).1, (j.extend line code).2.1.withoutText,
        (j.extend line code).2.2.map Location.withoutText) := by
  obtain ⟨scan, waiting⟩ := j
  cases waiting <;> rfl

/-- Beyond what is read of it, a line gives its file and its number only. -/
theorem add_withoutText (j : Joiner) (line : SourceLine) (read : CodeLine) :
    j.withoutText.add line.withoutText read =
      ((j.add line read).1.withoutText, (j.add line read).2.map LogicalLine.withoutText) := by
  unfold add
  rw [extend_withoutText]
  generalize j.extend line read.code = extended
  obtain ⟨text, origin, opener⟩ := extended
  simp only
  split
  · cases opener <;> rfl
  · split
    · rfl
    · rw [emit_withoutText]
      rfl

variable {j j' : Joiner} {line line' : SourceLine}

/-- Two joiners that differ in the texts of lines only go on alike with lines that are read alike.
-/
theorem feed_alike (hj : j.withoutText = j'.withoutText)
    (hread : readCode j.scan 0 none line.text.toList = readCode j'.scan 0 none line'.text.toList)
    (hline : line.withoutText = line'.withoutText) :
    (j.feed line).1.withoutText = (j'.feed line').1.withoutText ∧
      (j.feed line).2.map LogicalLine.withoutText =
        (j'.feed line').2.map LogicalLine.withoutText := by
  have h := add_withoutText j line (readCode j.scan 0 none line.text.toList)
  rw [hj, hline, hread, add_withoutText, ← hread, ← feed_eq_add, hread, ← feed_eq_add] at h
  obtain ⟨hstate, hdone⟩ := Prod.mk.inj h
  exact ⟨hstate.symm, hdone.symm⟩

theorem finish_withoutText (j : Joiner) : j.withoutText.finish = outline j.finish := by
  obtain ⟨scan, waiting⟩ := j
  cases waiting with
  | nothing => rfl
  | joined text origin => exact congrArg Except.ok (emit_withoutText text origin)
  | unclosed text origin opener =>
      simp only [finish, withoutText]
      cases scan.quote with
      | none => rfl
      | some q =>
          simp only
          split <;> rfl

theorem outline_assemble_cons (j : Joiner) (line : SourceLine) (lines : List SourceLine) :
    outline (j.assemble (line :: lines)) =
      (outline ((j.feed line).1.assemble lines)).map
        ((j.feed line).2.map LogicalLine.withoutText ++ ·) := outline_map_append _ _

/-- They assemble the same lines alike. -/
theorem assemble_alike (hj : j.withoutText = j'.withoutText) (lines : List SourceLine) :
    outline (j.assemble lines) = outline (j'.assemble lines) := by
  induction lines generalizing j j' with
  | nil =>
      show outline j.finish = outline j'.finish
      rw [← finish_withoutText, ← finish_withoutText, hj]
  | cons line lines ih =>
      have hscan : j.scan = j'.scan := by
        show j.withoutText.scan = j'.withoutText.scan
        rw [hj]
      have hread : readCode j.scan 0 none line.text.toList =
          readCode j'.scan 0 none line.text.toList := by rw [hscan]
      obtain ⟨hstate, hdone⟩ := feed_alike hj hread rfl
      rw [outline_assemble_cons, outline_assemble_cons, ih hstate, hdone]

end Joiner

/-- A comment behind a physical line after whose code no literal is open changes neither the logical
lines nor the files and numbers of their first lines, nor whether assembly fails and where. The line
may stand inside of round brackets, and may end with a backslash that joins the next one. -/
theorem assemble_commented {before : List SourceLine} {line : SourceLine}
    (houtside :
      (readCode (Scan.start.afterLines before) 0 none line.text.toList).state.quote = none)
    (comment : List Char) (after : List SourceLine) :
    outline (assemble (before ++ line.commented comment :: after)) =
      outline (assemble (before ++ line :: after)) := by
  have hscan := Joiner.scan_run .start before
  generalize hrun : (Joiner.start.run before).1 = j at hscan
  have hread : readCode j.scan 0 none (line.commented comment).text.toList =
      readCode j.scan 0 none line.text.toList := by
    rw [show j.scan = Scan.start.afterLines before from hscan]
    show readCode _ 0 none (String.ofList (line.text.toList ++ '#' :: comment)).toList = _
    rw [String.toList_ofList]
    exact readCode_comment (Scan.ends_of_rest (Scan.rest_afterLines before) _) houtside comment
  obtain ⟨hstate, hdone⟩ := Joiner.feed_alike rfl hread rfl
  unfold assemble
  rw [Joiner.assemble_append, Joiner.assemble_append, outline_map_append, outline_map_append, hrun,
    Joiner.outline_assemble_cons, Joiner.outline_assemble_cons, Joiner.assemble_alike hstate, hdone]

/-- A line inside of a round bracket that the line before it opens. It closes the bracket and ends
with a backslash. -/
def bracketEnd : SourceLine := ⟨"'b #') \\", none, 2⟩

theorem assemble_commented_closing :
    let before : List SourceLine := [⟨"- f(a,", none, 1⟩]
    let after : List SourceLine := [⟨"  , c", none, 3⟩]
    (readCode (Scan.start.afterLines before) 0 none bracketEnd.text.toList).state.quote = none ∧
      outline (assemble (before ++ bracketEnd.commented " (\\".toList :: after)) =
        .ok [⟨"- f(a,\n'b #') , c", ⟨"", none, 1⟩⟩] := by
  have houtside : (readCode (Scan.start.afterLines [⟨"- f(a,", none, 1⟩]) 0 none
      bracketEnd.text.toList).state.quote = none := rfl
  have hplain : assemble ([⟨"- f(a,", none, 1⟩] ++ bracketEnd :: [⟨"  , c", none, 3⟩]) =
      .ok [⟨"- f(a,\n'b #') , c", ⟨"- f(a,", none, 1⟩⟩] := rfl
  refine ⟨houtside, ?_⟩
  rw [assemble_commented houtside, hplain]
  rfl

end RowConfig
