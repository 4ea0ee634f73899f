import RowConfig.Proofs.Assembly
import RowConfig.Proofs.Inclusion

/-!
# Lines of a text that are passed on

Includes are expanded before lines are assembled, so expansion knows nothing of literals. A line of
a text is passed on, whatever stands before and behind it, if it is no directive; a directive is
not, and be it part of a literal (`expandText_line`).
-/

namespace RowConfig

open Chars

namespace Include

variable {s : Sources} {visited : List String} {lines : List (String × SourceLine)}
  {out : List SourceLine}

/-- Lines are expanded from where the lines before them have led to: these fail by themselves, or
they give their part and enter some files. -/
theorem expand_append (s : Sources) (visited : List String) (u : List (String × SourceLine)) :
    (∃ e, expand s visited u = .error e ∧ ∀ v, expand s visited (u ++ v) = .error e) ∨
      ∃ out visited', expand s visited u = .ok out ∧
        ∀ v, expand s visited (u ++ v) = (expand s visited' v).map (out ++ ·) := by
  induction visited, u using expand.induct s with
  | case1 visited =>
      refine .inr ⟨[], visited, expand_nil s visited, fun v => ?_⟩
      show expand s visited v = (expand s visited v).map id
      cases expand s visited v <;> rfl
  | case2 visited dir line more e hline =>
      exact .inl ⟨e, expand_refused hline, fun v => expand_refused hline⟩
  | case3 visited dir line more hline ih =>
      simp only [List.cons_append, expand_plain hline]
      rcases ih with ⟨e, hmore, herror⟩ | ⟨out, visited', hmore, hrest⟩
      · refine .inl ⟨e, ?_, fun v => ?_⟩
        · rw [hmore]
          rfl
        · rw [herror]
          rfl
      · refine .inr ⟨line :: out, visited', ?_, fun v => ?_⟩
        · rw [hmore]
          rfl
        · rw [hrest]
          cases expand s visited' v <;> rfl
  | case4 visited dir line more path column hline hlocate =>
      exact .inl ⟨_, expand_unlocated hline hlocate, fun v => expand_unlocated hline hlocate⟩
  | case5 visited dir line more path column hline name hlocate hknown ih =>
      simp only [List.cons_append, expand_known hline hlocate hknown]
      exact ih
  | case6 visited dir line more path column hline name hlocate hnew e hread =>
      exact .inl ⟨e, expand_unread hline hlocate hnew hread, fun v =>
        expand_unread hline hlocate hnew hread⟩
  | case7 visited dir line more path column hline name hlocate hnew content hread ih =>
      simp only [List.cons_append, expand_file hline hlocate hnew hread, ← List.append_assoc]
      exact ih

/-- Of the lines that are from no file, exactly those are put that are no directives. -/
theorem filter_isNone_of_expand (h : expand s visited lines = .ok out) :
    out.filter (·.file.isNone) =
      (lines.map Prod.snd).filter fun line => line.file.isNone && !isDirective line := by
  induction visited, lines using expand.induct s generalizing out with
  | case1 visited =>
      rw [expand_nil] at h
      cases h
      rfl
  | case2 visited dir line more e hline =>
      rw [expand_refused hline] at h
      cases h
  | case3 visited dir line more hline ih =>
      rw [expand_plain hline] at h
      obtain ⟨rest, hrest, rfl⟩ := map_eq_ok_iff.mp h
      rw [List.map_cons, List.filter_cons, List.filter_cons, ih hrest,
        isDirective_eq_false_iff.mpr hline, Bool.not_false, Bool.and_true]
  | case4 visited dir line more path column hline hlocate =>
      rw [expand_unlocated hline hlocate] at h
      cases h
  | case5 visited dir line more path column hline name hlocate hknown ih =>
      rw [expand_known hline hlocate hknown] at h
      have hleads := (leads_iff.mpr ⟨path, column, hline, hlocate⟩).isDirective
      rw [ih h, List.map_cons, List.filter_cons_of_neg (by simp [hleads])]
  | case6 visited dir line more path column hline name hlocate hnew e hread =>
      rw [expand_unread hline hlocate hnew hread] at h
      cases h
  | case7 visited dir line more path column hline name hlocate hnew content hread ih =>
      rw [expand_file hline hlocate hnew hread] at h
      have hleads := (leads_iff.mpr ⟨path, column, hline, hlocate⟩).isDirective
      -- the lines of the file are from it
      have hinside : ((linesOf name content).map Prod.snd).filter
          (fun line => line.file.isNone && !isDirective line) = [] := by
        rw [List.filter_eq_nil_iff]
        intro l hl
        obtain ⟨placed, hplaced, rfl⟩ := List.mem_map.mp hl
        simp [file_of_mem_linesOf hplaced]
      rw [ih h, List.map_append, List.filter_append, hinside, List.map_cons,
        List.filter_cons_of_neg (by simp [hleads])]
      rfl

end Include

open Include

variable {s : Sources} {dir text : String} {line : SourceLine} {before after out : List SourceLine}

/-- The lines of a text, expanded relative to a directory. -/
def expandLines (s : Sources) (dir : String) (lines : List SourceLine) :
    Except Fault (List SourceLine) := expand s [] (lines.map fun line => (dir, line))

/-- Expansion passes a line on: unless the lines before it fail, its result with the line is its
result without it, and the line is put behind what the lines before it give. -/
def PassesOn (s : Sources) (dir : String) (before : List SourceLine) (line : SourceLine)
    (after : List SourceLine) : Prop :=
  (∃ e, expandLines s dir before = .error e ∧
      expandLines s dir (before ++ line :: after) = .error e) ∨
    ∃ (out : List SourceLine) (rest : Except Fault (List SourceLine)),
      expandLines s dir before = .ok out ∧
      expandLines s dir (before ++ after) = rest.map (out ++ ·) ∧
      expandLines s dir (before ++ line :: after) = rest.map (out ++ line :: ·)

theorem passesOn_of_plain (h : isDirective line = false) (before after : List SourceLine) :
    PassesOn s dir before line after := by
  have hline : ofLine line = .ok .nothing := isDirective_eq_false_iff.mp h
  unfold PassesOn expandLines
  simp only [List.map_append, List.map_cons]
  rcases expand_append s [] (before.map fun line => (dir, line)) with
    ⟨e, hbefore, herror⟩ | ⟨out, visited, hbefore, hrest⟩
  · exact .inl ⟨e, hbefore, herror _⟩
  · refine .inr ⟨out, _, hbefore, hrest _, ?_⟩
    rw [hrest, expand_plain hline]
    cases expand s visited (after.map fun line => (dir, line)) <;> rfl

/-- Of the lines of a text itself, those stand in its expansion that are no directives. -/
theorem filter_isNone_of_expandText (h : expandText s dir text = .ok out) :
    out.filter (·.file.isNone) =
      (SourceLine.ofText none text).filter fun line => !isDirective line := by
  have hmap : ((SourceLine.ofText none text).map fun line => (dir, line)).map Prod.snd =
      SourceLine.ofText none text := by
    rw [List.map_map]
    exact List.map_id _
  rw [filter_isNone_of_expand h, hmap]
  refine List.filter_congr fun line hline => ?_
  rw [file_of_mem_ofText hline]
  rfl

/-- A line of a text is passed on if it is no directive, and is not if it is one. What stands before
it does not matter, so neither does a literal that is open there. -/
theorem expandText_line (hlines : SourceLine.ofText none text = before ++ line :: after) :
    (isDirective line = false → PassesOn s dir before line after) ∧
      (isDirective line → ∀ out, expandText s dir text = .ok out → line ∉ out) := by
  refine ⟨fun h => passesOn_of_plain h before after, fun h out hout hin => ?_⟩
  have hmem : line ∈ SourceLine.ofText none text := by
    rw [hlines]
    exact List.mem_append_right _ List.mem_cons_self
  have hkept : line ∈ out.filter (·.file.isNone) := by
    refine List.mem_filter.mpr ⟨hin, ?_⟩
    rw [file_of_mem_ofText hmem]
    rfl
  rw [filter_isNone_of_expandText hout] at hkept
  have hplain := (List.mem_filter.mp hkept).2
  rw [h] at hplain
  cases hplain

/-! ## A directive in a literal -/

/-- A text that is a literal over four lines. The third line is a directive. -/
def literalText : String := "str g: \"\"\"\n #includes\n#include \"a\"\n\"\"\""

def openingLine : SourceLine := ⟨"str g: \"\"\"", none, 1⟩

def plainLine : SourceLine := ⟨" #includes", none, 2⟩

def directiveLine : SourceLine := ⟨"#include \"a\"", none, 3⟩

def closingLine : SourceLine := ⟨"\"\"\"", none, 4⟩

theorem ofText_literalText : SourceLine.ofText none literalText =
    [openingLine, plainLine, directiveLine, closingLine] := by cbv

theorem expandText_literalText : expandText (.inMemory [("/a", "x")]) "/" literalText =
    .ok [openingLine, plainLine, ⟨"x", some "/a", 1⟩, closingLine] := by cbv

theorem expandText_line_literal :
    SourceLine.ofText none literalText =
        [openingLine] ++ plainLine :: [directiveLine, closingLine] ∧
      PassesOn (.inMemory [("/a", "x")]) "/" [openingLine] plainLine [directiveLine, closingLine] ∧
      ∃ out, expandText (.inMemory [("/a", "x")]) "/" literalText = .ok out ∧
        plainLine ∈ out ∧ directiveLine ∉ out := by
  have hplain : isDirective plainLine = false := by cbv
  have hdirective : isDirective directiveLine = true := by cbv
  have hfirst : SourceLine.ofText none literalText =
      [openingLine] ++ plainLine :: [directiveLine, closingLine] := ofText_literalText
  have hsecond : SourceLine.ofText none literalText =
      [openingLine, plainLine] ++ directiveLine :: [closingLine] := ofText_literalText
  refine ⟨hfirst, (expandText_line hfirst).1 hplain, _, expandText_literalText, ?_, ?_⟩
  · exact List.mem_cons_of_mem _ List.mem_cons_self
  · exact (expandText_line hsecond).2 hdirective _ expandText_literalText

/-- The literal is open before the directive, and still the line is not passed on. -/
theorem not_passesOn_literal :
    SourceLine.ofText none literalText =
        [openingLine, plainLine] ++ directiveLine :: [closingLine] ∧
      (Joiner.start.run [openingLine, plainLine]).1.scan.inTriple ∧
      ¬ PassesOn (.inMemory [("/a", "x")]) "/" [openingLine, plainLine] directiveLine
        [closingLine] := by
  have hbefore : expandLines (.inMemory [("/a", "x")]) "/" [openingLine, plainLine] =
      .ok [openingLine, plainLine] := by cbv
  have hwhole : expandLines (.inMemory [("/a", "x")]) "/"
      ([openingLine, plainLine] ++ directiveLine :: [closingLine]) =
        .ok [openingLine, plainLine, ⟨"x", some "/a", 1⟩, closingLine] := by cbv
  refine ⟨ofText_literalText, rfl, ?_⟩
  rintro (⟨e, herror, -⟩ | ⟨out, rest, hout, -, hpassed⟩)
  · rw [hbefore] at herror
    cases herror
  · rw [hbefore] at hout
    cases hout
    rw [hwhole] at hpassed
    -- the line of the file stands where the directive would
    cases rest with
    | error e => cases hpassed
    | ok rest =>
        have hthird : (⟨"x", some "/a", 1⟩ : SourceLine) = directiveLine :=
          (List.cons.inj (List.cons.inj (List.cons.inj (Except.ok.inj hpassed)).2).2).1
        cases congrArg SourceLine.file hthird

end RowConfig
