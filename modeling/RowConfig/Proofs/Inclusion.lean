import Mathlib
import RowConfig.Include
import RowConfig.Proofs.Chars
import RowConfig.Proofs.Entries
import RowConfig.Proofs.Pointwise

/-!
# What includes put into a document

Files and the files that they include form a graph, which may have cycles. Expansion walks it with
the list of files that were entered; what a walk adds to this list (`Expansion`) is closed under
including, is reached from the lines that were expanded, and every file of it gives its own lines
once and in their order. Hence a file expands exactly when all directives in the files that it
reaches can be followed, and then every such file stands in the result once (`expandFile_inMemory`).
-/

namespace RowConfig

open Chars Relation

namespace Include

variable {s : Sources} {line : SourceLine} {path : String}

/-! ## Directives -/

/-- The line is a directive: after its leading blanks it begins with the word `#include`. -/
def isDirective (line : SourceLine) : Bool :=
  (stripStart? directive (trimStart line.text.toList)).any atWordEnd

/-- The line is a directive for a path, which is not empty and stands between quotes of one kind. -/
def Names (line : SourceLine) (path : String) : Prop :=
  ∃ rest, trimStart line.text.toList = directive ++ rest ∧ atWordEnd rest ∧
    ∃ q, (q = '"' ∨ q = '\'') ∧ trim rest = q :: path.toList ++ [q] ∧ path ≠ ""

theorem isDirective_iff :
    isDirective line ↔
      ∃ rest, trimStart line.text.toList = directive ++ rest ∧ atWordEnd rest := by
  simp only [isDirective, Option.any_eq_true, stripStart?_eq_some_iff]

theorem Names.isDirective (h : Names line path) : isDirective line := by
  obtain ⟨rest, hrest, hend, -⟩ := h
  exact isDirective_iff.mpr ⟨rest, hrest, hend⟩

theorem unquote?_eq_some_iff {cs inner : List Char} :
    unquote? cs = some inner ↔
      ∃ q, (q = '"' ∨ q = '\'') ∧ cs = q :: inner ++ [q] ∧ inner ≠ [] := by
  have hinside : ∀ q body, (stripStart? [q] cs).bind (stripEnd? [q]) = some body ↔
      cs = q :: body ++ [q] := by
    intro q body
    simp only [Option.bind_eq_some_iff, stripStart?_eq_some_iff, stripEnd?_eq_some_iff]
    constructor
    · rintro ⟨_, rfl, rfl⟩
      rfl
    · rintro rfl
      exact ⟨_, rfl, rfl⟩
  simp only [unquote?, Option.filter_eq_some_iff, Option.or_eq_some_iff, hinside,
    Bool.not_eq_true', List.isEmpty_eq_false_iff]
  constructor
  · rintro ⟨hcs | ⟨-, hcs⟩, hne⟩
    · exact ⟨'"', .inl rfl, hcs, hne⟩
    · exact ⟨'\'', .inr rfl, hcs, hne⟩
  · rintro ⟨q, rfl | rfl, hcs, hne⟩
    · exact ⟨.inl hcs, hne⟩
    · -- a text that begins with the one quote is not between two of the other
      refine ⟨.inr ⟨Option.eq_none_iff_forall_ne_some.mpr fun body hbody => ?_, hcs⟩, hne⟩
      rw [hinside, hcs] at hbody
      exact absurd (List.cons.inj hbody).1 (by decide)

/-- A line is no directive, a directive for a path, or a directive that is refused. -/
theorem ofLine_cases (line : SourceLine) :
    (isDirective line = false ∧ ofLine line = .ok .nothing) ∨
      (∃ path column, Names line path ∧ ofLine line = .ok (.file path column)) ∨
      (isDirective line ∧ (∀ path, ¬ Names line path) ∧ ∃ e, ofLine line = .error e) := by
  unfold ofLine
  simp only
  split
  · next hstrip =>
    refine .inl ⟨?_, rfl⟩
    rw [isDirective, hstrip]
    rfl
  · next rest hstrip =>
    have hrest := stripStart?_eq_some_iff.mp hstrip
    split
    · next hend =>
      refine .inl ⟨?_, rfl⟩
      rw [isDirective, hstrip, Option.any_some]
      simpa using hend
    · next hend =>
      have hend : atWordEnd rest := by simpa using hend
      split
      · next inner hquoted =>
        obtain ⟨q, hq, htrim, hne⟩ := unquote?_eq_some_iff.mp hquoted
        refine .inr (.inl ⟨_, _, ⟨rest, hrest, hend, q, hq, ?_, ?_⟩, rfl⟩)
        · rw [htrim, String.toList_ofList]
        · simpa using hne
      · next hquoted =>
        refine .inr (.inr ⟨isDirective_iff.mpr ⟨rest, hrest, hend⟩, ?_, _, rfl⟩)
        rintro path ⟨rest', hrest', -, q, hq, htrim, hne⟩
        obtain rfl : rest = rest' := List.append_cancel_left (hrest.symm.trans hrest')
        have hsome : unquote? (trim rest) = some path.toList :=
          unquote?_eq_some_iff.mpr ⟨q, hq, htrim, by simpa using hne⟩
        rw [hquoted] at hsome
        cases hsome

theorem ofLine_of_names (h : Names line path) : ∃ column, ofLine line = .ok (.file path column) := by
  rcases ofLine_cases line with ⟨hline, -⟩ | ⟨path', column, h', hline⟩ | ⟨-, hnone, -⟩
  · rw [h.isDirective] at hline
    cases hline
  · -- both paths are what the line quotes
    obtain ⟨rest, hrest, -, q, -, htrim, -⟩ := h
    obtain ⟨rest', hrest', -, q', -, htrim', -⟩ := h'
    obtain rfl : rest = rest' := List.append_cancel_left (hrest.symm.trans hrest')
    rw [htrim] at htrim'
    obtain ⟨rfl, htail⟩ := List.cons.inj htrim'
    have hpath : path.toList = path'.toList := (List.append_inj' htail rfl).1
    rw [String.toList_inj.mp hpath]
    exact ⟨column, hline⟩
  · exact absurd h (hnone path)

/-! ## The graph of files -/

/-- The line, which stands in a directory, is a directive for this file. -/
def Leads (s : Sources) (placed : String × SourceLine) (next : String) : Prop :=
  ∃ path, Names placed.2 path ∧ s.locate? (Path.join placed.1 path) = some next

/-- The line can be expanded: if it is a directive, it leads to a file. -/
def Sound (s : Sources) (placed : String × SourceLine) : Prop :=
  isDirective placed.2 → ∃ next, Leads s placed next

theorem Leads.isDirective {placed : String × SourceLine} {next : String}
    (h : Leads s placed next) : isDirective placed.2 := by
  obtain ⟨path, hpath, -⟩ := h
  exact hpath.isDirective

theorem leads_iff {dir next : String} :
    Leads s (dir, line) next ↔ ∃ path column,
      ofLine line = .ok (.file path column) ∧ s.locate? (Path.join dir path) = some next := by
  constructor
  · rintro ⟨path, hpath, hnext⟩
    obtain ⟨column, hline⟩ := ofLine_of_names hpath
    exact ⟨path, column, hline, hnext⟩
  · rintro ⟨path, column, hline, hnext⟩
    rcases ofLine_cases line with ⟨-, h⟩ | ⟨path', column', hnames, h⟩ | ⟨-, -, e, h⟩
    · rw [hline] at h
      cases h
    · rw [hline] at h
      cases h
      exact ⟨path, hnames, hnext⟩
    · rw [hline] at h
      cases h

/-- A directive leads to one file at most. -/
theorem Leads.unique {placed : String × SourceLine} {next next' : String}
    (h : Leads s placed next) (h' : Leads s placed next') : next = next' := by
  obtain ⟨path, column, hline, hnext⟩ := leads_iff.mp h
  obtain ⟨path', column', hline', hnext'⟩ := leads_iff.mp h'
  rw [hline] at hline'
  cases hline'
  rw [hnext] at hnext'
  exact Option.some.inj hnext'

/-- The lines of a file that are no directives. -/
def ownLines (name content : String) : List SourceLine :=
  (SourceLine.ofText (some name) content).filter fun line => !isDirective line

theorem isDirective_eq_false_iff : isDirective line = false ↔ ofLine line = .ok .nothing := by
  rcases ofLine_cases line with ⟨h, hline⟩ | ⟨path, column, h, hline⟩ | ⟨h, -, e, hline⟩
  · simp [h, hline]
  · simp [h.isDirective, hline]
  · simp [h, hline]

end Include

open Include

namespace Sources

/-- The file holds a directive for `next`. -/
def Includes (s : Sources) (file next : String) : Prop :=
  ∃ content, s.read file = .ok content ∧ ∃ placed ∈ linesOf file content, Leads s placed next

/-- `file` is `root` or is included from it, directly or through other files. -/
def Reaches (s : Sources) (root file : String) : Prop := ReflTransGen s.Includes root file

/-- The file is text, and every directive in it is well formed and leads to a file. -/
def Expandable (s : Sources) (file : String) : Prop :=
  ∃ content, s.read file = .ok content ∧ ∀ placed ∈ linesOf file content, Sound s placed

end Sources

namespace Include

variable {s : Sources} {visited entered : List String} {lines : List (String × SourceLine)}
  {out : List SourceLine}

/-- The line was read from the file. -/
def isFrom (file : String) (line : SourceLine) : Bool := line.file = some file

/-- What expanding `lines`, with the files in `visited` entered before, puts into `out` while it
enters further files. -/
structure Expansion (s : Sources) (visited : List String) (lines : List (String × SourceLine))
    (entered : List String) (out : List SourceLine) : Prop where
  /-- No file is entered twice. -/
  fresh : ∀ file ∈ entered, file ∉ visited
  /-- Files are entered only where includes lead to them. -/
  reached : ∀ file ∈ entered, ∃ placed ∈ lines, ∃ next, Leads s placed next ∧ s.Reaches next file
  /-- Every directive leads to a file that was entered then or before. -/
  followed : ∀ placed ∈ lines, isDirective placed.2 →
    ∃ next ∈ entered ++ visited, Leads s placed next
  /-- So does every directive of the files entered. -/
  closed : ∀ file ∈ entered, ∃ content, s.read file = .ok content ∧
    (∀ placed ∈ linesOf file content, isDirective placed.2 →
      ∃ next ∈ entered ++ visited, Leads s placed next) ∧
    out.filter (isFrom file) = ownLines file content
  /-- Of a file not entered, only the given lines are put. -/
  kept : ∀ file ∉ entered, out.filter (isFrom file) =
    (lines.map Prod.snd).filter fun line => isFrom file line && !isDirective line
  /-- Every line put comes from a file entered then or before. -/
  origin : ∀ line ∈ out, ∃ file ∈ entered ++ visited, line.file = some file

theorem file_of_mem_ofText {file : Option String} {text : String}
    (h : line ∈ SourceLine.ofText file text) : line.file = file := by
  obtain ⟨_, -, rfl⟩ := List.mem_map.mp h
  rfl

theorem file_of_mem_linesOf {name content : String} {placed : String × SourceLine}
    (h : placed ∈ linesOf name content) : placed.2.file = some name := by
  obtain ⟨line, hline, rfl⟩ := List.mem_map.mp h
  exact file_of_mem_ofText hline

theorem map_snd_linesOf (name content : String) :
    (linesOf name content).map Prod.snd = SourceLine.ofText (some name) content := by
  rw [linesOf, List.map_map]
  exact List.map_id _

namespace Expansion

variable {dir name content : String} {more : List (String × SourceLine)}

theorem nil (s : Sources) (visited : List String) : Expansion s visited [] [] [] where
  fresh := fun _ h => nomatch h
  reached := fun _ h => nomatch h
  followed := fun _ h => nomatch h
  closed := fun _ h => nomatch h
  kept := fun _ _ => rfl
  origin := fun _ h => nomatch h

/-- A line that is no directive is put. -/
theorem cons_line (h : Expansion s visited more entered out) {file : String}
    (hfile : file ∈ visited) (hfrom : line.file = some file) (hline : isDirective line = false) :
    Expansion s visited ((dir, line) :: more) entered (line :: out) where
  fresh := h.fresh
  reached := fun f hf => by
    obtain ⟨placed, hplaced, hreached⟩ := h.reached f hf
    exact ⟨placed, List.mem_cons_of_mem _ hplaced, hreached⟩
  followed := fun placed hplaced hdirective => by
    rcases List.mem_cons.mp hplaced with rfl | hplaced
    · rw [hline] at hdirective
      cases hdirective
    · exact h.followed placed hplaced hdirective
  closed := fun f hf => by
    -- the line is from a file entered before, so it is not among those of `f`
    have hother : isFrom f line = false := by
      rw [isFrom, hfrom, decide_eq_false_iff_not, Option.some.injEq]
      rintro rfl
      exact h.fresh _ hf hfile
    rw [List.filter_cons_of_neg (by rw [hother]; decide)]
    exact h.closed f hf
  kept := fun f hf => by
    have hrest := h.kept f hf
    cases hthis : isFrom f line <;> simp [hthis, hline, hrest]
  origin := fun l hl => by
    rcases List.mem_cons.mp hl with rfl | hl
    · exact ⟨file, List.mem_append_right _ hfile, hfrom⟩
    · exact h.origin l hl

/-- A directive for a file that was entered before puts nothing. -/
theorem cons_known (h : Expansion s visited more entered out) (hname : name ∈ visited)
    (hleads : Leads s (dir, line) name) :
    Expansion s visited ((dir, line) :: more) entered out where
  fresh := h.fresh
  reached := fun f hf => by
    obtain ⟨placed, hplaced, hreached⟩ := h.reached f hf
    exact ⟨placed, List.mem_cons_of_mem _ hplaced, hreached⟩
  followed := fun placed hplaced hdirective => by
    rcases List.mem_cons.mp hplaced with rfl | hplaced
    · exact ⟨name, List.mem_append_right _ hname, hleads⟩
    · exact h.followed placed hplaced hdirective
  closed := h.closed
  kept := fun f hf => by
    have hline : isDirective line := hleads.isDirective
    rw [h.kept f hf, List.map_cons, List.filter_cons_of_neg (by simp [hline])]
  origin := h.origin

/-- A directive for another file puts the lines of that file, expanded. -/
theorem cons_file (h : Expansion s (name :: visited) (linesOf name content ++ more) entered out)
    (hleads : Leads s (dir, line) name) (hread : s.read name = .ok content)
    (hnew : name ∉ visited)
    (hmore : ∀ placed ∈ more, ∃ file ∈ visited, placed.2.file = some file) :
    Expansion s visited ((dir, line) :: more) (name :: entered) out := by
  have hmem : ∀ next, next ∈ entered ++ name :: visited ↔ next ∈ name :: entered ++ visited :=
    fun next => List.perm_middle.mem_iff
  -- the lines of the file are from it, and the lines after the directive are not
  have hinside : ∀ f, ((linesOf name content).map Prod.snd).filter
      (fun line => isFrom f line && !isDirective line) =
        if f = name then ownLines name content else [] := by
    intro f
    rw [map_snd_linesOf]
    have hall : ∀ l ∈ SourceLine.ofText (some name) content, isFrom f l = decide (f = name) := by
      intro l hl
      rw [← map_snd_linesOf] at hl
      obtain ⟨placed, hplaced, rfl⟩ := List.mem_map.mp hl
      by_cases hf : f = name
      · simp [isFrom, file_of_mem_linesOf hplaced, hf]
      · simp [isFrom, file_of_mem_linesOf hplaced, hf, Ne.symm hf]
    rw [List.filter_congr fun l hl => by rw [hall l hl]]
    split
    · next hf => simp [hf, ownLines]
    · next hf => simp [hf]
  have hafter : (more.map Prod.snd).filter (fun line =>
      isFrom name line && !isDirective line) = [] := by
    rw [List.filter_eq_nil_iff]
    intro l hl
    obtain ⟨placed, hplaced, rfl⟩ := List.mem_map.mp hl
    obtain ⟨f, hf, hfrom⟩ := hmore placed hplaced
    have hne : f ≠ name := by
      rintro rfl
      exact hnew hf
    simp [isFrom, hfrom, hne]
  refine ⟨?_, ?_, ?_, ?_, ?_, ?_⟩
  · intro f hf
    rcases List.mem_cons.mp hf with rfl | hf
    · exact hnew
    · exact fun hin => h.fresh f hf (List.mem_cons_of_mem _ hin)
  · intro f hf
    rcases List.mem_cons.mp hf with rfl | hf
    · exact ⟨_, List.mem_cons_self, f, hleads, .refl⟩
    · obtain ⟨placed, hplaced, next, hnext, hreach⟩ := h.reached f hf
      rcases List.mem_append.mp hplaced with hplaced | hplaced
      · exact ⟨_, List.mem_cons_self, name, hleads,
          .head ⟨content, hread, placed, hplaced, hnext⟩ hreach⟩
      · exact ⟨placed, List.mem_cons_of_mem _ hplaced, next, hnext, hreach⟩
  · intro placed hplaced hdirective
    rcases List.mem_cons.mp hplaced with rfl | hplaced
    · exact ⟨name, List.mem_cons_self, hleads⟩
    · obtain ⟨next, hnext, hleads'⟩ :=
        h.followed placed (List.mem_append_right _ hplaced) hdirective
      exact ⟨next, (hmem next).mp hnext, hleads'⟩
  · intro f hf
    rcases List.mem_cons.mp hf with rfl | hf
    · have hout : f ∉ entered := fun hin => h.fresh f hin List.mem_cons_self
      refine ⟨content, hread, fun placed hplaced hdirective => ?_, ?_⟩
      · obtain ⟨next, hnext, hleads'⟩ :=
          h.followed placed (List.mem_append_left _ hplaced) hdirective
        exact ⟨next, (hmem next).mp hnext, hleads'⟩
      · rw [h.kept f hout, List.map_append, List.filter_append, hinside, hafter, if_pos rfl,
          List.append_nil]
    · obtain ⟨content', hread', hclosed, hown⟩ := h.closed f hf
      refine ⟨content', hread', fun placed hplaced hdirective => ?_, hown⟩
      obtain ⟨next, hnext, hleads'⟩ := hclosed placed hplaced hdirective
      exact ⟨next, (hmem next).mp hnext, hleads'⟩
  · intro f hf
    rw [List.mem_cons, not_or] at hf
    have hline : isDirective line := hleads.isDirective
    rw [h.kept f hf.2, List.map_append, List.filter_append, hinside, if_neg hf.1, List.nil_append,
      List.map_cons, List.filter_cons_of_neg (by simp [hline])]
  · intro l hl
    obtain ⟨f, hf, hfrom⟩ := h.origin l hl
    exact ⟨f, (hmem f).mp hf, hfrom⟩

end Expansion

/-! ## Expansion as a walk -/

theorem expand_nil (s : Sources) (visited : List String) : expand s visited [] = .ok [] := by
  rw [expand]

/-- A line that is no directive is put. -/
theorem expand_plain {dir : String} {more : List (String × SourceLine)}
    (hline : ofLine line = .ok .nothing) :
    expand s visited ((dir, line) :: more) = (expand s visited more).map (line :: ·) := by
  rw [expand]
  simp only [hline]

/-- A directive that is malformed ends the expansion. -/
theorem expand_refused {dir : String} {more : List (String × SourceLine)} {e : Fault}
    (hline : ofLine line = .error e) : expand s visited ((dir, line) :: more) = .error e := by
  rw [expand]
  simp only [hline]

/-- So does one that leads to no file. -/
theorem expand_unlocated {dir : String} {column : Nat} {more : List (String × SourceLine)}
    (hline : ofLine line = .ok (.file path column))
    (hlocate : s.locate? (Path.join dir path) = none) :
    expand s visited ((dir, line) :: more) =
      .error (.includeNotFound (line.location column path.length) path) := by
  rw [expand]
  simp only [hline, hlocate]

/-- A directive for a file that was entered before puts nothing. -/
theorem expand_known {dir name : String} {column : Nat} {more : List (String × SourceLine)}
    (hline : ofLine line = .ok (.file path column))
    (hlocate : s.locate? (Path.join dir path) = some name) (hknown : visited.contains name) :
    expand s visited ((dir, line) :: more) = expand s visited more := by
  rw [expand]
  simp only [hline, hlocate, hknown, dite_true]

/-- A directive for a file that was not entered before stands for the lines of that file. -/
theorem expand_file {dir name content : String} {column : Nat} {more : List (String × SourceLine)}
    (hline : ofLine line = .ok (.file path column))
    (hlocate : s.locate? (Path.join dir path) = some name) (hnew : ¬ visited.contains name)
    (hread : s.read name = .ok content) :
    expand s visited ((dir, line) :: more) =
      expand s (name :: visited) (linesOf name content ++ more) := by
  rw [expand]
  simp only [hline, hlocate, dif_neg hnew]
  split
  · next e he =>
    rw [hread] at he
    cases he
  · next content' hcontent =>
    rw [hread] at hcontent
    cases hcontent
    rfl

/-- A file that cannot be read ends the expansion. -/
theorem expand_unread {dir name : String} {column : Nat} {more : List (String × SourceLine)}
    {e : Fault} (hline : ofLine line = .ok (.file path column))
    (hlocate : s.locate? (Path.join dir path) = some name) (hnew : ¬ visited.contains name)
    (hread : s.read name = .error e) :
    expand s visited ((dir, line) :: more) = .error e := by
  rw [expand]
  simp only [hline, hlocate, dif_neg hnew]
  split
  · next e' he =>
    rw [hread] at he
    cases he
    rfl
  · next content hcontent =>
    rw [hread] at hcontent
    cases hcontent

/-- Lines from files entered before that expand enter some further files. -/
theorem expansion_of_expand (h : expand s visited lines = .ok out)
    (hlines : ∀ placed ∈ lines, ∃ file ∈ visited, placed.2.file = some file) :
    ∃ entered, Expansion s visited lines entered out := by
  induction visited, lines using expand.induct s generalizing out with
  | case1 visited =>
      rw [expand_nil] at h
      cases h
      exact ⟨[], .nil s visited⟩
  | case2 visited dir line more e hline =>
      rw [expand_refused hline] at h
      cases h
  | case3 visited dir line more hline ih =>
      rw [expand_plain hline] at h
      obtain ⟨rest, hrest, rfl⟩ := map_eq_ok_iff.mp h
      obtain ⟨entered, hmore⟩ := ih hrest fun p hp => hlines p (List.mem_cons_of_mem _ hp)
      obtain ⟨file, hfile, hfrom⟩ := hlines _ List.mem_cons_self
      exact ⟨entered, hmore.cons_line hfile hfrom (isDirective_eq_false_iff.mpr hline)⟩
  | case4 visited dir line more path column hline hlocate =>
      rw [expand_unlocated hline hlocate] at h
      cases h
  | case5 visited dir line more path column hline name hlocate hknown ih =>
      rw [expand_known hline hlocate hknown] at h
      obtain ⟨entered, hmore⟩ := ih h fun p hp => hlines p (List.mem_cons_of_mem _ hp)
      exact ⟨entered, hmore.cons_known (by simpa using hknown)
        (leads_iff.mpr ⟨path, column, hline, hlocate⟩)⟩
  | case6 visited dir line more path column hline name hlocate hnew e hread =>
      rw [expand_unread hline hlocate hnew hread] at h
      cases h
  | case7 visited dir line more path column hline name hlocate hnew content hread ih =>
      rw [expand_file hline hlocate hnew hread] at h
      have hmore : ∀ placed ∈ more, ∃ file ∈ visited, placed.2.file = some file :=
        fun p hp => hlines p (List.mem_cons_of_mem _ hp)
      obtain ⟨entered, hentered⟩ := ih h fun placed hplaced => by
        rcases List.mem_append.mp hplaced with hplaced | hplaced
        · exact ⟨name, List.mem_cons_self, file_of_mem_linesOf hplaced⟩
        · obtain ⟨file, hfile, hfrom⟩ := hmore placed hplaced
          exact ⟨file, List.mem_cons_of_mem _ hfile, hfrom⟩
      exact ⟨name :: entered, hentered.cons_file (leads_iff.mpr ⟨path, column, hline, hlocate⟩) hread
        (by simpa using hnew) hmore⟩

/-- Lines expand if every directive, in them and in the files that they reach, can be followed. -/
theorem exists_expand (hlines : ∀ placed ∈ lines, Sound s placed ∧
      ∀ next, Leads s placed next → ∀ file, s.Reaches next file → s.Expandable file) :
    ∃ out, expand s visited lines = .ok out := by
  induction visited, lines using expand.induct s with
  | case1 visited => exact ⟨[], expand_nil s visited⟩
  | case2 visited dir line more e hline =>
      obtain ⟨hsound, -⟩ := hlines _ List.mem_cons_self
      obtain ⟨next, hnext⟩ := hsound (by simp [← Bool.not_eq_false, isDirective_eq_false_iff, hline])
      obtain ⟨path, column, hpath, -⟩ := leads_iff.mp hnext
      rw [hline] at hpath
      cases hpath
  | case3 visited dir line more hline ih =>
      obtain ⟨out, hout⟩ := ih fun p hp => hlines p (List.mem_cons_of_mem _ hp)
      refine ⟨line :: out, ?_⟩
      rw [expand_plain hline, hout]
      rfl
  | case4 visited dir line more path column hline hlocate =>
      obtain ⟨hsound, -⟩ := hlines _ List.mem_cons_self
      obtain ⟨next, hnext⟩ := hsound (by simp [← Bool.not_eq_false, isDirective_eq_false_iff, hline])
      obtain ⟨path', column', hline', hlocate'⟩ := leads_iff.mp hnext
      rw [hline] at hline'
      cases hline'
      rw [hlocate] at hlocate'
      cases hlocate'
  | case5 visited dir line more path column hline name hlocate hknown ih =>
      obtain ⟨out, hout⟩ := ih fun p hp => hlines p (List.mem_cons_of_mem _ hp)
      exact ⟨out, (expand_known hline hlocate hknown).trans hout⟩
  | case6 visited dir line more path column hline name hlocate hnew e hread =>
      obtain ⟨-, hreach⟩ := hlines _ List.mem_cons_self
      obtain ⟨content, hcontent, -⟩ :=
        hreach name (leads_iff.mpr ⟨path, column, hline, hlocate⟩) name .refl
      rw [hread] at hcontent
      cases hcontent
  | case7 visited dir line more path column hline name hlocate hnew content hread ih =>
      rw [expand_file hline hlocate hnew hread]
      obtain ⟨-, hreach⟩ := hlines _ List.mem_cons_self
      have hleads := leads_iff.mpr ⟨path, column, hline, hlocate⟩
      refine ih fun placed hplaced => ?_
      rcases List.mem_append.mp hplaced with hplaced | hplaced
      · obtain ⟨content', hcontent, hsound⟩ := hreach name hleads name .refl
        rw [hread] at hcontent
        cases hcontent
        refine ⟨hsound placed hplaced, fun next hnext file hfile => hreach name hleads file ?_⟩
        exact .head ⟨content, hread, placed, hplaced, hnext⟩ hfile
      · exact hlines placed (List.mem_cons_of_mem _ hplaced)

/-! ## Whole files -/

section

variable {root file content : String}

/-- Every file entered from a root is closed under including and gives its own lines, and so is the
root itself. -/
theorem Expansion.closed_root (h : Expansion s [root] (linesOf root content) entered out)
    (hread : s.read root = .ok content) (hfile : file ∈ entered ++ [root]) :
    ∃ content, s.read file = .ok content ∧
      (∀ placed ∈ linesOf file content, isDirective placed.2 →
        ∃ next ∈ entered ++ [root], Leads s placed next) ∧
      out.filter (isFrom file) = ownLines file content := by
  rcases List.mem_append.mp hfile with hfile | hfile
  · exact h.closed file hfile
  · obtain rfl := List.mem_singleton.mp hfile
    have hout : file ∉ entered := fun hin => h.fresh file hin List.mem_cons_self
    refine ⟨content, hread, h.followed, ?_⟩
    rw [h.kept file hout, map_snd_linesOf, ownLines]
    refine List.filter_congr fun l hl => ?_
    rw [← map_snd_linesOf] at hl
    obtain ⟨placed, hplaced, rfl⟩ := List.mem_map.mp hl
    simp [isFrom, file_of_mem_linesOf hplaced]

/-- The files entered from a root are those that it reaches. -/
theorem Expansion.mem_iff_reaches (h : Expansion s [root] (linesOf root content) entered out)
    (hread : s.read root = .ok content) : file ∈ entered ++ [root] ↔ s.Reaches root file := by
  constructor
  · intro hfile
    rcases List.mem_append.mp hfile with hfile | hfile
    · obtain ⟨placed, hplaced, next, hnext, hreach⟩ := h.reached file hfile
      exact .head ⟨content, hread, placed, hplaced, hnext⟩ hreach
    · rw [List.mem_singleton.mp hfile]
      exact .refl
  · intro hreach
    induction hreach with
    | refl => exact List.mem_append_right _ (List.mem_singleton_self _)
    | @tail f next _ hincludes ih =>
        obtain ⟨content', hread', placed, hplaced, hnext⟩ := hincludes
        obtain ⟨content'', hread'', hclosed, -⟩ := h.closed_root hread ih
        rw [hread'] at hread''
        cases hread''
        obtain ⟨next', hin, hnext'⟩ := hclosed placed hplaced hnext.isDirective
        rw [hnext.unique hnext']
        exact hin

/-- The root is located and read, and its lines are expanded. -/
theorem expandFile_eq_ok_iff :
    expandFile s path = .ok out ↔ ∃ root content, s.locate? path = some root ∧
      s.read root = .ok content ∧ expand s [root] (linesOf root content) = .ok out := by
  unfold expandFile
  cases hlocate : s.locate? path with
  | none => simp
  | some root =>
      cases hread : s.read root with
      | error e => simp [hread]
      | ok content => simp [hread]

/-- A file that expands enters exactly the files that it reaches. -/
theorem exists_expansion (h : expandFile s path = .ok out) (hroot : s.locate? path = some root) :
    ∃ content entered, s.read root = .ok content ∧
      Expansion s [root] (linesOf root content) entered out := by
  obtain ⟨root', content, hlocate, hread, hexpand⟩ := expandFile_eq_ok_iff.mp h
  rw [hroot] at hlocate
  cases hlocate
  obtain ⟨entered, hentered⟩ := expansion_of_expand hexpand fun placed hplaced =>
    ⟨root, List.mem_cons_self, file_of_mem_linesOf hplaced⟩
  exact ⟨content, entered, hread, hentered⟩

/-- A file expands exactly when it exists and every file that it reaches can be expanded. -/
theorem exists_expandFile_iff :
    (∃ out, expandFile s path = .ok out) ↔
      ∃ root, s.locate? path = some root ∧ ∀ file, s.Reaches root file → s.Expandable file := by
  constructor
  · rintro ⟨out, h⟩
    obtain ⟨root, _, hroot, -, -⟩ := expandFile_eq_ok_iff.mp h
    obtain ⟨content, entered, hread, hentered⟩ := exists_expansion h hroot
    refine ⟨root, hroot, fun file hreach => ?_⟩
    obtain ⟨content', hread', hclosed, -⟩ :=
      hentered.closed_root hread ((hentered.mem_iff_reaches hread).mpr hreach)
    refine ⟨content', hread', fun placed hplaced hdirective => ?_⟩
    obtain ⟨next, -, hnext⟩ := hclosed placed hplaced hdirective
    exact ⟨next, hnext⟩
  · rintro ⟨root, hroot, hreach⟩
    obtain ⟨content, hread, hsound⟩ := hreach root .refl
    obtain ⟨out, hout⟩ : ∃ out, expand s [root] (linesOf root content) = .ok out := by
      refine exists_expand fun placed hplaced => ⟨hsound placed hplaced, fun next hnext file h => ?_⟩
      exact hreach file (.head ⟨content, hread, placed, hplaced, hnext⟩ h)
    exact ⟨out, expandFile_eq_ok_iff.mpr ⟨root, content, hroot, hread, hout⟩⟩

/-- The lines of a file are numbered upwards. -/
theorem pairwise_ownLines (name content : String) :
    (ownLines name content).Pairwise fun a b => a.number < b.number := by
  refine List.Pairwise.filter _ ?_
  rw [SourceLine.ofText, List.pairwise_map, List.pairwise_iff_getElem]
  intro i j hi hj hij
  simp only [List.getElem_zipIdx]
  omega

end

end Include

/-- A file kept in memory can be read once it is located. -/
theorem Sources.exists_read_inMemory {files : List (String × String)} {path name : String}
    (h : (inMemory files).locate? path = some name) :
    ∃ content, (inMemory files).read name = .ok content := by
  obtain ⟨-, hfile⟩ := Option.filter_eq_some_iff.mp h
  obtain ⟨found, hfound⟩ := Option.isSome_iff_exists.mp hfile
  obtain ⟨⟨path', content⟩, -, heq⟩ :=
    List.mem_map.mp (Entries.mem_of_mem_ofList (Entries.mem_of_get? hfound))
  cases heq
  refine ⟨content, ?_⟩
  rw [read, hfound]

/-- Every file that a located file reaches is located, so it can be read too. -/
theorem Sources.exists_read_of_reaches {files : List (String × String)} {path root file : String}
    (h : (inMemory files).locate? path = some root) (hreach : (inMemory files).Reaches root file) :
    ∃ content, (inMemory files).read file = .ok content := by
  cases ReflTransGen.cases_tail hreach with
  | inl heq =>
      rw [heq]
      exact exists_read_inMemory h
  | inr hlast =>
      obtain ⟨_, -, _, -, _, -, _, -, hlocate⟩ := hlast
      exact exists_read_inMemory hlocate

/-- With files kept in memory, a file expands exactly when it exists and every directive in the
files that it reaches is well formed and leads to a file. The result then has lines of the files
reached only, and of each of them it has the lines that are no directives, each once, in their order
and under their own numbers, however often and in whatever circles the file is included. -/
theorem expandFile_inMemory (files : List (String × String)) (path : String) :
    ((∃ out, expandFile (.inMemory files) path = .ok out) ↔
      ∃ root, (Sources.inMemory files).locate? path = some root ∧
        ∀ file content, (Sources.inMemory files).Reaches root file →
          (Sources.inMemory files).read file = .ok content →
          ∀ placed ∈ linesOf file content, isDirective placed.2 →
            ∃ next, Leads (.inMemory files) placed next) ∧
    ∀ root out, (Sources.inMemory files).locate? path = some root →
      expandFile (.inMemory files) path = .ok out →
      (∀ line ∈ out, ∃ file, (Sources.inMemory files).Reaches root file ∧ line.file = some file) ∧
      ∀ file, (Sources.inMemory files).Reaches root file →
        ∃ content, (Sources.inMemory files).read file = .ok content ∧
          out.filter (isFrom file) =
            ((SourceLine.ofText (some file) content).filter fun line => !isDirective line) ∧
          (out.filter (isFrom file)).Pairwise fun a b => a.number < b.number := by
  constructor
  · rw [exists_expandFile_iff]
    refine exists_congr fun root => and_congr_right fun hroot => forall_congr' fun file => ?_
    constructor
    · rintro hexpandable content hreach hread
      obtain ⟨content', hread', hsound⟩ := hexpandable hreach
      rw [hread] at hread'
      cases hread'
      exact hsound
    · intro hsound hreach
      obtain ⟨content, hread⟩ := Sources.exists_read_of_reaches hroot hreach
      exact ⟨content, hread, hsound content hreach hread⟩
  · intro root out hroot h
    obtain ⟨content, entered, hread, hentered⟩ := exists_expansion h hroot
    constructor
    · intro line hline
      obtain ⟨file, hfile, hfrom⟩ := hentered.origin line hline
      exact ⟨file, (hentered.mem_iff_reaches hread).mp hfile, hfrom⟩
    · intro file hreach
      obtain ⟨content', hread', -, hown⟩ :=
        hentered.closed_root hread ((hentered.mem_iff_reaches hread).mpr hreach)
      refine ⟨content', hread', hown, ?_⟩
      rw [hown]
      exact pairwise_ownLines file content'

/-- Two files that include each other, one of them twice. -/
def circle : List (String × String) :=
  [("/m", "#include \"a\"\n#include 'a'\nint m: 1"), ("/a", "int a: 1\n #include \"./m\"\n")]

theorem circle_reaches : (Sources.inMemory circle).Reaches "/m" "/a" := by
  have hlines : linesOf "/m" "#include \"a\"\n#include 'a'\nint m: 1" =
      [("/", ⟨"#include \"a\"", some "/m", 1⟩), ("/", ⟨"#include 'a'", some "/m", 2⟩),
        ("/", ⟨"int m: 1", some "/m", 3⟩)] := by cbv
  refine .single ⟨_, rfl, _, by rw [hlines]; exact List.mem_cons_self, "a", ?_, by cbv⟩
  exact ⟨[' ', '"', 'a', '"'], by cbv, by decide, '"', .inl rfl, by cbv, by decide⟩

theorem expandFile_circle :
    (Sources.inMemory circle).locate? "/x/../m" = some "/m" ∧
      ∃ out, expandFile (.inMemory circle) "/x/../m" = .ok out ∧ out.length = 2 ∧
        ∃ content, (Sources.inMemory circle).read "/a" = .ok content ∧
          out.filter (isFrom "/a") =
            (SourceLine.ofText (some "/a") content).filter fun line => !isDirective line := by
  have hroot : (Sources.inMemory circle).locate? "/x/../m" = some "/m" := by cbv
  have hout : expandFile (.inMemory circle) "/x/../m" =
      .ok [⟨"int a: 1", some "/a", 1⟩, ⟨"int m: 1", some "/m", 3⟩] := by cbv
  obtain ⟨-, hreached⟩ := (expandFile_inMemory circle "/x/../m").2 "/m" _ hroot hout
  obtain ⟨content, hread, hown, -⟩ := hreached "/a" circle_reaches
  exact ⟨hroot, _, hout, rfl, content, hread, hown⟩

end RowConfig
