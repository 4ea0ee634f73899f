import RowConfig.FileSystem
import RowConfig.Proofs.Entries
import RowConfig.Proofs.Inclusion

/-!
# Normal forms of paths

An absolute path names the place that is found by following its parts from the root, where going up
from the root stays there (`Path.place`); a disk resolves paths to these places (`Disk.resolve_eq`).
The normal form of a path takes its parts onto a stack on which the root is an element like any
other, so that going up from the root drops it. The normal form has the parts of the place in any
case, but it is absolute exactly if the path nowhere goes up from the root (`Path.normalize_exact`).
Files kept in memory are therefore found under all absolute paths that name their place and leave
the root alike, and under no others.
-/

namespace RowConfig

open Chars

/-! ## Parts between slashes -/

namespace Chars

variable {sep : Char} {cs part : List Char}

theorem splitAll_eq (sep : Char) (cs : List Char) : splitAll sep cs = cs.splitOn sep := by
  induction cs with
  | nil => rw [List.splitOn_nil]; rfl
  | cons c cs ih =>
      rw [splitAll, List.splitOn_cons_eq_if_modifyHead, ih]
      simp only [beq_iff_eq]

theorem splitAll_ne_nil (sep : Char) (cs : List Char) : splitAll sep cs ≠ [] := by
  rw [splitAll_eq]
  exact List.splitOn_ne_nil sep cs

/-- A separator is in no part. -/
theorem not_mem_of_mem_splitAll (h : part ∈ splitAll sep cs) : sep ∉ part := by
  induction cs generalizing part with
  | nil =>
      rw [List.mem_singleton.mp h]
      exact List.not_mem_nil
  | cons c cs ih =>
      rw [splitAll] at h
      split at h
      · rcases List.mem_cons.mp h with rfl | h
        · exact List.not_mem_nil
        · exact ih h
      · next hc =>
        obtain ⟨first, more, hparts⟩ := List.exists_cons_of_ne_nil (splitAll_ne_nil sep cs)
        rw [hparts, List.modifyHead_cons] at h
        rw [hparts] at ih
        rcases List.mem_cons.mp h with rfl | h
        · rw [List.mem_cons, not_or]
          exact ⟨Ne.symm hc, ih List.mem_cons_self⟩
        · exact ih (List.mem_cons_of_mem _ h)

end Chars

namespace Path

variable {path other name : String} {names here parts : List String}

/-- The name of a file or directory. -/
structure IsName (name : String) : Prop where
  nonempty : name ≠ ""
  notHere : name ≠ "."
  notUp : name ≠ ".."
  noSlash : '/' ∉ name.toList

/-! ## Places -/

/-- The part of a path stays where it is: it is empty or a dot. -/
def stays (part : String) : Bool := part = "" ∨ part = "."

/-- Follows a part of a path from a place. Two dots go to the directory above, which for the root is
the root itself. -/
def go (here : List String) (part : String) : List String :=
  if stays part then here
  else if part = ".." then here.dropLast
  else here ++ [part]

/-- The place that an absolute path names. -/
def place (path : String) : List String := (Disk.parts path).foldl go []

/-- Following the parts from a place, two dots are met at the root. -/
def leavesRoot (here : List String) : List String → Bool
  | [] => false
  | part :: parts => (part == ".." && here.isEmpty) || leavesRoot (go here part) parts

/-- The absolute path goes up from the root. -/
def climbs (path : String) : Bool := leavesRoot [] (Disk.parts path)

theorem not_mem_of_mem_parts (h : name ∈ Disk.parts path) : '/' ∉ name.toList := by
  obtain ⟨part, hpart, rfl⟩ := List.mem_map.mp h
  rw [String.toList_ofList]
  exact not_mem_of_mem_splitAll hpart

/-- A place is given by names. -/
theorem isName_of_mem_foldl_go (hhere : ∀ n ∈ here, IsName n)
    (hparts : ∀ p ∈ parts, '/' ∉ p.toList) : ∀ n ∈ parts.foldl go here, IsName n := by
  induction parts generalizing here with
  | nil => exact hhere
  | cons part parts ih =>
      obtain ⟨hpart, hparts⟩ := List.forall_mem_cons.mp hparts
      refine ih ?_ hparts
      unfold go
      split
      · exact hhere
      · next hstays =>
        rw [stays, decide_eq_true_eq, not_or] at hstays
        split
        · exact fun n hn => hhere n (List.mem_of_mem_dropLast hn)
        · next hup =>
          rw [List.forall_mem_append, List.forall_mem_singleton]
          exact ⟨hhere, hstays.1, hstays.2, hup, hpart⟩

theorem isName_of_mem_place : ∀ n ∈ place path, IsName n :=
  isName_of_mem_foldl_go (List.forall_mem_nil _) fun _ h => not_mem_of_mem_parts h

theorem IsName.stays_eq_false (h : IsName name) : stays name = false :=
  decide_eq_false (not_or.mpr ⟨h.nonempty, h.notHere⟩)

theorem foldl_go_of_isName (h : ∀ n ∈ names, IsName n) (here : List String) :
    names.foldl go here = here ++ names := by
  induction names generalizing here with
  | nil => exact (List.append_nil here).symm
  | cons name names ih =>
      obtain ⟨hname, hnames⟩ := List.forall_mem_cons.mp h
      have hgo : go here name = here ++ [name] := by
        rw [go, hname.stays_eq_false, if_neg Bool.false_ne_true, if_neg hname.notUp]
      rw [List.foldl_cons, hgo, ih hnames, List.append_assoc]
      rfl

/-! ## The stack -/

/-- The steps taken from the root to a place, last first, with the root or without it. -/
def stack (root : Bool) (here : List String) : List Step :=
  (here.map .into).reverse ++ if root then [.root] else []

theorem stack_concat (root : Bool) (here : List String) (name : String) :
    stack root (here ++ [name]) = .into name :: stack root here := by
  unfold stack
  rw [List.map_append, List.reverse_append]
  rfl

/-- The step that a part of a path is. -/
def stepOf (part : String) : Step := if part = ".." then .up else .into part

/-- Following a part from a place, the root stays below it unless two dots are met there. -/
theorem follow_stack (root : Bool) (here : List String) {part : String} (h : stays part = false) :
    follow (stack root here) (stepOf part) =
      stack (root && !(part == ".." && here.isEmpty)) (go here part) := by
  rw [go, h, if_neg Bool.false_ne_true]
  by_cases hup : part = ".."
  · rw [stepOf, if_pos hup, if_pos hup, hup]
    rcases List.eq_nil_or_concat' here with rfl | ⟨before, name, rfl⟩
    · cases root <;> rfl
    · have hne : (before ++ [name]).isEmpty = false := by cases before <;> rfl
      rw [stack_concat, List.dropLast_concat, hne, Bool.and_false, Bool.not_false, Bool.and_true]
      rfl
  · rw [stepOf, if_neg hup, if_neg hup, stack_concat, beq_false_of_ne hup, Bool.false_and,
      Bool.not_false, Bool.and_true]
    rfl

/-- Following some parts, it stays unless two dots are met there anywhere. -/
theorem foldl_follow (root : Bool) (here parts : List String) :
    ((parts.filter (!stays ·)).map stepOf).foldl follow (stack root here) =
      stack (root && !leavesRoot here parts) (parts.foldl go here) := by
  induction parts generalizing root here with
  | nil => rw [leavesRoot, Bool.not_false, Bool.and_true]; rfl
  | cons part parts ih =>
      rw [leavesRoot, List.foldl_cons]
      cases hstays : stays part with
      | true =>
          have hup : (part == "..") = false := by
            rcases of_decide_eq_true hstays with rfl | rfl <;> decide
          have hgo : go here part = here := if_pos hstays
          rw [List.filter_cons_of_neg (by simp [hstays]), ih, hup, hgo, Bool.false_and,
            Bool.false_or]
      | false =>
          rw [List.filter_cons_of_pos (by simp [hstays]), List.map_cons, List.foldl_cons,
            follow_stack root here hstays, ih, Bool.not_or, Bool.and_assoc]

theorem names_eq (path : String) : Path.names path = (Disk.parts path).filter (!stays ·) := by
  rw [Path.names, Disk.parts, List.filter_map]
  congr 1
  apply List.filter_congr
  intro part _
  have hempty : String.ofList part = "" ↔ part = [] := by
    rw [← String.toList_inj, String.toList_ofList]
    rfl
  have hdot : String.ofList part = "." ↔ part = ['.'] := by
    rw [← String.toList_inj, String.toList_ofList]
    rfl
  rw [Bool.eq_iff_iff]
  simp [stays, hempty, hdot]

/-- The normal form of an absolute path leads from the root to its place, and has the root as its
first step unless the path goes up from it. -/
theorem normalSteps_of_isAbsolute (h : isAbsolute path) :
    normalSteps path = (if climbs path then [] else [.root]) ++ (place path).map .into := by
  have hsteps : steps path = .root :: ((Disk.parts path).filter (!stays ·)).map stepOf := by
    rw [steps, h, names_eq]
    rfl
  rw [normalSteps, hsteps, List.foldl_cons]
  show (List.foldl follow (stack true []) _).reverse = _
  rw [foldl_follow, stack, List.reverse_append, List.reverse_reverse, Bool.true_and]
  show _ = (if climbs path then [] else [Step.root]) ++ _
  unfold climbs
  cases leavesRoot [] (Disk.parts path) <;> rfl

/-! ## The text of a normal form -/

/-- The names of a place between slashes. -/
def relative (names : List String) : String := "/".intercalate names

theorem toList_relative (names : List String) :
    (relative names).toList = ['/'].intercalate (names.map String.toList) := by
  rw [relative, String.toList_intercalate]
  rfl

theorem relative_cons_append (dir name : String) (names : List String) :
    relative ((dir ++ name) :: names) = dir ++ relative (name :: names) := by
  rw [← String.toList_inj, String.toList_append, toList_relative, toList_relative, List.map_cons,
    List.map_cons, String.toList_append]
  cases names with
  | nil => rw [List.map_nil, List.intercalate_singleton, List.intercalate_singleton]
  | cons next names =>
      rw [List.intercalate_cons_of_ne_nil (by simp), List.intercalate_cons_of_ne_nil (by simp)]
      simp only [List.append_assoc]

theorem isAbsolute_eq_false (h : '/' ∉ name.toList) : isAbsolute name = false := by
  rw [isAbsolute, beq_eq_false_iff_ne]
  exact fun hhead => h (List.mem_of_mem_head? hhead)

/-- The text ends, and not with a slash. -/
def EndsInName (dir : String) : Prop := ∃ c, dir.toList.getLast? = some c ∧ c ≠ '/'

theorem IsName.exists_head? (h : IsName name) : ∃ c, name.toList.head? = some c ∧ c ≠ '/' := by
  cases hhead : name.toList.head? with
  | none => exact absurd (String.toList_eq_nil_iff.mp (List.head?_eq_none_iff.mp hhead)) h.nonempty
  | some c => exact ⟨c, rfl, fun hc => h.noSlash (hc ▸ List.mem_of_mem_head? hhead)⟩

theorem IsName.endsInName (h : IsName name) (dir : String) : EndsInName (dir ++ name) := by
  rw [EndsInName, String.toList_append, List.getLast?_append]
  cases hlast : name.toList.getLast? with
  | none =>
      exact absurd (String.toList_eq_nil_iff.mp (List.getLast?_eq_none_iff.mp hlast)) h.nonempty
  | some c => exact ⟨c, rfl, fun hc => h.noSlash (hc ▸ List.mem_of_getLast? hlast)⟩

/-- Behind a name a further one is put after a slash. -/
theorem join_of_endsInName {dir : String} (hdir : EndsInName dir) (hname : '/' ∉ name.toList) :
    join dir name = dir ++ "/" ++ name := by
  obtain ⟨c, hlast, hc⟩ := hdir
  have hempty : dir.isEmpty = false := by
    rw [Bool.eq_false_iff, ne_eq, String.isEmpty_iff]
    rintro rfl
    cases hlast
  have hslash : (dir.toList.getLast? == some '/') = false := by
    rw [hlast, beq_eq_false_iff_ne]
    exact fun heq => hc (Option.some.inj heq)
  rw [join, isAbsolute_eq_false hname, hempty, hslash]
  rfl

theorem foldl_join_of_endsInName {dir : String} (hdir : EndsInName dir)
    (h : ∀ n ∈ names, IsName n) : names.foldl join dir = relative (dir :: names) := by
  induction names generalizing dir with
  | nil => rfl
  | cons name names ih =>
      obtain ⟨hname, hnames⟩ := List.forall_mem_cons.mp h
      rw [List.foldl_cons, join_of_endsInName hdir hname.noSlash,
        ih (hname.endsInName (dir ++ "/")) hnames]
      rfl

/-- Names are joined behind nothing, or behind the root, with slashes between them. -/
theorem foldl_join {dir : String} (hdir : dir = "" ∨ dir = "/") (h : ∀ n ∈ names, IsName n) :
    names.foldl join dir = dir ++ relative names := by
  cases names with
  | nil => exact (String.append_empty).symm
  | cons name names =>
      obtain ⟨hname, hnames⟩ := List.forall_mem_cons.mp h
      have hjoin : join dir name = dir ++ name := by
        rw [join, isAbsolute_eq_false hname.noSlash]
        rcases hdir with rfl | rfl <;> rfl
      rw [List.foldl_cons, hjoin, foldl_join_of_endsInName (hname.endsInName dir) hnames,
        relative_cons_append]

/-- What the normal form of a path begins with. -/
def rootText (path : String) : String := if climbs path then "" else "/"

/-- The normal form of an absolute path: its place, written from the root unless the path goes up
from it. -/
theorem normalize_of_isAbsolute (h : isAbsolute path) :
    normalize path = rootText path ++ relative (place path) := by
  have hroot : ((if climbs path then [] else [.root]) : List Step).foldl
      (fun path step => join path step.text) "" = rootText path := by
    unfold rootText
    cases climbs path <;> rfl
  rw [normalize, normalSteps_of_isAbsolute h, ofSteps, List.foldl_append, hroot, List.foldl_map]
  refine foldl_join ?_ isName_of_mem_place
  unfold rootText
  cases climbs path
  · exact .inr rfl
  · exact .inl rfl

/-! ## Reading a normal form -/

theorem parts_relative (h : ∀ n ∈ names, IsName n) (hne : names ≠ []) :
    Disk.parts (relative names) = names := by
  have hslash : ∀ l ∈ names.map String.toList, '/' ∉ l := by
    rw [List.forall_mem_map]
    exact fun n hn => (h n hn).noSlash
  rw [Disk.parts, splitAll_eq, toList_relative,
    List.splitOn_intercalate '/' hslash (by simpa using hne), List.map_map]
  conv_rhs => rw [← List.map_id names]
  exact List.map_congr_left fun n _ => String.ofList_toList

theorem parts_slash (path : String) : Disk.parts ("/" ++ path) = "" :: Disk.parts path := by
  rw [Disk.parts, String.toList_append]
  rfl

/-- The parts of a normal form are names, with nothing before the first slash. -/
theorem parts_normal (h : ∀ n ∈ names, IsName n) {part : String}
    (hpart : part ∈ Disk.parts (relative names)) : part = "" ∨ IsName part := by
  by_cases hne : names = []
  · rw [hne] at hpart
    exact .inl (List.mem_singleton.mp hpart)
  · rw [parts_relative h hne] at hpart
    exact .inr (h part hpart)

theorem place_relative (h : ∀ n ∈ names, IsName n) : place (relative names) = names := by
  by_cases hne : names = []
  · rw [hne]
    rfl
  · rw [place, parts_relative h hne, foldl_go_of_isName h, List.nil_append]

theorem place_slash (path : String) : place ("/" ++ path) = place path := by
  rw [place, parts_slash]
  rfl

theorem isAbsolute_relative (h : ∀ n ∈ names, IsName n) : isAbsolute (relative names) = false := by
  cases names with
  | nil => rfl
  | cons name names =>
      obtain ⟨c, hhead, hc⟩ := (h name List.mem_cons_self).exists_head?
      have hfirst : (relative (name :: names)).toList.head? = some c := by
        rw [← String.append_empty (s := name), relative_cons_append, String.toList_append,
          List.head?_append, hhead]
        rfl
      rw [isAbsolute, hfirst, beq_eq_false_iff_ne]
      exact fun heq => hc (Option.some.inj heq)

/-- The normal form of a path names the place that the path names. -/
theorem place_normalize (h : isAbsolute path) : place (normalize path) = place path := by
  have hplace : place (relative (place path)) = place path := place_relative isName_of_mem_place
  rw [normalize_of_isAbsolute h, rootText]
  cases climbs path with
  | true => rwa [if_pos rfl, String.empty_append]
  | false => rwa [if_neg Bool.false_ne_true, place_slash]

/-- It is absolute where the path does not go up from the root. -/
theorem isAbsolute_normalize (h : isAbsolute path) :
    isAbsolute (normalize path) = !climbs path := by
  rw [normalize_of_isAbsolute h, rootText]
  cases climbs path with
  | true =>
      rw [if_pos rfl, String.empty_append]
      exact isAbsolute_relative isName_of_mem_place
  | false =>
      rw [if_neg Bool.false_ne_true, isAbsolute, String.toList_append]
      rfl

theorem isName_of_mem_parts_normalize (h : isAbsolute path) {part : String}
    (hpart : part ∈ Disk.parts (normalize path)) : part = "" ∨ IsName part := by
  rw [normalize_of_isAbsolute h, rootText] at hpart
  cases hclimbs : climbs path with
  | true =>
      rw [hclimbs, if_pos rfl, String.empty_append] at hpart
      exact parts_normal isName_of_mem_place hpart
  | false =>
      rw [hclimbs, if_neg Bool.false_ne_true, parts_slash] at hpart
      rcases List.mem_cons.mp hpart with rfl | hpart
      · exact .inl rfl
      · exact parts_normal isName_of_mem_place hpart

/-- Two absolute paths have one normal form exactly if they name one place and both or neither go up
from the root. -/
theorem normalize_eq_iff (h : isAbsolute path) (h' : isAbsolute other) :
    normalize other = normalize path ↔ place other = place path ∧ climbs other = climbs path := by
  constructor
  · intro heq
    have hplace := congrArg place heq
    have habsolute := congrArg isAbsolute heq
    rw [place_normalize h', place_normalize h] at hplace
    rw [isAbsolute_normalize h', isAbsolute_normalize h] at habsolute
    exact ⟨hplace, Bool.not_inj habsolute⟩
  · rintro ⟨hplace, hclimbs⟩
    rw [normalize_of_isAbsolute h', normalize_of_isAbsolute h, rootText, rootText, hplace, hclimbs]

end Path

/-! ## Files on a disk and in memory -/

namespace Disk

variable {d : Disk} {cwd here there parts : List String} {path : String}

theorem eq_foldl_of_walk (h : d.walk here parts = .ok there) :
    there = parts.foldl Path.go here := by
  induction parts generalizing here with
  | nil =>
      cases h
      rfl
  | cons part parts ih =>
      rw [walk] at h
      split at h
      · cases h
      · split at h
        · next hstays =>
          have hgo : Path.go here part = here := if_pos (decide_eq_true hstays)
          rw [List.foldl_cons, hgo]
          exact ih h
        · next hstays =>
          rw [List.foldl_cons, Path.go, if_neg (by simpa [Path.stays] using hstays)]
          split at h
          · next hup =>
            rw [if_pos hup]
            exact ih h
          · next hup =>
            rw [if_neg hup]
            split at h
            · cases h
            · split at h
              · exact ih h
              · cases h

/-- Where an absolute path leads to on a disk is the place that it names. -/
theorem resolve_eq (habsolute : Path.isAbsolute path) (h : d.resolve cwd path = .ok there) :
    there = Path.place path := by
  unfold resolve at h
  split at h
  · cases h
  · split at h
    · cases h
    · exact eq_foldl_of_walk h

end Disk

namespace Sources

variable {earlier later : List (String × String)} {path other content : String}

/-- A file is found under its normal path if no later one has this path. -/
theorem get?_inMemory (earlier : List (String × String)) (content : String)
    (hlater : ∀ file ∈ later, Path.normalize file.1 ≠ Path.normalize path) :
    Entries.get? (inMemory (earlier ++ (path, content) :: later)).files (Path.normalize path) =
      some (.text content) := by
  rw [inMemory, List.map_append, List.map_cons]
  apply Entries.get?_ofList_append
  intro hin
  obtain ⟨entry, hentry, hname⟩ := List.mem_map.mp hin
  obtain ⟨file, hfile, rfl⟩ := List.mem_map.mp hentry
  exact hlater file hfile hname

/-- A file kept in memory under a path, and not replaced by a later one, is located and read under
another path, and where it was included before, a directive with this path is passed over. -/
def FoundUnder (path other : String) : Prop :=
  ∀ earlier content later, (∀ file ∈ later, Path.normalize file.1 ≠ Path.normalize path) →
    let s := inMemory (earlier ++ (path, content) :: later)
    s.locate? other = some (Path.normalize path) ∧ s.readPath other = .ok content ∧
      ∀ visited dir line more, visited.contains (Path.normalize path) → Include.Names line other →
        Include.expand s visited ((dir, line) :: more) = Include.expand s visited more

/-- Absolute paths find the files whose paths have the same normal form. -/
theorem foundUnder_iff (hother : Path.isAbsolute other) :
    FoundUnder path other ↔ Path.normalize other = Path.normalize path := by
  constructor
  · intro h
    obtain ⟨hlocate, -⟩ := h [] "" [] (List.forall_mem_nil _)
    exact Option.some.inj (Option.filter_eq_some_iff.mp hlocate).1
  · intro heq earlier content later hlater
    have hget := get?_inMemory earlier content hlater
    have hlocate : (inMemory (earlier ++ (path, content) :: later)).locate? other =
        some (Path.normalize path) := by
      show (some (Path.normalize other)).filter _ = _
      rw [heq, Option.filter_some, hget]
      rfl
    refine ⟨hlocate, ?_, fun visited dir line more hvisited hnames => ?_⟩
    · rw [readPath, hlocate]
      simp only [read, hget]
    · obtain ⟨column, hline⟩ := Include.ofLine_of_names hnames
      have hjoin : Path.join dir other = other := if_pos hother
      exact Include.expand_known hline (hjoin.symm ▸ hlocate) hvisited

end Sources

namespace Path

/-- The normal form of an absolute path has no dots for parts, names the place that the path names,
and is absolute exactly if the path nowhere goes up from the root. A file kept in memory under the
path is found under those absolute paths that name its place and go up from the root, or do not, as
it does. -/
theorem normalize_exact {path : String} (habsolute : isAbsolute path) :
    (isAbsolute (normalize path) ↔ climbs path = false) ∧
    (∀ part ∈ Disk.parts (normalize path), part ≠ "." ∧ part ≠ "..") ∧
    place (normalize path) = place path ∧
    ∀ other, isAbsolute other →
      (Sources.FoundUnder path other ↔ place other = place path ∧ climbs other = climbs path) := by
  refine ⟨?_, ?_, place_normalize habsolute, fun other hother => ?_⟩
  · rw [isAbsolute_normalize habsolute, Bool.not_eq_true']
  · intro part hpart
    rcases isName_of_mem_parts_normalize habsolute hpart with rfl | hname
    · decide
    · exact ⟨hname.notHere, hname.notUp⟩
  · rw [Sources.foundUnder_iff hother]
    exact normalize_eq_iff habsolute hother

/-- A file added under one way of writing its path, with two dots behind more names than they drop,
is read under another. -/
theorem normalize_exact_detour :
    isAbsolute "/x/y/.././../a/b" ∧ isAbsolute "//a/./b/" ∧
      isAbsolute (normalize "/x/y/.././../a/b") ∧
      (Sources.inMemory [("/x/y/.././../a/b", "int n: 1")]).readPath "//a/./b/" =
        .ok "int n: 1" := by
  have habsolute : isAbsolute "/x/y/.././../a/b" := by cbv
  have hother : isAbsolute "//a/./b/" := by cbv
  obtain ⟨hroot, -, -, hfound⟩ := normalize_exact habsolute
  obtain ⟨-, hread, -⟩ :=
    (hfound _ hother).mpr ⟨by cbv, by cbv⟩ [] "int n: 1" [] (List.forall_mem_nil _)
  exact ⟨habsolute, hother, hroot.mpr (by cbv), hread⟩

/-- Going up from the root leaves it, so the normal form is relative, and a path of the same place
does not find the file. -/
theorem not_foundUnder_above_root :
    isAbsolute "/../a" ∧ isAbsolute "/a" ∧ place "/../a" = place "/a" ∧
      isAbsolute (normalize "/../a") = false ∧
      (Sources.inMemory [("/a", "x")]).locate? "/a" = some "/a" ∧
      (Sources.inMemory [("/a", "x")]).locate? "/../a" = none ∧
      ¬ Sources.FoundUnder "/a" "/../a" := by
  have hlocate : (Sources.inMemory [("/a", "x")]).locate? "/../a" = none := by cbv
  refine ⟨by cbv, by cbv, by cbv, by cbv, by cbv, hlocate, fun h => ?_⟩
  obtain ⟨hfound, -⟩ := h [] "x" [] (List.forall_mem_nil _)
  rw [List.nil_append, hlocate] at hfound
  cases hfound

end Path

end RowConfig
