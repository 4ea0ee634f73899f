import RowConfig.Sources

/-!
# Includes

An include directive stands for the lines of the file that it names, relative to the directory of
the file that it stands in. Each file is expanded once; where it is included again, nothing is put.
Every line keeps its own file and number.
-/

namespace RowConfig

open Chars

namespace Include

/-- The word that begins a directive. -/
def directive : List Char := "#include".toList

/-- A path between two quotes of one kind, not empty. -/
def unquote? (cs : List Char) : Option (List Char) :=
  let inside (q : Char) := (stripStart? [q] cs).bind (stripEnd? [q])
  ((inside '"').or (inside '\'')).filter fun path => !path.isEmpty

/-- What a line asks for. -/
inductive Request where
  /-- The line is no directive. -/
  | nothing
  /-- The file with this path; the path begins at this column. -/
  | file (path : String) (column : Nat)
deriving DecidableEq, Repr

def ofLine (line : SourceLine) : Except Fault Request :=
  let cs := line.text.toList
  match stripStart? directive (trimStart cs) with
  | none => .ok .nothing
  | some rest =>
    if !atWordEnd rest then .ok .nothing
    else
      let quoted := trim rest
      let column := cs.length - (trimStart rest).length + 1
      match unquote? quoted with
      | some path => .ok (.file (String.ofList path) (column + 1))
      | none =>
        .error (.unexpectedLine (line.location column (max quoted.length 1)) .malformedInclude)

/-- The lines of a file, each with the directory of the file. -/
def linesOf (name content : String) : List (String × SourceLine) :=
  (SourceLine.ofText (some name) content).map fun line => (Path.parent name, line)

/-- The number of lines that a file can still put into the document, and one for its directive. -/
def weight (visited : List String) : String × Content → Nat
  | (name, .text content) => if visited.contains name then 0 else (linesOf name content).length + 1
  | (_, .notText) => 0

/-- The number of lines that the files not yet expanded can put into the document. -/
def ahead (visited : List String) : Entries Content → Nat
  | [] => 0
  | file :: files => weight visited file + ahead visited files

theorem weight_cons_le (visited : List String) (name : String) (file : String × Content) :
    weight (name :: visited) file ≤ weight visited file := by
  obtain ⟨k, content⟩ := file
  cases content with
  | notText => simp [weight]
  | text c =>
    simp only [weight, List.contains_cons]
    cases visited.contains k with
    | true => simp
    | false => simp only [Bool.or_false]; split <;> simp

theorem ahead_cons_le (visited : List String) (name : String) (files : Entries Content) :
    ahead (name :: visited) files ≤ ahead visited files := by
  induction files with
  | nil => exact Nat.le_refl 0
  | cons file files ih => exact Nat.add_le_add (weight_cons_le visited name file) ih

/-- Expanding a file puts no more lines into the document than were counted for it. -/
theorem length_linesOf_add_ahead_lt {s : Sources} {visited : List String} {name content : String}
    (hread : s.read name = .ok content) (hout : visited.contains name = false) :
    (linesOf name content).length + ahead (name :: visited) s.files < ahead visited s.files := by
  have hget : Entries.get? s.files name = some (.text content) := by
    unfold Sources.read at hread
    split at hread <;> simp_all
  generalize s.files = files at hget
  induction files with
  | nil => simp [Entries.get?] at hget
  | cons file files ih =>
    obtain ⟨k, c⟩ := file
    simp only [ahead]
    by_cases hk : k = name
    · -- the first file of this name is the one that was read, and its weight becomes zero
      subst hk
      obtain rfl : c = .text content := by simpa [Entries.get?] using hget
      have := ahead_cons_le visited k files
      have hnew : weight (k :: visited) (k, .text content) = 0 := by simp [weight]
      have hold : weight visited (k, .text content) = (linesOf k content).length + 1 := by
        simp only [weight, hout, Bool.false_eq_true, if_false]
      omega
    · -- the file that was read is further on
      have := ih (by simpa [Entries.get?, hk] using hget)
      have := weight_cons_le visited name (k, c)
      omega

/-- Expands lines that stand in the given directories, the files in `visited` being expanded
already. An included file takes the place of its directive. -/
def expand (s : Sources) (visited : List String) :
    List (String × SourceLine) → Except Fault (List SourceLine)
  | [] => .ok []
  | (dir, line) :: more =>
    match ofLine line with
    | .error e => .error e
    | .ok .nothing => (expand s visited more).map (line :: ·)
    | .ok (.file path column) =>
      match s.locate? (Path.join dir path) with
      | none => .error (.includeNotFound (line.location column path.length) path)
      | some name =>
        if _known : visited.contains name then expand s visited more
        else
          match _opened : s.read name with
          | .error e => .error e
          | .ok content => expand s (name :: visited) (linesOf name content ++ more)
termination_by lines => lines.length + ahead visited s.files
decreasing_by
  · simp
  · simp
  · have := length_linesOf_add_ahead_lt _opened (by simpa using _known)
    simp only [List.length_append, List.length_cons]
    omega

end Include

/-- The lines of a text, its includes expanded relative to a directory. -/
def expandText (s : Sources) (dir text : String) : Except Fault (List SourceLine) :=
  Include.expand s [] ((SourceLine.ofText none text).map fun line => (dir, line))

/-- The lines of a file and of everything that it includes. -/
def expandFile (s : Sources) (path : String) : Except Fault (List SourceLine) :=
  match s.locate? path with
  | none => .error (.io (.notFound path))
  | some name =>
    match s.read name with
    | .error e => .error e
    | .ok content => Include.expand s [name] (Include.linesOf name content)

end RowConfig
