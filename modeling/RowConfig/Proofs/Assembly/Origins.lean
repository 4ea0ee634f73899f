import Mathlib.Data.List.DropRight
import RowConfig.Proofs.Assembly.Unclosed

/-!
# Where logical lines begin

A logical line begins with the code of its first physical line: with all of it if the line leaves a
delimiter open, else with what stands before the blanks and backslashes at its end
(`exists_origin_of_assemble`). What is added later stands behind it, and taking blanks and a
backslash off the end of the whole does not reach back to it, since a line that closes a delimiter
holds a character that stays.
-/

namespace RowConfig

open Chars

/-- A character that joining lines may take off the end of a text. -/
def isLoose (c : Char) : Bool := isBlank c || c == '\\'

/-- What a logical line has of its first physical line, which is read in this state. -/
def Scan.kept (s : Scan) (line : SourceLine) : List Char :=
  let read := readCode s 0 none line.text.toList
  if read.state.isOpen then read.code else read.code.rdropWhile isLoose

/-- The text does not end with a character that may be taken off. -/
def Firm (cs : List Char) : Prop := ∀ front c, cs = front ++ [c] → isLoose c = false

section Firm

variable {s : Scan} {c : Char} {u v text body cs : List Char} {column : Nat} {opener : Option Nat}

theorem isBlank_of_isLoose_eq_false (h : isLoose c = false) : isBlank c = false ∧ c ≠ '\\' := by
  rw [isLoose, Bool.or_eq_false_iff, beq_eq_false_iff_ne] at h
  exact h

theorem firm_append_singleton (h : isLoose c = false) (front : List Char) : Firm (front ++ [c]) := by
  intro front' c' heq
  rwa [← (List.cons.inj (List.append_inj' heq rfl).2).1]

theorem firm_rdropWhile (cs : List Char) : Firm (cs.rdropWhile isLoose) := by
  intro front c heq
  have hne : cs.rdropWhile isLoose ≠ [] := by
    rw [heq]
    exact List.append_ne_nil_of_right_ne_nil _ (List.cons_ne_nil _ _)
  have hlast := List.rdropWhile_last_not isLoose cs hne
  simpa [heq] using hlast

/-- Taking blanks off the end of a text leaves what is firm. -/
theorem Firm.prefix_trimEnd (hv : Firm v) (h : v <+: text) : v <+: trimEnd text := by
  rcases List.eq_nil_or_concat' v with rfl | ⟨front, c, rfl⟩
  · exact List.nil_prefix
  · obtain ⟨w, rfl⟩ := h
    obtain ⟨hblank, -⟩ := isBlank_of_isLoose_eq_false (hv front c rfl)
    rw [List.append_assoc, List.singleton_append, trimEnd_append_cons hblank]
    exact ⟨trimEnd w, List.append_assoc _ _ _⟩

/-- So does taking off a backslash. -/
theorem Firm.prefix_beforeBackslash (hv : Firm v) (h : v <+: text)
    (hbody : Joiner.beforeBackslash? text = some body) : v <+: body := by
  have htrim := hv.prefix_trimEnd h
  rw [Joiner.beforeBackslash?_eq_some_iff.mp hbody, List.prefix_concat_iff] at htrim
  rcases htrim with heq | hstarts
  · exact absurd (hv body '\\' heq) (by decide)
  · exact hstarts

/-- Code begins the line that it is read from. -/
theorem code_readCode_prefix (s : Scan) (column : Nat) (opener : Option Nat) (cs : List Char) :
    (readCode s column opener cs).code <+: cs := by
  induction cs generalizing s column opener with
  | nil => exact List.nil_prefix
  | cons c cs ih =>
      rw [readCode]
      split
      · exact List.nil_prefix
      · exact (List.prefix_cons_inj c).mpr (ih _ _ _)

theorem kept_prefix (s : Scan) (line : SourceLine) : s.kept line <+: line.text.toList := by
  have hcode := code_readCode_prefix s 0 none line.text.toList
  unfold Scan.kept
  simp only
  split
  · exact hcode
  · exact (List.rdropWhile_prefix isLoose _).trans hcode

/-- Blanks and backslashes close nothing. -/
theorem isOpen_next_of_isLoose (hs : s.isOpen) (hc : isLoose c) : (s.next c cs).isOpen := by
  have hplain : Scan.isPlain c := Scan.isPlain_of_class (p := isLoose) (by decide) hc
  have hquote := Scan.isQuote_of_isPlain hplain
  have hstep := s.step_next c cs
  generalize s.next c cs = t at hstep
  cases hstep with
  | within | escapes | inside => exact hs
  | opens q _ hopens =>
      rw [Scan.opens?_eq_none hquote] at hopens
      cases hopens
  | code =>
      rw [Scan.code_of_isPlain hplain]
      exact hs
  | closes q _ hcloses =>
      rw [q.delimiter_eq, List.cons_prefix_cons] at hcloses
      rw [← hcloses.1, Scan.isQuote_char] at hquote
      cases hquote

/-- A line that closes what is open holds a character that stays. -/
theorem exists_mem_code_of_closes (hs : s.isOpen)
    (hend : (readCode s column opener cs).state.isOpen = false) :
    ∃ c ∈ (readCode s column opener cs).code, isLoose c = false := by
  induction cs generalizing s column opener with
  | nil =>
      have hend : s.isOpen = false := hend
      rw [hs] at hend
      cases hend
  | cons c cs ih =>
      rw [readCode] at hend ⊢
      split
      · next hhash =>
        rw [if_pos hhash] at hend
        have hend : s.isOpen = false := hend
        rw [hs] at hend
        cases hend
      · next hhash =>
        rw [if_neg hhash] at hend
        cases hc : isLoose c with
        | false => exact ⟨c, List.mem_cons_self, hc⟩
        | true =>
            obtain ⟨d, hd, hloose⟩ := ih (isOpen_next_of_isLoose hs hc) hend
            exact ⟨d, List.mem_cons_of_mem _ hd, hloose⟩

end Firm

/-- The text begins with what is kept of one of the lines, its origin. -/
def BeginsAt (lines : List SourceLine) (origin : SourceLine) (text : List Char) : Prop :=
  ∃ front back, lines = front ++ origin :: back ∧ (Scan.start.afterLines front).kept origin <+: text

section Begins

variable {lines : List SourceLine} {line origin : SourceLine} {u text : List Char}

theorem BeginsAt.trans (h : BeginsAt lines origin u) (hu : u <+: text) :
    BeginsAt lines origin text := by
  obtain ⟨front, back, hlines, hkept⟩ := h
  exact ⟨front, back, hlines, hkept.trans hu⟩

theorem BeginsAt.snoc (h : BeginsAt lines origin text) (line : SourceLine) :
    BeginsAt (lines ++ [line]) origin text := by
  obtain ⟨front, back, rfl, hkept⟩ := h
  exact ⟨front, back ++ [line], List.append_assoc _ _ _, hkept⟩

/-- A line begins what it is the first line of. -/
theorem beginsAt_kept (lines : List SourceLine) (line : SourceLine) :
    BeginsAt (lines ++ [line]) line ((Scan.start.afterLines lines).kept line) :=
  ⟨lines, [], rfl, List.prefix_refl _⟩

end Begins

namespace Joiner

variable {lines : List SourceLine} {line origin : SourceLine} {text : List Char}
  {done : List LogicalLine}

/-- What waits begins at its origin; behind a backslash it does so with a firm part. -/
def WaitingAt (lines : List SourceLine) : Waiting → Prop
  | .nothing => True
  | .joined text origin => ∃ v, BeginsAt lines origin v ∧ Firm v ∧ v <+: text
  | .unclosed text origin _ => BeginsAt lines origin text

theorem beginsAt_emit {v : List Char} (hbegins : BeginsAt lines origin v) (hv : Firm v)
    (htext : v <+: text) : ∀ l ∈ emit text origin, BeginsAt lines l.origin l.text.toList := by
  intro l hl
  unfold emit at hl
  split at hl
  · cases hl
  · next c cs htrim =>
    rw [List.mem_singleton.mp hl]
    have hstarts := hv.prefix_trimEnd htext
    rw [htrim] at hstarts
    exact hbegins.trans (by rwa [String.toList_ofList])

/-- With a further line, the text begins at its origin, and if the line leaves nothing open it does
so with a firm part. -/
theorem beginsAt_extend {read : CodeLine} {opener : Option Location}
    (hwaiting : WaitingAt lines (start.run lines).1.waiting)
    (hread : readCode (Scan.start.afterLines lines) 0 none line.text.toList = read)
    (hextend : (start.run lines).1.extend line read.code = (text, origin, opener)) :
    BeginsAt (lines ++ [line]) origin text ∧
      (read.state.isOpen = false →
        ∃ v, BeginsAt (lines ++ [line]) origin v ∧ Firm v ∧ v <+: text) := by
  unfold extend at hextend
  cases hwaits : (start.run lines).1.waiting with
  | nothing =>
      rw [hwaits] at hextend
      cases hextend
      have hbegins := beginsAt_kept lines line
      unfold Scan.kept at hbegins
      simp only [hread] at hbegins
      refine ⟨?_, fun hopen => ?_⟩
      · split at hbegins
        · exact hbegins
        · exact hbegins.trans (List.rdropWhile_prefix isLoose _)
      · rw [hopen] at hbegins
        exact ⟨_, hbegins, firm_rdropWhile _, List.rdropWhile_prefix isLoose _⟩
  | joined text₀ origin₀ =>
      rw [hwaits] at hextend hwaiting
      cases hextend
      obtain ⟨v, hbegins, hv, htext⟩ := hwaiting
      have hstarts := htext.trans (List.prefix_append _ (trimStart read.code))
      have hbegins := hbegins.snoc line
      exact ⟨hbegins.trans hstarts, fun _ => ⟨v, hbegins, hv, hstarts⟩⟩
  | unclosed text₀ origin₀ opener₀ =>
      rw [hwaits] at hextend hwaiting
      cases hextend
      have hbegins : BeginsAt (lines ++ [line]) origin text₀ := hwaiting.snoc line
      refine ⟨hbegins.trans (List.prefix_append _ _), fun hclosed => ?_⟩
      -- the line closes what the lines before it leave open
      have hopen := (atLineEnd_start.run lines).inside _ _ _ hwaits
      have hscan : (start.run lines).1.scan = Scan.start.afterLines lines := scan_run _ _
      rw [hscan] at hopen
      rw [← hread] at hclosed
      obtain ⟨c, hc, hloose⟩ := exists_mem_code_of_closes hopen hclosed
      rw [hread] at hc
      obtain ⟨a, b, hcode⟩ := List.append_of_mem hc
      refine ⟨text₀ ++ '\n' :: a ++ [c], ?_, firm_append_singleton hloose _, b, ?_⟩
      · rw [List.append_assoc]
        exact hbegins.trans (List.prefix_append _ _)
      · rw [hcode]
        simp only [List.append_assoc, List.cons_append, List.nil_append]

/-- What is complete begins at its origin, and so does what waits. -/
theorem beginsAt_run (lines : List SourceLine) :
    (∀ l ∈ (start.run lines).2, BeginsAt lines l.origin l.text.toList) ∧
      WaitingAt lines (start.run lines).1.waiting := by
  induction lines using List.reverseRecOn with
  | nil => exact ⟨nofun, trivial⟩
  | append_singleton lines line ih =>
      obtain ⟨hdone, hwaiting⟩ := ih
      have hscan : (start.run lines).1.scan = Scan.start.afterLines lines := scan_run _ _
      have hdone : ∀ l ∈ (start.run lines).2, BeginsAt (lines ++ [line]) l.origin l.text.toList :=
        fun l hl => (hdone l hl).snoc line
      rw [run_snoc]
      simp only [List.forall_mem_append]
      unfold feed
      simp only [hscan]
      generalize hread : readCode (Scan.start.afterLines lines) 0 none line.text.toList = read
      generalize hextend : (start.run lines).1.extend line read.code = extended
      obtain ⟨text, origin, opener⟩ := extended
      obtain ⟨hbegins, hfirm⟩ := beginsAt_extend hwaiting hread hextend
      split
      · exact ⟨⟨hdone, nofun⟩, hbegins⟩
      · next hopen =>
        obtain ⟨v, hbegins, hv, htext⟩ := hfirm (Bool.eq_false_iff.mpr hopen)
        split
        · next body hbody =>
          exact ⟨⟨hdone, nofun⟩, v, hbegins, hv, hv.prefix_beforeBackslash htext hbody⟩
        · exact ⟨⟨hdone, beginsAt_emit hbegins hv htext⟩, trivial⟩

end Joiner

/-- A logical line begins with what is kept of its origin, which is one of the physical lines. -/
theorem exists_origin_of_assemble {physical : List SourceLine} {lines : List LogicalLine}
    (h : assemble physical = .ok lines) :
    ∀ l ∈ lines, BeginsAt physical l.origin l.text.toList := by
  obtain ⟨hdone, hwaiting⟩ := Joiner.beginsAt_run physical
  have happend := Joiner.start.assemble_append physical []
  rw [List.append_nil] at happend
  have hfinish : ((Joiner.start.run physical).1.finish).map ((Joiner.start.run physical).2 ++ ·) =
      .ok lines := happend.symm.trans h
  obtain ⟨last, hlast, rfl⟩ := map_eq_ok_iff.mp hfinish
  refine List.forall_mem_append.mpr ⟨hdone, ?_⟩
  unfold Joiner.finish at hlast
  split at hlast
  · cases hlast
    nofun
  · next text origin hjoined =>
    cases hlast
    rw [hjoined] at hwaiting
    obtain ⟨v, hbegins, hv, htext⟩ := hwaiting
    exact Joiner.beginsAt_emit hbegins hv htext
  · split at hlast
    · split at hlast <;> cases hlast
    · cases hlast

end RowConfig
