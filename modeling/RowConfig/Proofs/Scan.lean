import RowConfig.LogicalLine
import RowConfig.Proofs.Chars
import RowConfig.Split

/-!
# Characters of code

The stages that read a line all run `Scan` and look at characters of code only: a hash there begins
a comment, a separator there cuts, a bracket there counts. `Scan.CodeAll` says that every character
of code in a text is of some kind, and the lemmas below say for each stage that it goes through such
a text without stopping. A text is put together from parts by `codeAll_append` and `run_append`.
What one character can do to the reader is listed once (`Scan.Step`). A separator may also stand
where it does not cut, in a literal or in brackets (`Scan.Uncut`). What is cut at a colon is a named
argument if a name stands before the first colon among its code (`splitNamed?_eq_some_iff`).
-/

namespace RowConfig

open Chars

theorem Quote.delimiter_eq (q : Quote) : q.delimiter = q.char :: q.delimiter.tail := by
  cases q <;> rfl

theorem Quote.char_ne_backslash (q : Quote) : q.char ≠ '\\' := by cases q <;> decide

namespace Scan

/-- Every character of code that a reader in state `s` meets in a text, which `after` follows, has
the property. -/
def CodeAll (P : Char → Prop) (s : Scan) : List Char → List Char → Prop
  | [], _ => True
  | c :: cs, after =>
    (s.isCode c (cs ++ after) → P c) ∧ CodeAll P (s.next c (cs ++ after)) cs after

variable {s : Scan} {P Q : Char → Prop} {c sep : Char} {cs u v after : List Char}

theorem CodeAll.imp (hPQ : ∀ c, P c → Q c) (h : s.CodeAll P u after) : s.CodeAll Q u after := by
  induction u generalizing s with
  | nil => trivial
  | cons c u ih => exact ⟨fun hc => hPQ c (h.1 hc), ih h.2⟩

theorem run_append (s : Scan) (u v after : List Char) :
    s.run (u ++ v) after = (s.run u (v ++ after)).run v after := by
  induction u generalizing s with
  | nil => rfl
  | cons c u ih =>
      show (s.next c (u ++ v ++ after)).run (u ++ v) after = _
      rw [ih, List.append_assoc]
      rfl

theorem codeAll_append :
    s.CodeAll P (u ++ v) after ↔
      s.CodeAll P u (v ++ after) ∧ (s.run u (v ++ after)).CodeAll P v after := by
  induction u generalizing s with
  | nil => exact ⟨fun h => ⟨trivial, h⟩, fun h => h.2⟩
  | cons c u ih =>
      rw [List.cons_append, CodeAll, CodeAll, ih, List.append_assoc, and_assoc]
      rfl

/-- What reading `c`, which `cs` follows, makes of the state. -/
inductive Step (s : Scan) (c : Char) (cs : List Char) : Scan → Prop where
  | within (hrest : 0 < s.rest) : Step s c cs { s with rest := s.rest - 1 }
  | opens (q : Quote) (hquote : s.quote = none) (hopens : s.opens? c cs = some q) :
      Step s c cs (s.opened q)
  | code (hrest : s.rest = 0) (hquote : s.quote = none) (hopens : s.opens? c cs = none) :
      Step s c cs (s.code c)
  | escapes (q : Quote) (hquote : s.quote = some q) (hescapes : q.hasEscapes) (hc : c = '\\') :
      Step s c cs { s with rest := 1 }
  | closes (q : Quote) (hquote : s.quote = some q) (hcloses : q.delimiter <+: c :: cs) :
      Step s c cs (s.closed q)
  | inside (q : Quote) (hquote : s.quote = some q) : Step s c cs s

theorem step_next (s : Scan) (c : Char) (cs : List Char) : s.Step c cs (s.next c cs) := by
  unfold next
  split
  · next hrest => exact .within hrest
  · next hrest =>
    have hrest : s.rest = 0 := Nat.eq_zero_of_not_pos hrest
    split
    · next hquote =>
      split
      · next q hopens => exact .opens q hquote hopens
      · next hopens => exact .code hrest hquote hopens
    · next q hquote =>
      split
      · next hescape =>
        obtain ⟨hescapes, hc⟩ := Bool.and_eq_true_iff.mp hescape
        exact .escapes q hquote hescapes (beq_iff_eq.mp hc)
      · split
        · next hcloses => exact .closes q hquote (List.isPrefixOf_iff_prefix.mp hcloses)
        · exact .inside q hquote

/-! ## In and about literals -/

section Literals

variable {q : Quote}

theorem next_opens (hquote : s.quote = none) (hrest : s.rest = 0) (hopens : s.opens? c cs = some q) :
    s.next c cs = s.opened q := by
  rw [next, hrest, hquote]
  simp only [Nat.lt_irrefl, if_false, hopens]

theorem next_delimiter (hquote : s.quote = some q) (hrest : s.rest = 0)
    (h : q.delimiter <+: c :: cs) : s.next c cs = s.closed q := by
  have hc : c ≠ '\\' := by
    have hchar := h
    rw [q.delimiter_eq, List.cons_prefix_cons] at hchar
    rw [← hchar.1]
    exact q.char_ne_backslash
  rw [next, hrest, hquote]
  simp only [Nat.lt_irrefl, if_false, beq_eq_false_iff_ne.mpr hc, Bool.and_false,
    Bool.false_eq_true, List.isPrefixOf_iff_prefix.mpr h, if_true]

theorem next_within (hquote : s.quote = some q) (hrest : s.rest = 0)
    (hc : q.hasEscapes → c ≠ '\\') (h : ¬q.delimiter <+: c :: cs) : s.next c cs = s := by
  have hescape : (q.hasEscapes && c == '\\') = false := by
    rw [Bool.eq_false_iff, ne_eq, Bool.and_eq_true, beq_iff_eq]
    exact fun hescape => hc hescape.1 hescape.2
  have hprefix : q.delimiter.isPrefixOf (c :: cs) = false := by
    rwa [Bool.eq_false_iff, ne_eq, List.isPrefixOf_iff_prefix]
  rw [next, hrest, hquote]
  simp only [Nat.lt_irrefl, hescape, hprefix, Bool.false_eq_true, if_false]

/-- A backslash takes the character behind it along. -/
theorem next_backslash (hquote : s.quote = some q) (hrest : s.rest = 0) (hq : q.hasEscapes) :
    s.next '\\' cs = { s with rest := 1 } := by
  rw [next, hrest, hquote]
  simp only [Nat.lt_irrefl, hq, beq_self_eq_true, Bool.and_self, if_true, if_false]

theorem next_escaped (hrest : s.rest = 0) : ({ s with rest := 1 } : Scan).next c cs = s := by
  show (if 0 < 1 then ({ s with rest := 0 } : Scan) else _) = s
  rw [if_pos Nat.zero_lt_one, ← hrest]

end Literals

/-! ## What is code -/

/-- The characters that open a literal. -/
def isQuote (c : Char) : Bool := c == '"' || c == '\''

theorem opening?_eq_none (h : isQuote c = false) : Quote.opening? (c :: cs) = none := by
  simp only [isQuote, Bool.or_eq_false_iff, beq_eq_false_iff_ne] at h
  unfold Quote.opening?
  split <;> simp_all

/-- Outside of literals only a quote can open one. -/
theorem opens?_eq_none (h : isQuote c = false) : s.opens? c cs = none := by
  unfold opens?
  rw [opening?_eq_none h]
  split <;> rfl

theorem isCode_of_atCode (hs : s.atCode) (h : isQuote c = false) : s.isCode c cs = true := by
  rw [isCode, hs, opens?_eq_none h]
  rfl

theorem next_of_atCode (hs : s.atCode) (h : isQuote c = false) : s.next c cs = s.code c := by
  simp only [atCode, Bool.and_eq_true, Option.isNone_iff_eq_none, beq_iff_eq] at hs
  rw [next, hs.1, hs.2]
  simp only [opens?_eq_none h, Nat.lt_irrefl, if_false]

/-- A separator outside of literals and brackets separates. -/
theorem separates_of_atTop (htop : s.atTop) (hs : s.atCode) (h : isQuote c = false)
    (rest : List Char) : s.separates c c rest = true := by
  rw [separates, htop, isCode_of_atCode hs h]
  exact beq_self_eq_true c

theorem codeAll_of_forall (h : ∀ c ∈ u, P c) : s.CodeAll P u after := by
  induction u generalizing s with
  | nil => trivial
  | cons c u ih =>
      exact ⟨fun _ => h c List.mem_cons_self, ih fun d hd => h d (List.mem_cons_of_mem _ hd)⟩

/-- The quotes and the brackets. -/
def delimiters : List Char := ['"', '\'', '(', ')', '[', ']', '{', '}']

/-- The character is no quote and no bracket. -/
def isPlain (c : Char) : Bool := !delimiters.contains c

/-- Characters of a class that has no quotes and brackets are plain. -/
theorem isPlain_of_class {p : Char → Bool} (hp : delimiters.all fun d => !p d) (h : p c) :
    isPlain c := by
  rw [isPlain, Bool.not_eq_true', Bool.eq_false_iff]
  intro hin
  have hc := List.all_eq_true.mp hp c (List.contains_iff_mem.mp hin)
  rw [h] at hc
  cases hc

theorem isQuote_of_isPlain (h : isPlain c) : isQuote c = false := by
  unfold isPlain delimiters at h
  unfold isQuote
  simp_all

theorem isPlain_of_isBlank (h : isBlank c) : isPlain c := isPlain_of_class (by decide) h

theorem code_of_isPlain (h : isPlain c) : s.code c = { s with previous := some c } := by
  have hbracket : s.bracket c = s := by
    unfold bracket
    split <;> first | rfl | (exfalso; revert h; decide)
  rw [code, hbracket]

/-- Reading plain text outside of literals changes nothing but the character read last. -/
theorem run_plain (hs : s.atCode) (h : ∀ c ∈ u, isPlain c) :
    s.run u after = { s with previous := u.getLast?.or s.previous } := by
  induction u generalizing s with
  | nil => rfl
  | cons c u ih =>
      have hc := h c List.mem_cons_self
      have hs' : ({ s with previous := some c } : Scan).atCode := hs
      rw [run, next_of_atCode hs (isQuote_of_isPlain hc), code_of_isPlain hc,
        ih hs' fun d hd => h d (List.mem_cons_of_mem _ hd), List.getLast?_cons]
      cases u.getLast? <;> rfl

/-! ## The stages -/

/-- A text without a hash among its code is read to its end, and then what follows it. -/
theorem readCode_append {column : Nat} {opener : Option Nat} (h : s.CodeAll (· ≠ '#') u after) :
    ∃ opener', readCode s column opener (u ++ after) =
      { readCode (s.run u after) (column + u.length) opener' after with
        code := u ++ (readCode (s.run u after) (column + u.length) opener' after).code } := by
  induction u generalizing s column opener with
  | nil => exact ⟨opener, rfl⟩
  | cons c u ih =>
      obtain ⟨hc, hu⟩ := h
      have hhash : (s.atCode && c == '#') = false := by
        rw [Bool.eq_false_iff]
        intro hhash
        obtain ⟨hs, heq⟩ := Bool.and_eq_true_iff.mp hhash
        have heq : c = '#' := beq_iff_eq.mp heq
        -- a hash opens no literal, so it would be code
        exact hc (isCode_of_atCode hs (by rw [heq]; decide)) heq
      have hread : ∀ column opener, ∃ opener', readCode (s.next c (u ++ after)) column opener _ = _ :=
        fun column opener => ih hu
      obtain ⟨opener', hread⟩ :=
        hread (column + 1) (if s.opensLine c (u ++ after) then some column else opener)
      refine ⟨opener', ?_⟩
      rw [List.cons_append, readCode, hhash, if_neg Bool.false_ne_true, hread, List.length_cons,
        Nat.add_comm u.length 1, ← Nat.add_assoc]
      rfl

/-- A line without a hash among its code is read to its end. -/
theorem readCode_eq {column : Nat} {opener : Option Nat} (h : s.CodeAll (· ≠ '#') u []) :
    ∃ opener', readCode s column opener u = ⟨u, s.run u [], opener'⟩ := by
  have hread : ∃ opener', readCode s column opener (u ++ []) = _ := readCode_append h
  obtain ⟨opener', hread⟩ := hread
  rw [List.append_nil] at hread
  refine ⟨opener', hread.trans ?_⟩
  rw [readCode, List.append_nil]

/-- There is at most one piece more than there are characters to cut at. -/
theorem length_pieces_le (sep : Char) (s : Scan) (cs : List Char) :
    (s.pieces sep cs).length ≤ cs.length + 1 := by
  induction cs generalizing s with
  | nil => exact Nat.le_refl _
  | cons c cs ih =>
      rw [pieces]
      split
      · exact Nat.succ_le_succ (ih _)
      · rw [List.length_modifyHead]
        exact Nat.le_succ_of_le (ih _)

/-- As many characters as pieces, at least, stand before a piece that is not empty. -/
theorem lt_length_of_pieces {sep : Char} {s : Scan} {cs piece : List Char} {i : Nat}
    (h : (s.pieces sep cs)[i]? = some piece) (hpiece : piece ≠ []) : i < cs.length := by
  induction cs generalizing s i with
  | nil =>
      cases i with
      | zero =>
          cases h
          exact absurd rfl hpiece
      | succ i => cases h
  | cons c cs ih =>
      cases i with
      | zero => exact Nat.zero_lt_succ _
      | succ i =>
          rw [pieces] at h
          split at h
          · exact Nat.succ_lt_succ (ih h)
          · rw [List.getElem?_modifyHead_succ] at h
            exact Nat.lt_succ_of_lt (ih h)

/-! ## Texts that are not cut -/

/-- A reader in state `s` meets no separator at top level in a text, which `after` follows. -/
def Uncut (sep : Char) (s : Scan) : List Char → List Char → Prop
  | [], _ => True
  | c :: cs, after =>
    s.separates sep c (cs ++ after) = false ∧ Uncut sep (s.next c (cs ++ after)) cs after

theorem uncut_append : s.Uncut sep (u ++ v) after ↔
    s.Uncut sep u (v ++ after) ∧ (s.run u (v ++ after)).Uncut sep v after := by
  induction u generalizing s with
  | nil => simp [Uncut, run]
  | cons c u ih => simp only [List.cons_append, Uncut, run, ih, List.append_assoc, and_assoc]

/-- A separator that cuts is code. -/
theorem uncut_of_codeAll (h : s.CodeAll (· ≠ sep) u after) : s.Uncut sep u after := by
  induction u generalizing s with
  | nil => trivial
  | cons c u ih =>
      refine ⟨?_, ih h.2⟩
      rw [Bool.eq_false_iff]
      intro hsep
      simp only [separates, Bool.and_eq_true, beq_iff_eq] at hsep
      exact h.1 hsep.1.2 hsep.2

/-- A text that is not cut belongs to the first piece. -/
theorem Uncut.pieces_append (h : s.Uncut sep u after) :
    s.pieces sep (u ++ after) = ((s.run u after).pieces sep after).modifyHead (u ++ ·) := by
  induction u generalizing s with
  | nil =>
      show _ = (s.pieces sep after).modifyHead id
      rw [List.modifyHead_id]
      rfl
  | cons c u ih =>
      rw [List.cons_append, pieces, h.1, if_neg Bool.false_ne_true, ih h.2,
        List.modifyHead_modifyHead]
      rfl

/-- A text that is not cut stands before the first separator. -/
theorem Uncut.cut?_append (h : s.Uncut sep u after) :
    s.cut? sep (u ++ after) =
      ((s.run u after).cut? sep after).map fun (before, rest) => (u ++ before, rest) := by
  induction u generalizing s with
  | nil => simp [run]
  | cons c u ih =>
      rw [List.cons_append, cut?, h.1, if_neg Bool.false_ne_true, ih h.2, Option.map_map]
      rfl

theorem Uncut.cut?_eq_none (h : s.Uncut sep u []) : s.cut? sep u = none := by
  have hcut := h.cut?_append
  rw [List.append_nil] at hcut
  exact hcut

/-- A text without separators among its code belongs to the first piece. -/
theorem pieces_append (h : s.CodeAll (· ≠ sep) u after) :
    s.pieces sep (u ++ after) = ((s.run u after).pieces sep after).modifyHead (u ++ ·) :=
  (uncut_of_codeAll h).pieces_append

/-- A text without separators among its code stands before the first one. -/
theorem cut?_append (h : s.CodeAll (· ≠ sep) u after) :
    s.cut? sep (u ++ after) =
      ((s.run u after).cut? sep after).map fun (before, rest) => (u ++ before, rest) :=
  (uncut_of_codeAll h).cut?_append

/-! ## Balanced texts -/

/-- The closing brackets. -/
def isClosing (c : Char) : Bool := c == ')' || c == ']' || c == '}'

theorem isClosing_of_isPlain (h : isPlain c) : isClosing c = false := by
  unfold isPlain delimiters at h
  unfold isClosing
  simp_all

/-- A text without closing brackets among its code leaves no bracket unmatched. -/
theorem balanced_append (h : s.CodeAll (fun c => isClosing c = false) u after) :
    s.balanced (u ++ after) = (s.run u after).balanced after := by
  induction u generalizing s with
  | nil => rfl
  | cons c u ih =>
      obtain ⟨hc, hu⟩ := h
      have hmatched : (s.atCode && s.unmatched c) = false := by
        rw [Bool.eq_false_iff]
        intro hmatched
        obtain ⟨hs, hclosing⟩ := Bool.and_eq_true_iff.mp hmatched
        -- only a closing bracket can be unmatched, and no bracket opens a literal
        have hcase : c = ')' ∨ c = ']' ∨ c = '}' := by
          unfold unmatched at hclosing
          split at hclosing <;> simp_all
        have hcode : s.isCode c (u ++ after) := by
          apply isCode_of_atCode hs
          rcases hcase with rfl | rfl | rfl <;> decide
        have hfalse := hc hcode
        rcases hcase with rfl | rfl | rfl <;> cases hfalse
      rw [List.cons_append, balanced, hmatched, ih hu]
      rfl

end Scan

/-- Names hold no quotes and brackets. -/
theorem isPlain_of_isIdentifierPart {c : Char} (h : isIdentifierPart c) : Scan.isPlain c :=
  Scan.isPlain_of_class (by decide) h

/-! ## Pieces and named arguments -/

/-- Placing pieces leaves them as they are. -/
theorem map_snd_placePieces (sep : Char) (start : Nat) (pieces : List (List Char)) :
    (placePieces sep start pieces).map Prod.snd = pieces := by
  induction pieces generalizing start with
  | nil => rfl
  | cons piece pieces ih => rw [placePieces, List.map_cons, ih]

theorem map_snd_splitTop (sep : Char) (cs : List Char) :
    (splitTop sep cs).map Prod.snd = Scan.start.pieces sep cs := map_snd_placePieces sep 0 _

theorem Scan.eq_of_cut? {s : Scan} {sep : Char} {cs u v : List Char}
    (h : s.cut? sep cs = some (u, v)) : cs = u ++ sep :: v := by
  induction cs generalizing s u with
  | nil => cases h
  | cons c cs ih =>
      rw [cut?] at h
      split at h
      · next hsep =>
        cases h
        rw [beq_iff_eq.mp (Bool.and_eq_true_iff.mp hsep).2]
        rfl
      · obtain ⟨⟨before, after⟩, hcut, heq⟩ := Option.map_eq_some_iff.mp h
        cases heq
        rw [ih hcut, List.cons_append]

/-- A named argument is a name between blanks and a colon, and the colon ends it or a blank
follows. -/
theorem splitNamed?_eq_some_iff {cs name value : List Char} {offset : Nat} :
    splitNamed? cs = some ⟨name, value, offset⟩ ↔
      ∃ lead tail, (∀ c ∈ lead, isBlank c) ∧ (∀ c ∈ tail, isBlank c) ∧ isIdentifier name ∧
        atWordEnd value ∧ cs = lead ++ (name ++ tail) ++ ':' :: value ∧
        offset = byteSize (lead ++ (name ++ tail)) + 1 := by
  constructor
  · intro h
    unfold splitNamed? at h
    split at h
    · cases h
    · next before after hcut =>
      simp only at h
      split at h
      · next hparts =>
        obtain ⟨hname, hend⟩ := Bool.and_eq_true_iff.mp hparts
        cases h
        have htrims := trims_trim before
        have hcs := Scan.eq_of_cut? hcut
        generalize indent before = lead, trim before = name at htrims hname
        cases htrims with
        | blank _ => cases hname
        | @solid _ _ tail hlead _ htail => exact ⟨lead, tail, hlead, htail, hname, hend, hcs, rfl⟩
      · cases h
  · rintro ⟨lead, tail, hlead, htail, hname, hend, rfl, rfl⟩
    have hplain : ∀ c ∈ lead ++ (name ++ tail), Scan.isPlain c ∧ c ≠ ':' := by
      have hblank : ∀ c, isBlank c → Scan.isPlain c ∧ c ≠ ':' := fun c hc =>
        ⟨Scan.isPlain_of_isBlank hc, ne_of_class hc (by decide)⟩
      intro c hc
      rcases List.mem_append.mp hc with hc | hc
      · exact hblank c (hlead c hc)
      rcases List.mem_append.mp hc with hc | hc
      · have hpart := isIdentifierPart_of_mem hname hc
        exact ⟨isPlain_of_isIdentifierPart hpart, ne_of_class hpart (by decide)⟩
      · exact hblank c (htail c hc)
    have hcode : Scan.start.CodeAll (· ≠ ':') (lead ++ (name ++ tail)) (':' :: value) :=
      Scan.codeAll_of_forall fun c hc => (hplain c hc).2
    have hcut : cutTop? ':' (lead ++ (name ++ tail) ++ ':' :: value) =
        some (lead ++ (name ++ tail), value) := by
      rw [cutTop?, Scan.cut?_append hcode, Scan.run_plain rfl fun c hc => (hplain c hc).1, Scan.cut?,
        Scan.separates_of_atTop rfl rfl (by decide)]
      simp
    have htrim : trim (lead ++ (name ++ tail)) = name :=
      (solid_of_isIdentifier hname).trim_between hlead htail
    unfold splitNamed?
    simp only [hcut, htrim, hname, hend, Bool.and_self, if_true]

end RowConfig
