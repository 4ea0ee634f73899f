import RowConfig.Proofs.Assembly.Backslash
import RowConfig.Proofs.GlobalLines

/-!
# Tokens in lists of arguments

A literal, a literal in the brackets of a call and a list in matched brackets are each read as one
(`Whole`): a reader at top level is at top level again behind them, and finds no place inside where
it could cut. In brackets it reads as it would without, only deeper (`Scan.Deeper`). A token that
stands in a list of arguments (`Stands`) is therefore cut out of the list with nothing but what
leads to it and the blanks behind it (`Stands.exists_pieces_eq`).
-/

namespace RowConfig

open Chars

namespace Scan

variable {s t : Scan} {sep c : Char} {cs u v after : List Char} {p : Option Char} {m n : Nat}

/-- The state outside of all literals and brackets, this character of code being the last. -/
def top (p : Option Char) : Scan := { start with previous := p }

/-! ## Inside of brackets -/

/-- The state `t` is `s` with further open brackets about it. A literal may open in both or in
neither. -/
structure Deeper (m n : Nat) (s t : Scan) : Prop where
  quote : t.quote = s.quote
  parens : t.parens = s.parens + m
  brackets : t.brackets = s.brackets + n
  opens : mayOpenAfter t.previous = mayOpenAfter s.previous
  rest : t.rest = s.rest

theorem Deeper.code (h : Deeper m n s t) (hmatched : s.unmatched c = false) :
    Deeper m n (s.code c) (t.code c) := by
  obtain ⟨hquote, hparens, hbrackets, -, hrest⟩ := h
  unfold unmatched at hmatched
  unfold Scan.code bracket
  split <;> constructor <;> simp_all <;> omega

/-- A reader goes on in brackets as it does without, as long as it closes none of them. -/
theorem Deeper.next (h : Deeper m n s t) (hmatched : (s.atCode && s.unmatched c) = false) :
    Deeper m n (s.next c cs) (t.next c cs) := by
  have hopens : t.opens? c cs = s.opens? c cs := by rw [opens?, opens?, h.opens]
  unfold Scan.next
  rw [h.rest, h.quote, hopens]
  split
  · exact ⟨rfl, h.parens, h.brackets, h.opens, rfl⟩
  · next hrest =>
    have hrest : s.rest = 0 := Nat.eq_zero_of_not_pos hrest
    cases hquote : s.quote with
    | none =>
        simp only
        split
        · exact ⟨rfl, h.parens, h.brackets, rfl, rfl⟩
        · apply h.code
          simpa [atCode, hquote, hrest] using hmatched
    | some q =>
        simp only
        split
        · exact ⟨rfl, h.parens, h.brackets, h.opens, rfl⟩
        · split
          · exact ⟨rfl, h.parens, h.brackets, rfl, rfl⟩
          · exact h

/-- What begins a balanced text is read in brackets as it is without, whatever follows the text. -/
theorem Deeper.run (h : Deeper m n s t) (hbalanced : s.balanced (u ++ v)) (hafter : bareAhead after) :
    Deeper m n (s.run u v) (t.run u (v ++ after)) := by
  induction u generalizing s t with
  | nil => exact h
  | cons c u ih =>
      rw [List.cons_append, balanced, Bool.and_eq_true, Bool.not_eq_true'] at hbalanced
      have hnext : Deeper m n (s.next c (u ++ v)) (t.next c (u ++ v)) := h.next hbalanced.1
      rw [Scan.run, Scan.run, ← List.append_assoc, next_append hafter]
      exact ih hnext hbalanced.2

/-- A balanced text is not cut in brackets. -/
theorem Deeper.uncut (h : Deeper m n s t) (hdeep : 0 < m + n) (hbalanced : s.balanced u)
    (hafter : bareAhead after) (sep : Char) : t.Uncut sep u after := by
  induction u generalizing s t with
  | nil => trivial
  | cons c u ih =>
      rw [balanced, Bool.and_eq_true, Bool.not_eq_true'] at hbalanced
      have htop : t.atTop = false := by
        have := h.parens
        have := h.brackets
        simp only [atTop, Bool.and_eq_false_iff, beq_eq_false_iff_ne]
        omega
      have hnext : Deeper m n (s.next c u) (t.next c u) := h.next hbalanced.1
      rw [Uncut, next_append hafter, separates, htop, Bool.false_and, Bool.false_and]
      exact ⟨rfl, ih hnext hbalanced.2⟩

/-- In brackets a balanced text closes none of them. -/
theorem Deeper.balanced (h : Deeper m n s t) (hbalanced : s.balanced u) (hafter : bareAhead after) :
    t.balanced (u ++ after) = (t.run u after).balanced after := by
  induction u generalizing s t with
  | nil => rfl
  | cons c u ih =>
      rw [Scan.balanced, Bool.and_eq_true, Bool.not_eq_true'] at hbalanced
      have hmatched : (t.atCode && t.unmatched c) = false := by
        have hcode : t.atCode = s.atCode := by rw [atCode, atCode, h.quote, h.rest]
        have hcounts : t.unmatched c → s.unmatched c := by
          unfold unmatched
          split <;> simp [h.parens, h.brackets] <;> omega
        rw [hcode, Bool.eq_false_iff]
        intro hclosed
        obtain ⟨hs, hc⟩ := Bool.and_eq_true_iff.mp hclosed
        rw [hs, hcounts hc] at hbalanced
        cases hbalanced.1
      have hnext : Deeper m n (s.next c u) (t.next c u) := h.next hbalanced.1
      rw [List.cons_append, Scan.balanced, hmatched, Scan.run, next_append hafter]
      exact ih hnext hbalanced.2

theorem atTop_of_balanced (h : s.balanced u) : (s.run u []).atTop := by
  induction u generalizing s with
  | nil => exact h
  | cons c u ih =>
      rw [balanced, Bool.and_eq_true] at h
      rw [run, List.append_nil]
      exact ih h.2

theorem eq_top_of_atTop (htop : s.atTop) (hs : s.atCode) : s = top s.previous := by
  obtain ⟨quote, parens, brackets, previous, rest⟩ := s
  simp_all [atTop, atCode, top, start]

/-- A balanced text leaves the reader at top level, between two units. -/
theorem exists_run_eq_top (h : start.balanced u) : ∃ q, start.run u [] = top q := by
  have htop := atTop_of_balanced h
  have hstart : start.Ends (u ++ []) := fun _ => ⟨.double, List.nil_prefix⟩
  have hcode : (start.run u []).atCode := by
    refine hstart.run.atCode ?_ rfl
    simp only [atTop, Bool.and_eq_true, Option.isNone_iff_eq_none] at htop
    exact htop.1.1
  exact ⟨_, eq_top_of_atTop htop hcode⟩

/-! ## Pieces around a place -/

theorem pieces_ne_nil (sep : Char) (s : Scan) (cs : List Char) : s.pieces sep cs ≠ [] := by
  induction cs generalizing s with
  | nil => simp [pieces]
  | cons c cs ih =>
      rw [pieces]
      split
      · simp
      · simpa using ih _

/-- The pieces with the separators between them are the text. -/
theorem intercalate_pieces (sep : Char) (s : Scan) (cs : List Char) :
    [sep].intercalate (s.pieces sep cs) = cs := by
  induction cs generalizing s with
  | nil => simp [pieces]
  | cons c cs ih =>
      have hrest := ih (s.next c cs)
      obtain ⟨piece, more, hpieces⟩ :=
        List.exists_cons_of_ne_nil (pieces_ne_nil sep (s.next c cs) cs)
      rw [pieces]
      split
      · next hsep =>
        simp only [separates, Bool.and_eq_true, beq_iff_eq] at hsep
        rw [List.intercalate_cons_of_ne_nil (pieces_ne_nil _ _ _), hrest, hsep.2]
        rfl
      · rw [hpieces] at hrest ⊢
        rw [List.modifyHead_cons]
        cases more with
        | nil => simpa using hrest
        | cons next more => rw [List.intercalate_cons_cons_left, hrest]

/-- A literal that may open behind one character may open behind another. -/
theorem opens?_top (hopen : mayOpenAfter p) : (top p).opens? c cs = start.opens? c cs := by
  rw [opens?, opens?, show mayOpenAfter (top p).previous = true from hopen]
  rfl

/-- So a reader goes on alike. -/
theorem next_top (hopen : mayOpenAfter p) : (top p).next c cs = start.next c cs := by
  have hbracket : (top p).code c = start.code c := by
    unfold code bracket
    split <;> rfl
  unfold next
  rw [opens?_top hopen, hbracket]
  rfl

theorem separates_top (hopen : mayOpenAfter p) :
    (top p).separates sep c cs = start.separates sep c cs := by
  rw [separates, separates, isCode, isCode, opens?_top hopen]
  rfl

theorem pieces_top (hopen : mayOpenAfter p) : (top p).pieces sep u = start.pieces sep u := by
  cases u with
  | nil => rfl
  | cons c u => rw [pieces, pieces, next_top hopen, separates_top hopen]

theorem next_top_of_isPlain (h : isPlain c) (p : Option Char) (cs : List Char) :
    (top p).next c cs = top (some c) := by
  rw [next_of_atCode rfl (isQuote_of_isPlain h), code_of_isPlain h]
  rfl

/-- At a comma between pieces the reader is at top level, whatever comes later. -/
theorem pieces_append_of_cons {first lead : List Char} {front : List (List Char)}
    (h : s.pieces ',' u = first :: (front ++ [lead])) (after : List Char) :
    s.pieces ',' (u ++ after) =
      first :: (front ++ (top (some ',')).pieces ',' (lead ++ after)) := by
  induction u generalizing s first front with
  | nil => simp [pieces] at h
  | cons c u ih =>
      rw [pieces] at h
      split at h
      · next hsep =>
        obtain ⟨rfl, hrest⟩ := List.cons.inj h
        simp only [separates, Bool.and_eq_true, beq_iff_eq] at hsep
        obtain ⟨⟨htop, hcode⟩, rfl⟩ := hsep
        have hs : s.atCode := (Bool.and_eq_true_iff.mp hcode).1
        have hnext : ∀ rest, s.next ',' rest = top (some ',') := by
          intro rest
          rw [eq_top_of_atTop htop hs, next_top_of_isPlain (by decide)]
        rw [List.cons_append, pieces, separates_of_atTop htop hs (by decide), if_pos rfl, hnext]
        rw [hnext] at hrest
        cases front with
        | nil =>
            have hlead := intercalate_pieces ',' (top (some ',')) u
            rw [hrest, List.nil_append, List.intercalate_singleton] at hlead
            rw [hlead, List.nil_append]
        | cons second front => rw [ih hrest, List.cons_append]
      · next hsep =>
        -- the comma lies further on, so the reader does not look past it
        obtain ⟨piece, more, hpieces⟩ := List.exists_cons_of_ne_nil (pieces_ne_nil ',' (s.next c u) u)
        rw [hpieces, List.modifyHead_cons] at h
        obtain ⟨rfl, rfl⟩ := List.cons.inj h
        have hcomma : ',' ∈ u := by
          rw [← intercalate_pieces ',' (s.next c u) u, hpieces,
            List.intercalate_cons_of_ne_nil (by simp)]
          simp
        obtain ⟨x, y, rfl⟩ := List.append_of_mem hcomma
        have hnext : s.next c (x ++ ',' :: y ++ after) = s.next c (x ++ ',' :: y) := by
          rw [List.append_assoc, List.cons_append, next_append rfl, next_append rfl]
        have hseparates : s.separates ',' c (x ++ ',' :: y ++ after) =
            s.separates ',' c (x ++ ',' :: y) := by
          rw [List.append_assoc, List.cons_append, separates, separates, isCode, isCode,
            opens?_append rfl, opens?_append rfl]
        rw [List.cons_append, pieces, hseparates, if_neg hsep, hnext, ih hpieces,
          List.modifyHead_cons]

/-- What follows the complete pieces of a text is read at top level, where a literal may open. -/
theorem exists_pieces_append {front : List (List Char)} {lead : List Char}
    (h : start.pieces ',' u = front ++ [lead]) (after : List Char) :
    ∃ p, mayOpenAfter p ∧
      start.pieces ',' (u ++ after) = front ++ (top p).pieces ',' (lead ++ after) := by
  cases front with
  | nil =>
      have hlead := intercalate_pieces ',' start u
      rw [h, List.nil_append, List.intercalate_singleton] at hlead
      exact ⟨none, rfl, by rw [hlead]; rfl⟩
  | cons first front => exact ⟨some ',', rfl, pieces_append_of_cons h after⟩

theorem run_top (h : ∀ c ∈ u, isPlain c) : (top p).run u after = top (u.getLast?.or p) :=
  run_plain rfl h

end Scan

/-! ## Tokens -/

/-- The text is read as one: blanks neither begin nor end it, and a reader at top level that enters
it where a literal may open is at top level again behind it, having met no comma and no colon in it
at which it could be cut. -/
structure Whole (token : List Char) : Prop where
  solid : Solid token
  reads : ∀ p after, Scan.mayOpenAfter p → Scan.bareAhead after →
    (∃ q, (Scan.top p).run token after = Scan.top q) ∧
      ∀ sep ∈ [',', ':'], (Scan.top p).Uncut sep token after

theorem whole_quoted (k : String) : Whole (quoted k) := by
  refine ⟨solid_quoted k, fun p after hopen hafter => ?_⟩
  have hnext : after.head? ≠ some '"' := by
    intro hhead
    rw [Scan.bareAhead, hhead] at hafter
    cases hafter
  obtain ⟨⟨q, hrun⟩, hcode⟩ := passes_quoted k (Scan.top p) after rfl hopen hnext
  exact ⟨⟨q, hrun⟩, fun sep _ => Scan.uncut_of_codeAll (hcode.imp fun c => False.elim)⟩

/-- In brackets a balanced text is read as at top level, up to the bracket that closes. -/
theorem Scan.run_brackets {opening closing : Char} {body : List Char} (hpair : IsPair opening closing)
    (hdeep : ∀ p, (Scan.code (Scan.top p) opening).atTop = false) (hbody : isBalanced body)
    (p : Option Char) (after : List Char) :
    (∃ q, ((Scan.top p).code opening).run body (closing :: after) =
      { (Scan.top p).code opening with previous := q }) ∧
      ∀ sep, ((Scan.top p).code opening).Uncut sep body (closing :: after) := by
  have hinside : ((Scan.top p).code opening).atCode := hpair.inside p
  generalize hopened : (Scan.top p).code opening = o at hinside
  have hprevious : o.previous = some opening := by rw [← hopened]; rfl
  obtain ⟨hquote, hrest⟩ : o.quote = none ∧ o.rest = 0 := by simpa [Scan.atCode] using hinside
  have hdeeper : Scan.Deeper o.parens o.brackets Scan.start o := by
    refine ⟨hquote, (Nat.zero_add _).symm, (Nat.zero_add _).symm, ?_, hrest⟩
    rw [hprevious, hpair.opens]
    rfl
  have hpos : 0 < o.parens + o.brackets := by
    have htop := hdeep p
    rw [hopened, Scan.atTop, hquote] at htop
    simp only [Option.isNone_none, Bool.true_and, Bool.and_eq_false_iff, beq_eq_false_iff_ne] at htop
    omega
  have hafter : Scan.bareAhead (closing :: after) := by
    simp [Scan.bareAhead, hpair.closing_not_quote]
  refine ⟨?_, hdeeper.uncut hpos hbody hafter⟩
  have hend : Scan.Deeper o.parens o.brackets (Scan.start.run body [])
      (o.run body (closing :: after)) := hdeeper.run (by rwa [List.append_nil]) hafter
  obtain ⟨e, he⟩ := Scan.exists_run_eq_top hbody
  rw [he] at hend
  refine ⟨(o.run body (closing :: after)).previous, ?_⟩
  obtain ⟨hquote', hparens, hbrackets, -, hrest'⟩ := hend
  generalize o.run body (closing :: after) = e at hquote' hparens hbrackets hrest'
  obtain ⟨quote, parens, brackets, previous, rest⟩ := e
  simp_all [Scan.top, Scan.start]

/-- A balanced text in brackets, behind a name or nothing, is read as one. -/
theorem whole_bracketed {front body : List Char} {opening closing : Char}
    (hfront : ∀ c ∈ front, isIdentifierPart c) (hpair : IsPair opening closing)
    (hdeep : ∀ p, (Scan.code (Scan.top p) opening).atTop = false)
    (hblank : isBlank opening = false ∧ isBlank closing = false)
    (hsep : ∀ sep ∈ [',', ':'], sep ≠ opening ∧ sep ≠ closing ∧ isIdentifierPart sep = false)
    (hbody : isBalanced body) : Whole (bracketed front opening closing body) := by
  have hplain : ∀ c ∈ front, Scan.isPlain c := fun c hc => isPlain_of_isIdentifierPart (hfront c hc)
  constructor
  · refine solid_bracketed ?_ hblank.1 hblank.2
    cases front with
    | nil => rfl
    | cons c front => simp [isBlank_of_isIdentifierPart (hfront c List.mem_cons_self)]
  · intro p after _ hafter
    obtain ⟨⟨q, hrun⟩, huncut⟩ := Scan.run_brackets hpair hdeep hbody (front.getLast?.or p) after
    have hinside : Scan.atCode { (Scan.top (front.getLast?.or p)).code opening with previous := q } :=
      hpair.inside (front.getLast?.or p)
    have hcloses : Scan.code { (Scan.top (front.getLast?.or p)).code opening with previous := q }
        closing = Scan.top (some closing) := hpair.closes (front.getLast?.or p) q
    have hnext : ∀ rest, Scan.next
      { (Scan.top (front.getLast?.or p)).code opening with previous := q }
        closing rest = Scan.top (some closing) := fun rest =>
      (Scan.next_of_atCode hinside hpair.closing_not_quote).trans hcloses
    have hopened : ∀ rest, (Scan.top (front.getLast?.or p)).next opening rest =
        (Scan.top (front.getLast?.or p)).code opening := fun rest =>
      Scan.next_of_atCode rfl hpair.opening_not_quote
    constructor
    · refine ⟨some closing, ?_⟩
      rw [bracketed, Scan.run_append, Scan.run_top hplain, Scan.run, hopened, Scan.run_append]
      rw [List.singleton_append, hrun, Scan.run, hnext, Scan.run]
    · intro sep hin
      obtain ⟨hopening, hclosing, hpart⟩ := hsep sep hin
      rw [bracketed, Scan.uncut_append, Scan.run_top hplain, Scan.Uncut, hopened, Scan.uncut_append]
      rw [List.singleton_append, hrun, Scan.Uncut]
      refine ⟨Scan.uncut_of_codeAll (Scan.codeAll_of_forall fun c hc => ?_), ?_, huncut sep, ?_,
        trivial⟩
      · exact ne_of_class (hfront c hc) hpart
      · rw [Scan.separates, beq_false_of_ne hopening.symm, Bool.and_false]
      · rw [Scan.separates, beq_false_of_ne hclosing.symm, Bool.and_false]

theorem isBalanced_quoted (k : String) : isBalanced (quoted k) = true := by
  have hargs : ∀ a ∈ [quoted k], Passes IsArgumentCode a := by
    intro a ha
    rw [List.mem_singleton.mp ha]
    exact (passes_quoted k).imp fun c => False.elim
  have h : isBalanced (joined 0 [quoted k]) = true := isBalanced_joined (List.cons_ne_nil _ _) hargs
  simpa [joined, further] using h

theorem whole_call {name body : List Char} (hname : isIdentifier name) (hbody : isBalanced body) :
    Whole (bracketed name '(' ')' body) := by
  apply whole_bracketed (fun c hc => isIdentifierPart_of_mem hname hc) isPair_round
  · exact fun p => rfl
  · exact ⟨by decide, by decide⟩
  · simp [isIdentifierPart]
  · exact hbody

/-- A call with a literal in its brackets, as a reference is written. -/
def referenceText (name k : String) : List Char := bracketed name.toList '(' ')' (quoted k)

theorem whole_referenceText {name : String} (hname : isIdentifier name.toList) (k : String) :
    Whole (referenceText name k) := whole_call hname (isBalanced_quoted k)

/-- A list in matched brackets. -/
theorem whole_list {body : List Char} (hbody : isBalanced body) :
    Whole (bracketed [] '[' ']' body) := by
  apply whole_bracketed (fun c hc => by cases hc) isPair_square
  · exact fun p => rfl
  · exact ⟨by decide, by decide⟩
  · simp [isIdentifierPart]
  · exact hbody

/-- What is read as one has no label. -/
theorem Whole.splitNamed?_eq_none {token : List Char} (h : Whole token) :
    splitNamed? token = none := by
  have huncut := (h.reads none [] rfl rfl).2 ':' (by decide)
  have hcut : cutTop? ':' token = none := huncut.cut?_eq_none
  rw [splitNamed?, hcut]

/-! ## Tokens among arguments -/

/-- The arguments that follow an argument, from the comma behind it on. -/
inductive Later : List Char → List (List Char) → Prop
  | none : Later [] []
  | comma (more : List Char) : Later (',' :: more) (Scan.start.pieces ',' more)

/-- The token stands in a list of arguments: behind the complete arguments `front` and behind `lead`
in its own, of which only blanks follow, and before the arguments `later`. -/
def Stands (token text : List Char) (front : List (List Char)) (lead : List Char)
    (later : List (List Char)) : Prop :=
  ∃ before gap after, text = before ++ (token ++ (gap ++ after)) ∧
    Scan.start.pieces ',' before = front ++ [lead] ∧ (∀ c ∈ gap, isBlank c) ∧ Later after later

theorem isPlain_and_ne_comma_of_isBlank {c : Char} (h : isBlank c) : Scan.isPlain c ∧ c ≠ ',' :=
  ⟨Scan.isPlain_of_isBlank h, ne_of_class h (by decide)⟩

section Stands

variable {token text lead : List Char} {front later : List (List Char)}

theorem Later.pieces_top {after : List Char} (h : Later after later) (p : Option Char)
    {gap : List Char}
    (hgap : ∀ c ∈ gap, isBlank c) : (Scan.top p).pieces ',' (gap ++ after) = gap :: later := by
  have hblank : ∀ c ∈ gap, Scan.isPlain c ∧ c ≠ ',' := fun c hc =>
    isPlain_and_ne_comma_of_isBlank (hgap c hc)
  have hcode : (Scan.top p).CodeAll (· ≠ ',') gap after :=
    Scan.codeAll_of_forall fun c hc => (hblank c hc).2
  rw [Scan.pieces_append hcode, Scan.run_top fun c hc => (hblank c hc).1]
  cases h with
  | none => simp [Scan.pieces]
  | comma more =>
      rw [Scan.pieces, Scan.separates_of_atTop rfl rfl (by decide), if_pos rfl,
        Scan.next_top_of_isPlain (by decide), Scan.pieces_top rfl]
      simp

/-- A list of arguments is cut before and behind a token that stands in it. -/
theorem Stands.exists_pieces_eq (h : Stands token text front lead later) (hwhole : Whole token)
    (hlead : ∀ c ∈ lead, Scan.isPlain c ∧ c ≠ ',') (hlast : ∀ c, lead.getLast? = some c → isBlank c) :
    ∃ gap, (∀ c ∈ gap, isBlank c) ∧
      Scan.start.pieces ',' text = front ++ (lead ++ (token ++ gap)) :: later := by
  obtain ⟨before, gap, after, rfl, hpieces, hgap, hlater⟩ := h
  refine ⟨gap, hgap, ?_⟩
  obtain ⟨p, hopen, hfront⟩ := Scan.exists_pieces_append hpieces (token ++ (gap ++ after))
  have hcode : (Scan.top p).CodeAll (· ≠ ',') lead (token ++ (gap ++ after)) :=
    Scan.codeAll_of_forall fun c hc => (hlead c hc).2
  have hopen' : Scan.mayOpenAfter (lead.getLast?.or p) := by
    cases hget : lead.getLast? with
    | none => exact hopen
    | some c => simp [Scan.mayOpenAfter, hlast c hget]
  have hafter : Scan.bareAhead (gap ++ after) := by
    cases gap with
    | nil => cases hlater <;> rfl
    | cons c gap =>
        have hc := Scan.isQuote_of_isPlain (Scan.isPlain_of_isBlank (hgap c List.mem_cons_self))
        simp [Scan.bareAhead, hc]
  obtain ⟨⟨q, hrun⟩, huncut⟩ := hwhole.reads (lead.getLast?.or p) (gap ++ after) hopen' hafter
  rw [hfront, Scan.pieces_append hcode, Scan.run_top fun c hc => (hlead c hc).1,
    (huncut ',' (by decide)).pieces_append, hrun, hlater.pieces_top q hgap]
  simp

end Stands

end RowConfig
