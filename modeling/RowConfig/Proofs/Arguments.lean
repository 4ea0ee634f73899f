import RowConfig.Proofs.Chars
import RowConfig.Proofs.Quoting

/-!
# Lists of arguments

Literals, with or without the names of their fields, are written with commas between them. Such a
list is cut at those commas and nowhere else (`pieces_joined`), whatever the literals hold, because
a reader passes through each argument without meeting a comma among its code and comes out as it
went in (`Passes`).
-/

namespace RowConfig

open Chars

/-- A literal as an argument, after the name of its field where it has a label. -/
def argumentText (label : Option String) (t : String) : List Char :=
  match label with
  | none => quoted t
  | some name => name.toList ++ ':' :: ' ' :: quoted t

/-- Arguments after the first, each behind a comma and blanks. -/
def further (gap : Nat) (more : List (List Char)) : List Char :=
  more.flatMap fun b => ',' :: (List.replicate gap ' ' ++ b)

/-- Arguments with a comma and blanks between any two. -/
def joined (gap : Nat) : List (List Char) → List Char
  | [] => []
  | a :: more => a ++ further gap more

/-- A reader that enters the text where a literal may open, with no quote right behind the text,
meets code with the property only and comes out as it went in, but for the character read last. -/
def Passes (P : Char → Prop) (a : List Char) : Prop :=
  ∀ (s : Scan) (after : List Char), s.atCode → Scan.mayOpenAfter s.previous →
    after.head? ≠ some '"' →
    (∃ p, s.run a after = { s with previous := p }) ∧ s.CodeAll P a after

/-- Code of an argument: no quote or bracket, and nothing that ends the argument or the line. -/
def IsArgumentCode (c : Char) : Prop := Scan.isPlain c ∧ c ≠ ',' ∧ c ≠ '#'

variable {P Q : Char → Prop} {a : List Char} {gap : Nat}

theorem Passes.imp (hPQ : ∀ c, P c → Q c) (h : Passes P a) : Passes Q a := by
  intro s after hs hopen hafter
  obtain ⟨hrun, hcode⟩ := h s after hs hopen hafter
  exact ⟨hrun, hcode.imp hPQ⟩

/-- Plain text that lets a literal open behind it may stand before a text. -/
theorem Passes.append {lead : List Char} (h : Passes P a) (hplain : ∀ c ∈ lead, Scan.isPlain c)
    (hlead : ∀ c ∈ lead, P c) (hlast : ∀ c, lead.getLast? = some c → Scan.mayOpenAfter (some c)) :
    Passes P (lead ++ a) := by
  intro s after hs hopen hafter
  have hrunLead : s.run lead (a ++ after) = { s with previous := lead.getLast?.or s.previous } :=
    Scan.run_plain hs hplain
  have hopen' : Scan.mayOpenAfter (lead.getLast?.or s.previous) := by
    cases hget : lead.getLast? with
    | none => exact hopen
    | some c => exact hlast c hget
  obtain ⟨⟨p, hrun⟩, hcode⟩ :=
    h { s with previous := lead.getLast?.or s.previous } after hs hopen' hafter
  rw [Scan.run_append, Scan.codeAll_append, hrunLead]
  exact ⟨⟨p, hrun⟩, Scan.codeAll_of_forall hlead, hcode⟩

theorem passes_quoted (t : String) : Passes (fun _ => False) (quoted t) := by
  intro s after hs hopen hafter
  obtain ⟨hrun, hcode⟩ := Scan.run_quoted t hs hopen hafter
  exact ⟨⟨_, hrun⟩, hcode⟩

/-- The labels of arguments are names. -/
def IsLabel (label : Option String) : Prop := ∀ name, label = some name → isIdentifier name.toList

theorem isLabel_some {name : String} (h : isIdentifier name.toList) : IsLabel (some name) := by
  intro label hlabel
  cases hlabel
  exact h

variable {label : Option String}

theorem passes_argumentText (hlabel : IsLabel label) (t : String) :
    Passes IsArgumentCode (argumentText label t) := by
  have hquoted : Passes IsArgumentCode (quoted t) := (passes_quoted t).imp fun c => False.elim
  cases label with
  | none => exact hquoted
  | some name =>
      have hname : ∀ c ∈ name.toList, IsArgumentCode c := by
        intro c hc
        have hpart := isIdentifierPart_of_mem (hlabel name rfl) hc
        exact ⟨isPlain_of_isIdentifierPart hpart, ne_of_class hpart (by decide),
          ne_of_class hpart (by decide)⟩
      have hlead : ∀ c ∈ name.toList ++ [':', ' '], IsArgumentCode c := by
        intro c hc
        rcases List.mem_append.mp hc with hc | hc
        · exact hname c hc
        · rcases List.mem_cons.mp hc with rfl | hc
          · exact ⟨by decide, by decide, by decide⟩
          · rw [List.mem_singleton.mp hc]
            exact ⟨by decide, by decide, by decide⟩
      have h := hquoted.append (fun c hc => (hlead c hc).1) hlead (fun c hc => by
        rw [List.getLast?_append, List.getLast?_cons_cons] at hc
        cases hc
        rfl)
      rw [argumentText]
      simpa using h

theorem solid_argumentText (hlabel : IsLabel label) (t : String) :
    Solid (argumentText label t) := by
  cases label with
  | none => exact ⟨⟨'"', _, rfl, by decide⟩, ⟨'"' :: escape t.toList, '"', rfl, by decide⟩⟩
  | some name =>
      obtain ⟨c, rest, heq, hc⟩ := (solid_of_isIdentifier (hlabel name rfl)).head
      refine ⟨⟨c, rest ++ ':' :: ' ' :: quoted t, ?_, hc⟩,
        ⟨name.toList ++ ':' :: ' ' :: '"' :: escape t.toList, '"', ?_, by decide⟩⟩
      · rw [argumentText, heq]
        rfl
      · simp [argumentText, quoted]

theorem getLast?_argumentText (label : Option String) (t : String) :
    (argumentText label t).getLast? = some '"' := by
  have hquoted : quoted t = '"' :: escape t.toList ++ ['"'] := rfl
  cases label with
  | none => rw [argumentText, hquoted, List.getLast?_concat]
  | some name =>
      rw [argumentText, List.getLast?_append, hquoted, ← List.cons_append, ← List.cons_append,
        List.getLast?_concat, Option.some_or]

theorem not_mem_argumentText (hlabel : IsLabel label) (t : String) :
    '\n' ∉ argumentText label t ∧ '\r' ∉ argumentText label t := by
  cases label with
  | none => exact not_mem_quoted t
  | some name =>
      have hout : ∀ c, isIdentifierPart c = false → c ∉ [':', ' '] → c ∉ quoted t →
          c ∉ argumentText (some name) t := by
        intro c hpart hlead hquoted hin
        rcases List.mem_append.mp hin with hin | hin
        · exact not_mem_of_isIdentifier (hlabel name rfl) hpart hin
        rcases List.mem_append.mp (show c ∈ [':', ' '] ++ quoted t from hin) with hin | hin
        · exact hlead hin
        · exact hquoted hin
      exact ⟨hout _ (by decide) (by decide) (not_mem_quoted t).1,
        hout _ (by decide) (by decide) (not_mem_quoted t).2⟩

theorem Passes.append_blanks (h : Passes P a) (hblank : P ' ') (n : Nat) :
    Passes P (List.replicate n ' ' ++ a) := by
  refine h.append ?_ ?_ ?_
  · intro c hc
    rw [List.eq_of_mem_replicate hc]
    decide
  · intro c hc
    rw [List.eq_of_mem_replicate hc]
    exact hblank
  · intro c hc
    rw [List.eq_of_mem_replicate (List.mem_of_getLast? hc)]
    decide

/-! ## Joined arguments -/

theorem isArgumentCode_blank : IsArgumentCode ' ' := ⟨by decide, by decide, by decide⟩

theorem further_cons (b : List Char) (more : List (List Char)) :
    further gap (b :: more) = ',' :: (List.replicate gap ' ' ++ b ++ further gap more) :=
  rfl

theorem next_comma {s : Scan} (hs : s.atCode) (p : Option Char) (cs : List Char) :
    Scan.next { s with previous := p } ',' cs = { s with previous := some ',' } := by
  have hs' : Scan.atCode { s with previous := p } := hs
  rw [Scan.next_of_atCode hs' (by decide), Scan.code_of_isPlain (by decide)]

/-- A reader passes through a list of arguments meeting neither brackets nor hashes. -/
theorem passes_joined {args : List (List Char)} (hne : args ≠ [])
    (hargs : ∀ a ∈ args, Passes IsArgumentCode a) :
    Passes (fun c => Scan.isPlain c ∧ c ≠ '#') (joined gap args) := by
  have hcode : ∀ c, IsArgumentCode c → Scan.isPlain c ∧ c ≠ '#' := fun c h => ⟨h.1, h.2.2⟩
  obtain ⟨a, more, rfl⟩ := List.exists_cons_of_ne_nil hne
  rw [joined]
  have ha := hargs a List.mem_cons_self
  have hmore : ∀ b ∈ more, Passes IsArgumentCode b := fun b hb => hargs b (List.mem_cons_of_mem _ hb)
  clear hargs hne
  induction more generalizing a with
  | nil =>
      rw [further, List.flatMap_nil, List.append_nil]
      exact ha.imp hcode
  | cons b more ih =>
      intro s after hs hopen hafter
      -- the argument, then the comma, then the rest as a list that begins with blanks
      have hb := (hmore b List.mem_cons_self).append_blanks isArgumentCode_blank gap
      have hrest := ih _ hb fun c hc => hmore c (List.mem_cons_of_mem _ hc)
      obtain ⟨⟨p, hrun⟩, hcodeA⟩ := ha s (further gap (b :: more) ++ after) hs hopen
        (by intro h; cases h)
      obtain ⟨hrunRest, hcodeRest⟩ := hrest { s with previous := some ',' } after hs rfl hafter
      rw [Scan.run_append, Scan.codeAll_append, hrun, further_cons, Scan.run, Scan.CodeAll,
        next_comma hs]
      exact ⟨hrunRest, hcodeA.imp hcode, fun _ => by decide, hcodeRest⟩

/-- At top level a list of arguments is cut at the commas between them. -/
theorem pieces_joined {s : Scan} (htop : s.atTop) (hs : s.atCode)
    (hopen : Scan.mayOpenAfter s.previous) (lead : Nat) {a : List Char} {more : List (List Char)}
    (ha : Passes IsArgumentCode a) (hmore : ∀ b ∈ more, Passes IsArgumentCode b) :
    s.pieces ',' (List.replicate lead ' ' ++ joined gap (a :: more)) =
      (List.replicate lead ' ' ++ a) :: more.map (List.replicate gap ' ' ++ ·) := by
  have hcomma : ∀ c, IsArgumentCode c → c ≠ ',' := fun c h => h.2.1
  rw [joined, ← List.append_assoc]
  induction more generalizing s lead a with
  | nil =>
      have hpass := ha.append_blanks isArgumentCode_blank lead
      obtain ⟨⟨p, hrun⟩, hcode⟩ := hpass s [] hs hopen (by decide)
      rw [further, List.flatMap_nil, Scan.pieces_append (hcode.imp hcomma)]
      simp [Scan.pieces]
  | cons b more ih =>
      have hpass := ha.append_blanks isArgumentCode_blank lead
      obtain ⟨⟨p, hrun⟩, hcode⟩ := hpass s (further gap (b :: more)) hs hopen
        (by intro h; cases h)
      have hrest := ih (s := { s with previous := some ',' }) htop hs rfl gap
        (hmore b List.mem_cons_self) fun c hc => hmore c (List.mem_cons_of_mem _ hc)
      have hcut := Scan.separates_of_atTop (s := { s with previous := p }) htop hs
        (show Scan.isQuote ',' = false by decide)
      rw [Scan.pieces_append (hcode.imp hcomma), hrun, further_cons, Scan.pieces, hcut, if_pos rfl,
        next_comma hs, hrest]
      simp

theorem isBalanced_joined {args : List (List Char)} (hne : args ≠ [])
    (hargs : ∀ a ∈ args, Passes IsArgumentCode a) : isBalanced (joined gap args) = true := by
  have hpass : Passes _ (joined gap args) := passes_joined hne hargs
  obtain ⟨⟨p, hrun⟩, hcode⟩ := hpass Scan.start [] rfl rfl (by decide)
  have hclosing : ∀ c, Scan.isPlain c ∧ c ≠ '#' → Scan.isClosing c = false := by
    rintro c ⟨hplain, -⟩
    unfold Scan.isPlain Scan.delimiters at hplain
    unfold Scan.isClosing
    simp_all
  have h := Scan.balanced_append (hcode.imp hclosing)
  rw [List.append_nil, hrun] at h
  exact h

/-- A list of arguments breaks no line if no argument does. -/
theorem not_mem_joined {args : List (List Char)} (h : ∀ a ∈ args, '\n' ∉ a ∧ '\r' ∉ a) :
    '\n' ∉ joined gap args ∧ '\r' ∉ joined gap args := by
  have hout : ∀ c, c ≠ ',' → c ≠ ' ' → (∀ a ∈ args, c ∉ a) → c ∉ joined gap args := by
    intro c hcomma hblank h hin
    cases args with
    | nil => cases hin
    | cons a more =>
        rcases List.mem_append.mp hin with hin | hin
        · exact h a List.mem_cons_self hin
        obtain ⟨b, hb, hin⟩ := List.mem_flatMap.mp hin
        rcases List.mem_cons.mp hin with rfl | hin
        · exact hcomma rfl
        rcases List.mem_append.mp hin with hin | hin
        · exact hblank (List.eq_of_mem_replicate hin)
        · exact h b (List.mem_cons_of_mem _ hb) hin
  exact ⟨hout _ (by decide) (by decide) fun a ha => (h a ha).1,
    hout _ (by decide) (by decide) fun a ha => (h a ha).2⟩

/-- A list of arguments ends as its last argument does. -/
theorem getLast?_joined {args : List (List Char)} {c : Char} (hne : args ≠ [])
    (h : ∀ a ∈ args, a.getLast? = some c) : (joined gap args).getLast? = some c := by
  obtain ⟨a, more, rfl⟩ := List.exists_cons_of_ne_nil hne
  rw [joined]
  have ha := h a List.mem_cons_self
  have hmore : ∀ b ∈ more, b.getLast? = some c := fun b hb => h b (List.mem_cons_of_mem _ hb)
  clear h hne
  induction more generalizing a with
  | nil => rwa [further, List.flatMap_nil, List.append_nil]
  | cons b more ih =>
      have hrest := ih b (hmore b List.mem_cons_self) fun d hd => hmore d (List.mem_cons_of_mem _ hd)
      rw [further_cons, List.append_assoc, ← List.cons_append, ← List.append_assoc,
        List.getLast?_append, hrest, Option.some_or]

/-! ## Labels -/

theorem splitNamed?_quoted (t : String) : splitNamed? (quoted t) = none := by
  obtain ⟨⟨p, hrun⟩, hcode⟩ := passes_quoted t Scan.start [] rfl rfl (by decide)
  have hcut : cutTop? ':' (quoted t) = none := by
    have h := Scan.cut?_append (hcode.imp (Q := (· ≠ ':')) fun c => False.elim)
    rw [List.append_nil, hrun] at h
    exact h
  rw [splitNamed?, hcut]

/-- The label of an argument is split off at the first colon. -/
theorem splitNamed?_named {name : String} (hname : isIdentifier name.toList) (t : String) :
    splitNamed? (argumentText (some name) t) =
      some ⟨name.toList, ' ' :: quoted t, byteSize name.toList + 1⟩ := by
  have htext : argumentText (some name) t = [] ++ (name.toList ++ []) ++ ':' :: ' ' :: quoted t := by
    simp [argumentText]
  have hnone : ∀ c ∈ ([] : List Char), isBlank c := List.forall_mem_nil _
  exact splitNamed?_eq_some_iff.mpr ⟨[], [], hnone, hnone, hname, rfl, htext, by simp⟩

/-! ## Reading literals -/

theorem solid_quoted (t : String) : Solid (quoted t) := by
  have h : Solid (argumentText none t) := solid_argumentText (fun name h => by cases h) t
  exact h

/-- A text with another character than the letters of null is not null. -/
theorem isNullWord_of_mem {c : Char} {cs : List Char} (hc : c ∈ cs)
    (hlower : c.toLower ∉ ['n', 'u', 'l', 'l']) : Reader.isNullWord cs = false := by
  apply beq_false_of_ne
  intro heq
  have heq := congrArg String.toList heq
  rw [String.toList_ofList] at heq
  have hin : c.toLower ∈ cs.map Char.toLower := List.mem_map_of_mem hc
  rw [heq] at hin
  exact hlower hin

theorem isNullWord_quoted (t : String) : Reader.isNullWord (quoted t) = false :=
  isNullWord_of_mem (c := '"') List.mem_cons_self (by decide)

/-- A token that is not null, without blanks at its ends, is read as it stands. -/
theorem read_of_solid {token : List Char} (r : Reader) (htoken : Solid token)
    (hnull : Reader.isNullWord token = false) (type : ScalarType) :
    ∃ column, r.read token ⟨type, false⟩ = r.readScalar ⟨token, column⟩ type := by
  refine ⟨0 + (indent token).length, ?_⟩
  unfold Reader.read
  simp only [Span.trimmed, htoken.trim_eq, hnull, Bool.false_eq_true, if_false]

/-- A literal is read as its string. -/
theorem read_quoted (r : Reader) (t : String) :
    r.read (quoted t) ⟨.str, false⟩ = .ok (.text (.plain t)) := by
  obtain ⟨column, hread⟩ := read_of_solid r (solid_quoted t) (isNullWord_quoted t) .str
  rw [hread, Reader.readScalar, readText_quoted]
  rfl

theorem readElement_quoted (r : Reader) (t : String) (column : Nat) :
    r.readElement ⟨quoted t, column⟩ .str = .ok (.text (.plain t)) := by
  unfold Reader.readElement
  rw [isNullWord_quoted, if_neg Bool.false_ne_true]
  unfold Reader.readScalar
  simp only [readText_quoted]
  rfl

/-- Literals that stand between blanks are read as texts. -/
theorem readElements_quoted (r : Reader) {spans : List Span} {texts : List String}
    (h : spans.map (fun s => trim s.text) = texts.map quoted) :
    r.readElements .str spans = .ok (texts.map fun t => .text (.plain t)) := by
  induction spans generalizing texts with
  | nil =>
      rw [List.map_nil, eq_comm, List.map_eq_nil_iff] at h
      rw [h]
      rfl
  | cons s spans ih =>
      cases texts with
      | nil => cases h
      | cons t texts =>
          rw [List.map_cons, List.map_cons, List.cons.injEq] at h
          obtain ⟨hs, hspans⟩ := h
          have htrimmed : s.trimmed = ⟨quoted t, s.column + (indent s.text).length⟩ := by
            rw [Span.trimmed, hs]
          rw [Reader.readElements, htrimmed, readElement_quoted, ih hspans]
          rfl

theorem map_text_place (column : Nat) (pieces : List (List Char)) :
    (Span.place column pieces).map Span.text = pieces := by
  induction pieces generalizing column with
  | nil => rfl
  | cons piece pieces ih => rw [Span.place, List.map_cons, ih]

/-- Trimmed, the pieces of a list of arguments are the arguments. -/
theorem map_trim_pieces {args : List (List Char)} (hne : args ≠ []) (lead : Nat)
    (hargs : ∀ a ∈ args, Passes IsArgumentCode a) (hsolid : ∀ a ∈ args, Solid a) :
    (Scan.start.pieces ',' (List.replicate lead ' ' ++ joined gap args)).map trim = args := by
  obtain ⟨a, more, rfl⟩ := List.exists_cons_of_ne_nil hne
  rw [pieces_joined rfl rfl rfl lead (hargs a List.mem_cons_self)
    fun b hb => hargs b (List.mem_cons_of_mem _ hb)]
  rw [List.map_cons, List.map_map, (hsolid a List.mem_cons_self).trim_append isBlank_of_mem_replicate]
  congr 1
  conv => rhs; rw [← List.map_id more]
  apply List.map_congr_left
  intro b hb
  exact (hsolid b (List.mem_cons_of_mem _ hb)).trim_append isBlank_of_mem_replicate

theorem map_trim_arguments {args : List (List Char)} (hne : args ≠ []) (column : Nat)
    (hargs : ∀ a ∈ args, Passes IsArgumentCode a) (hsolid : ∀ a ∈ args, Solid a) :
    (Span.arguments ⟨joined gap args, column⟩).map (fun s => trim s.text) = args := by
  have h : (Scan.start.pieces ',' (joined gap args)).map trim = args :=
    map_trim_pieces hne 0 hargs hsolid
  rw [← map_text_place column (Scan.start.pieces ',' (joined gap args)), List.map_map] at h
  exact h

end RowConfig
