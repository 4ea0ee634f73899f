import RowConfig.Proofs.Arguments
import RowConfig.Proofs.Escapes
import RowConfig.Proofs.Pointwise

/-!
# One literal or several

Two readers decide where a literal ends. The one that reads values takes the delimiters off both
ends of a token; `Scan` goes from unit to unit and closes the literal at the first delimiter that it
meets. They agree on a token exactly if its delimiter begins at no unit of what stands between the
two ends (`Reader.isOneLiteral_iff_of_read`). Only the second one is asked by lists and calls.
-/

namespace RowConfig

open Chars Scan

/-- A reader that starts on the text is within one literal until the last character, which closes
it. -/
structure IsOneLiteral (token : List Char) : Prop where
  opens : (Quote.opening? token).isSome
  within : ∀ u v, token = u ++ v → u ≠ [] → v ≠ [] → (Scan.start.run u v).atCode = false
  closes : (Scan.start.run token []).atCode

namespace Quote

/-- A text in the units of a literal: a character, or where there are escapes a backslash with the
character behind it. -/
inductive Units (q : Quote) : List Char → Prop where
  | nil : Units q []
  | plain {c : Char} {cs : List Char} (hc : q.hasEscapes → c ≠ '\\') (h : Units q cs) :
      Units q (c :: cs)
  | escape {c : Char} {cs : List Char} (hq : q.hasEscapes) (h : Units q cs) :
      Units q ('\\' :: c :: cs)

/-- The delimiter begins at a unit of the text and is complete before the one behind the text is. -/
def ClosesIn (q : Quote) (body : List Char) : Prop :=
  ∃ u v, q.Units u ∧ body ++ q.delimiter.dropLast = u ++ (q.delimiter ++ v)

variable {q : Quote} {c : Char} {u v cs body : List Char}

/-! ## Units -/

theorem Units.append (hu : q.Units u) (hv : q.Units v) : q.Units (u ++ v) := by
  induction hu with
  | nil => exact hv
  | plain hc _ ih => exact .plain hc ih
  | escape hq _ ih => exact .escape hq ih

/-- Without escapes every character is a unit. -/
theorem units_of_forall (h : ∀ c ∈ cs, q.hasEscapes → c ≠ '\\') : q.Units cs := by
  induction cs with
  | nil => exact .nil
  | cons c cs ih =>
      exact .plain (h c List.mem_cons_self) (ih fun d hd => h d (List.mem_cons_of_mem c hd))

/-- The letter of an escape belongs to the backslash, its digits are units of their own. -/
theorem units_of_isEscape (hq : q.hasEscapes) (h : Escape.IsEscape u c) : q.Units u := by
  cases h with
  | letter => exact .escape hq .nil
  | codePoint _ hdigits =>
      refine .escape hq (units_of_forall fun d hd _ => ?_)
      have hdigit := List.all_eq_true.mp (Escape.isHexDigit_of_natural? hdigits).2 d hd
      exact Chars.ne_of_class hdigit (by decide)

theorem units_of_decodes (hq : q.hasEscapes) (h : Escape.Decodes cs u) : q.Units cs := by
  induction h with
  | nil => exact .nil
  | unit hu _ ih =>
      refine Units.append ?_ ih
      cases hu with
      | plain hc => exact .plain (fun _ => hc) .nil
      | escape hu => exact units_of_isEscape hq hu

/-! ## Where the delimiter stands -/

theorem not_closesIn_nil : ¬q.ClosesIn [] := by
  rintro ⟨u, v, -, h⟩
  -- the delimiter is longer than what is left of it
  have hlength := congrArg List.length h
  have hpos : 0 < q.delimiter.length := by rw [delimiter_eq]; exact Nat.succ_pos _
  simp only [List.nil_append, List.length_append, List.length_dropLast] at hlength
  omega

/-- The delimiter stands at this character, or further on. -/
theorem closesIn_plain (hc : q.hasEscapes → c ≠ '\\') :
    q.ClosesIn (c :: cs) ↔ q.delimiter <+: c :: (cs ++ q.delimiter) ∨ q.ClosesIn cs := by
  have hsplit : q.delimiter = q.delimiter.dropLast ++ [q.char] := by cases q <;> rfl
  constructor
  · rintro ⟨u, v, hu, h⟩
    cases hu with
    | nil =>
        left
        refine ⟨v ++ [q.char], ?_⟩
        rw [← List.append_assoc, ← List.nil_append (q.delimiter ++ v), ← h, List.append_assoc,
          ← hsplit, List.cons_append]
    | plain _ hu => exact .inr ⟨_, v, hu, (List.cons.inj h).2⟩
    | escape hq => exact absurd (List.cons.inj h).1 (hc hq)
  · rintro (⟨w, hw⟩ | ⟨u, v, hu, h⟩)
    · -- more than the last character follows the delimiter's first occurrence
      refine ⟨[], w.dropLast, .nil, ?_⟩
      have hne : w ≠ [] := by
        rintro rfl
        have hlength := congrArg List.length hw
        simp only [List.append_nil, List.length_cons, List.length_append] at hlength
        omega
      have hw := congrArg List.dropLast hw
      rw [List.dropLast_append_of_ne_nil hne, ← List.cons_append,
        List.dropLast_append_of_ne_nil (by rw [delimiter_eq]; exact List.cons_ne_nil _ _)] at hw
      rw [← hw, List.nil_append]
    · exact ⟨c :: u, v, .plain hc hu, congrArg (c :: ·) h⟩

/-- An escape hides the character behind its backslash. -/
theorem closesIn_escape (hq : q.hasEscapes) : q.ClosesIn ('\\' :: c :: cs) ↔ q.ClosesIn cs := by
  constructor
  · rintro ⟨u, v, hu, h⟩
    cases hu with
    | nil =>
        rw [delimiter_eq] at h
        exact absurd (List.cons.inj h).1.symm q.char_ne_backslash
    | plain hc =>
        have hbackslash := (List.cons.inj h).1
        exact absurd hbackslash.symm (hc hq)
    | escape _ hu => exact ⟨_, v, hu, (List.cons.inj (List.cons.inj h).2).2⟩
  · rintro ⟨u, v, hu, h⟩
    exact ⟨'\\' :: c :: u, v, .escape hq hu, congrArg ('\\' :: c :: ·) h⟩

end Quote

/-! ## Reading a literal -/

namespace Scan

/-- Read on from state `s`, the reader is back at code behind the last character of the text, not
before. -/
def leavesAtEnd (s : Scan) : List Char → Bool
  | [] => s.atCode
  | c :: cs => !s.atCode && (s.next c cs).leavesAtEnd cs

variable {s : Scan} {q : Quote} {c : Char} {cs body w : List Char}

theorem leavesAtEnd_iff : s.leavesAtEnd cs ↔
    (∀ u v, cs = u ++ v → v ≠ [] → (s.run u v).atCode = false) ∧ (s.run cs []).atCode := by
  induction cs generalizing s with
  | nil =>
      refine ⟨fun h => ⟨fun u v heq hv => ?_, h⟩, fun h => h.2⟩
      exact absurd (List.append_eq_nil_iff.mp heq.symm).2 hv
  | cons c cs ih =>
      rw [leavesAtEnd, Bool.and_eq_true, Bool.not_eq_true', ih, run, List.append_nil]
      constructor
      · rintro ⟨hs, hwithin, hcloses⟩
        refine ⟨fun u v heq hv => ?_, hcloses⟩
        cases u with
        | nil => exact hs
        | cons d u =>
            obtain ⟨rfl, rfl⟩ := List.cons.inj heq
            exact hwithin u v rfl hv
      · rintro ⟨hwithin, hcloses⟩
        refine ⟨hwithin [] (c :: cs) rfl (List.cons_ne_nil c cs), fun u v heq hv => ?_, hcloses⟩
        have hstep := hwithin (c :: u) v (congrArg (c :: ·) heq) hv
        rwa [run, ← heq] at hstep

/-- The closing delimiter is left behind its last character. -/
theorem leavesAtEnd_closed : (s.closed q).leavesAtEnd (q.delimiter.tail ++ w) ↔ w = [] := by
  have hleft : ∀ s : Scan, s.atCode → (s.leavesAtEnd w ↔ w = []) := by
    intro s hs
    cases w <;> simp [leavesAtEnd, hs]
  cases q with
  | double | single => exact hleft _ rfl
  | tripleDouble | tripleSingle => exact hleft { s.closed _ with rest := 0 } rfl

/-- The opening delimiter leads into the literal. -/
theorem leavesAtEnd_opened : (s.opened q).leavesAtEnd (q.delimiter.tail ++ w) =
    ({ s.opened q with rest := 0 } : Scan).leavesAtEnd w := by
  cases q <;> rfl

/-- From within a literal a reader gets through its units, and out of it at the delimiter behind
them unless there is one before. -/
theorem leavesAtEnd_iff_not_closesIn (hbody : q.Units body) (hquote : s.quote = some q)
    (hrest : s.rest = 0) : s.leavesAtEnd (body ++ q.delimiter) ↔ ¬q.ClosesIn body := by
  have hwithin : s.atCode = false := by rw [atCode, hquote]; rfl
  induction hbody with
  | nil =>
      have hnext : s.next q.char q.delimiter.tail = s.closed q :=
        next_delimiter hquote hrest (q.delimiter_eq ▸ List.prefix_rfl)
      have hend := leavesAtEnd_closed (s := s) (q := q) (w := [])
      rw [List.append_nil] at hend
      rw [List.nil_append, q.delimiter_eq, leavesAtEnd, hwithin, Bool.not_false, Bool.true_and, hnext,
        hend]
      exact iff_of_true rfl Quote.not_closesIn_nil
  | @plain c cs hc _ ih =>
      rw [List.cons_append, leavesAtEnd, hwithin, Bool.not_false, Bool.true_and,
        Quote.closesIn_plain hc]
      by_cases hprefix : q.delimiter <+: c :: (cs ++ q.delimiter)
      · rw [next_delimiter hquote hrest hprefix]
        refine iff_of_false ?_ (not_not_intro (.inl hprefix))
        -- the delimiter that begins here is not the last one
        obtain ⟨w, hw⟩ := hprefix
        have htail : q.delimiter.tail ++ w = cs ++ q.delimiter := by
          conv at hw => lhs; rw [q.delimiter_eq, List.cons_append]
          exact (List.cons.inj hw).2
        rw [← htail, leavesAtEnd_closed]
        rintro rfl
        have hlength := congrArg List.length hw
        simp only [List.append_nil, List.length_cons, List.length_append] at hlength
        omega
      · rw [next_within hquote hrest hc hprefix, or_iff_right hprefix]
        exact ih
  | @escape c cs hq _ ih =>
      have hunit : ({ s with rest := 1 } : Scan).atCode = false := by rw [atCode, hquote]; rfl
      rw [Quote.closesIn_escape hq, List.cons_append, List.cons_append, leavesAtEnd, hwithin,
        next_backslash hquote hrest hq, leavesAtEnd, hunit, next_escaped hrest]
      exact ih

end Scan

/-- One literal is opened by its first character and left behind its last one. -/
theorem isOneLiteral_cons_iff {c : Char} {cs : List Char} : IsOneLiteral (c :: cs) ↔
    (Quote.opening? (c :: cs)).isSome ∧ (Scan.start.next c cs).leavesAtEnd cs := by
  rw [Scan.leavesAtEnd_iff]
  constructor
  · rintro ⟨hopens, hwithin, hcloses⟩
    refine ⟨hopens, fun u v heq hv => ?_, ?_⟩
    · have hstep := hwithin (c :: u) v (congrArg (c :: ·) heq) (List.cons_ne_nil c u) hv
      rwa [Scan.run, ← heq] at hstep
    · rwa [Scan.run, List.append_nil] at hcloses
  · rintro ⟨hopens, hwithin, hcloses⟩
    refine ⟨hopens, fun u v heq hu hv => ?_, ?_⟩
    · cases u with
      | nil => exact absurd rfl hu
      | cons d u =>
          obtain ⟨rfl, rfl⟩ := List.cons.inj heq
          exact hwithin u v rfl hv
    · rwa [Scan.run, List.append_nil]

instance (token : List Char) : Decidable (IsOneLiteral token) :=
  match token with
  | [] => isFalse fun h => Bool.false_ne_true h.opens
  | _ :: _ => decidable_of_iff _ isOneLiteral_cons_iff.symm

/-- A literal between its delimiters is one literal unless it is closed before. -/
theorem isOneLiteral_iff {q : Quote} {body : List Char} (hbody : q.Units body)
    (hopen : Quote.opening? (q.delimiter ++ (body ++ q.delimiter)) = some q) :
    IsOneLiteral (q.delimiter ++ (body ++ q.delimiter)) ↔ ¬q.ClosesIn body := by
  have htoken : q.delimiter ++ (body ++ q.delimiter) =
      q.char :: (q.delimiter.tail ++ (body ++ q.delimiter)) := by
    conv => lhs; lhs; rw [q.delimiter_eq]
    rfl
  rw [htoken] at hopen ⊢
  have hopened : Scan.start.next q.char (q.delimiter.tail ++ (body ++ q.delimiter)) =
      Scan.start.opened q := Scan.next_opens rfl rfl hopen
  rw [isOneLiteral_cons_iff, hopened, Scan.leavesAtEnd_opened, hopen]
  simp only [Option.isSome_some, true_and]
  exact Scan.leavesAtEnd_iff_not_closesIn hbody rfl rfl

/-! ## Reading texts -/

namespace Reader

variable {r : Reader} {token : List Char}

theorem exists_opening? {cs : List Char} (h : cs.head?.any Scan.isQuote) :
    ∃ q, Quote.opening? cs = some q := by
  unfold Quote.opening?
  split
  · exact ⟨_, rfl⟩
  · exact ⟨_, rfl⟩
  · exact ⟨_, rfl⟩
  · exact ⟨_, rfl⟩
  · next hdouble hsingle =>
    cases cs with
    | nil => cases h
    | cons c cs =>
        simp only [List.head?_cons, Option.any_some, Scan.isQuote, Bool.or_eq_true, beq_iff_eq] at h
        rcases h with rfl | rfl
        · exact absurd rfl (hdouble cs)
        · exact absurd rfl (hsingle cs)

/-- The line break that is left out consists of units. -/
theorem units_of_dropLineBreak {q : Quote} {cs : List Char} (h : q.Units (dropLineBreak cs).1) :
    q.Units cs := by
  unfold dropLineBreak at h
  split at h
  · exact .plain (fun _ => by decide) (.plain (fun _ => by decide) h)
  · exact .plain (fun _ => by decide) h
  · exact h

/-- A quoted text that is read stands between two delimiters, and in units. -/
theorem exists_units_of_readText {s : Span} {t : Text} {q : Quote}
    (hopen : Quote.opening? s.text = some q) (h : r.readText s = .ok t) :
    ∃ body, s.text = q.delimiter ++ (body ++ q.delimiter) ∧ q.Units body := by
  unfold readText at h
  simp only [hopen] at h
  split at h
  · cases h
  · next body hbody =>
    obtain ⟨inner, hinner, rfl⟩ := Option.map_eq_some_iff.mp hbody
    obtain ⟨rest, hstart, hend⟩ := Option.bind_eq_some_iff.mp hinner
    rw [stripStart?_eq_some_iff.mp hstart, stripEnd?_eq_some_iff.mp hend]
    refine ⟨inner, rfl, ?_⟩
    have hkept : q.Units (if q.isTriple then dropLineBreak inner else (inner, 0)).1 →
      q.Units inner := by
      intro hkept
      split at hkept
      · exact units_of_dropLineBreak hkept
      · exact hkept
    apply hkept
    cases hescapes : q.hasEscapes with
    | false =>
        refine Quote.units_of_forall fun c _ hq => ?_
        rw [hescapes] at hq
        cases hq
    | true =>
        -- the text was decoded, so every backslash begins an escape
        rw [hescapes, if_pos rfl, escapedText] at h
        split at h
        · cases h
        · next hdecode => exact Quote.units_of_decodes hescapes (Escape.decode_eq_ok_iff.mp hdecode)

/-- A quoted token that is read as a text stands between two delimiters. It is one literal exactly
if the delimiter is complete nowhere before the one at its end, begun at a unit of the text between
them. -/
theorem isOneLiteral_iff_of_read {v : Value} (hquote : (trim token).head?.any Scan.isQuote)
    (hread : r.read token ⟨.str, false⟩ = .ok v) :
    ∃ (q : Quote) (body : List Char), trim token = q.delimiter ++ (body ++ q.delimiter) ∧
      Quote.opening? (trim token) = some q ∧ q.Units body ∧
      (IsOneLiteral (trim token) ↔ ¬q.ClosesIn body) := by
  obtain ⟨q, hopen⟩ := exists_opening? hquote
  have hnull : isNullWord (trim token) = false := by
    cases htrim : trim token with
    | nil => rw [htrim] at hquote; cases hquote
    | cons c rest =>
        rw [htrim] at hquote
        refine isNullWord_of_mem List.mem_cons_self ?_
        rcases Bool.or_eq_true_iff.mp hquote with hc | hc
        · rw [beq_iff_eq.mp hc]
          decide
        · rw [beq_iff_eq.mp hc]
          decide
  unfold Reader.read at hread
  simp only [Span.trimmed, hnull, Bool.false_eq_true, if_false, readScalar] at hread
  obtain ⟨t, htext, -⟩ := map_eq_ok_iff.mp hread
  obtain ⟨body, hbody, hunits⟩ :
      ∃ body, trim token = q.delimiter ++ (body ++ q.delimiter) ∧ q.Units body :=
    exists_units_of_readText hopen htext
  refine ⟨q, body, hbody, hopen, hunits, ?_⟩
  rw [hbody] at hopen ⊢
  exact isOneLiteral_iff hunits hopen

/-- A literal with quotes among its escapes. -/
def greeting : List Char := " \"say \\\"hi\\\"\" ".toList

theorem isOneLiteral_iff_of_read_greeting :
    (trim greeting).head?.any Scan.isQuote ∧
      Reader.read ⟨[], ⟨none, 1, 1, 1, String.ofList greeting⟩⟩ greeting ⟨.str, false⟩ =
        .ok (.text (.plain "say \"hi\"")) ∧
      ∃ (q : Quote) (body : List Char), trim greeting = q.delimiter ++ (body ++ q.delimiter) ∧
        q.Units body ∧ ¬q.ClosesIn body := by
  have hquote : (trim greeting).head?.any Scan.isQuote := by decide
  have hread : Reader.read ⟨[], ⟨none, 1, 1, 1, String.ofList greeting⟩⟩ greeting ⟨.str, false⟩ =
      .ok (.text (.plain "say \"hi\"")) := by cbv
  obtain ⟨q, body, hbody, -, hunits, hone⟩ := isOneLiteral_iff_of_read hquote hread
  exact ⟨hquote, hread, q, body, hbody, hunits, hone.mp (by decide)⟩

/-- Two literals. -/
def pairText : List Char := "\"a\" \"b\"".toList

/-- The reader of values takes two literals for one. -/
theorem not_isOneLiteral_pair :
    (trim pairText).head?.any Scan.isQuote ∧
      Reader.read ⟨[], ⟨none, 1, 1, 1, String.ofList pairText⟩⟩ pairText ⟨.str, false⟩ =
        .ok (.text (.plain "a\" \"b")) ∧
      ¬IsOneLiteral (trim pairText) := by
  refine ⟨by decide, by cbv, by decide⟩

end Reader

end RowConfig
