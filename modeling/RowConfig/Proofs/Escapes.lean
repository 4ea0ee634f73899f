import Mathlib.Data.List.TakeWhile
import RowConfig.Escape
import RowConfig.Number.Integer

/-!
# What decoding accepts

An escaped text that is well formed is a sequence of units: characters other than a backslash, and
escape sequences. `Decodes` relates such a text to what it stands for. Strict decoding is this
relation (`decode_eq_ok_iff`); where it fails, it has read a well-formed text up to a backslash that
begins no escape sequence, and lenient decoding goes on behind what that backslash takes with it
(`decode_exact`).
-/

namespace RowConfig.Escape

open Chars Number

/-- The letters of the one-letter escapes, each with the character that it stands for. -/
def letters : List (Char × Char) :=
  [('n', '\n'), ('r', '\r'), ('t', '\t'), ('0', '\x00'), ('\\', '\\'), ('"', '"'), ('\'', '\''),
    ('{', '{'), ('}', '}')]

/-- The letters of the code point escapes, each with the number of its digits. -/
def widths : List (Char × Nat) := [('u', 4), ('U', 8)]

/-- An escape sequence and the character that it stands for. -/
inductive IsEscape : List Char → Char → Prop where
  | letter {l c : Char} (h : (l, c) ∈ letters) : IsEscape ['\\', l] c
  /-- The digits are a number in base sixteen that is a code point. -/
  | codePoint {l : Char} {digits : List Char} {n : Nat} (hwidth : (l, digits.length) ∈ widths)
      (hdigits : natural? 16 digits = some n) (hvalid : n.isValidChar) :
      IsEscape ('\\' :: l :: digits) (Char.ofNat n)

/-- An escape sequence stands at the start of the text. -/
def BeginsEscape (cs : List Char) : Prop := ∃ u c rest, IsEscape u c ∧ cs = u ++ rest

/-- A unit of a well-formed text and the character that it stands for. -/
inductive Denotes : List Char → Char → Prop where
  | plain {c : Char} (h : c ≠ '\\') : Denotes [c] c
  | escape {u : List Char} {c : Char} (h : IsEscape u c) : Denotes u c

/-- A well-formed text, unit by unit, and the text that it stands for. -/
inductive Decodes : List Char → List Char → Prop where
  | nil : Decodes [] []
  | unit {u cs t : List Char} {c : Char} (hu : Denotes u c) (h : Decodes cs t) :
      Decodes (u ++ cs) (c :: t)

/-- Well-formed text `front` goes up to a backslash that begins no escape sequence. -/
structure StopsAt (cs front t rest : List Char) : Prop where
  eq : cs = front ++ '\\' :: rest
  decodes : Decodes front t
  stops : ¬BeginsEscape ('\\' :: rest)

variable {u v cs t front rest : List Char} {c l : Char} {m : Malformed}

/-! ## Letters and digits -/

theorem ofLetter?_eq_some_iff : ofLetter? l = some c ↔ (l, c) ∈ letters := by
  unfold ofLetter? letters
  split
  all_goals simp_all [eq_comm]

theorem codePointWidth?_eq_some_iff {width : Nat} :
    codePointWidth? l = some width ↔ (l, width) ∈ widths := by
  unfold codePointWidth? widths
  split
  all_goals simp_all [eq_comm]

/-- The letter of a code point escape is that of no other escape. -/
theorem ofLetter?_of_width {width : Nat} (h : (l, width) ∈ widths) : ofLetter? l = none := by
  simp only [widths, List.mem_cons, Prod.mk.injEq, List.not_mem_nil, or_false] at h
  rcases h with ⟨rfl, -⟩ | ⟨rfl, -⟩
  all_goals rfl

theorem digitOf?_sixteen (c : Char) :
    digitOf? 16 c = if isHexDigit c then some (hexDigit c) else none := by
  have h0 : '0'.toNat = 48 := rfl
  have h9 : '9'.toNat = 57 := rfl
  have ha : 'a'.toNat = 97 := rfl
  have hf : 'f'.toNat = 102 := rfl
  have hz : 'z'.toNat = 122 := rfl
  have hA : 'A'.toNat = 65 := rfl
  have hF : 'F'.toNat = 70 := rfl
  have hZ : 'Z'.toNat = 90 := rfl
  unfold digitOf? digitValue? isHexDigit hexDigit Char.isDigit
  simp only [Char.le_def, UInt32.le_iff_toNat_le, ge_iff_le, Char.toNat_val]
  grind

theorem readDigits?_sixteen (n : Nat) (cs : List Char) :
    readDigits? 16 n cs =
      if cs.all isHexDigit then some (cs.foldl (fun n c => 16 * n + hexDigit c) n) else none := by
  induction cs generalizing n with
  | nil => rfl
  | cons c cs ih =>
      rw [readDigits?, digitOf?_sixteen]
      cases hc : isHexDigit c with
      | false => simp [hc]
      | true => simp [hc, ih]

theorem isHexDigit_of_natural? {digits : List Char} {n : Nat} (h : natural? 16 digits = some n) :
    digits ≠ [] ∧ digits.all isHexDigit := by
  cases digits with
  | nil => cases h
  | cons d ds =>
      rw [natural?, readDigits?_sixteen] at h
      split at h
      · next hall => exact ⟨List.cons_ne_nil d ds, hall⟩
      · cases h

/-- Digits of a code point escape write a number in base sixteen. -/
theorem codePoint?_eq_some_iff {digits : List Char} (hne : digits ≠ [])
    (hdigits : digits.all isHexDigit) : codePoint? digits = some c ↔
      ∃ n, natural? 16 digits = some n ∧ n.isValidChar ∧ c = Char.ofNat n := by
  obtain ⟨d, ds, rfl⟩ := List.exists_cons_of_ne_nil hne
  rw [natural?, readDigits?_sixteen, if_pos hdigits, codePoint?]
  simp [eq_comm]

/-! ## Escape sequences -/

/-- An escape sequence is read as a unit, whatever follows it. -/
theorem afterBackslash_of_isEscape (h : IsEscape ('\\' :: u) c) (rest : List Char) :
    afterBackslash (u ++ rest) = (⟨'\\' :: u, .ok c⟩, rest) := by
  cases h with
  | @letter l c h =>
      have hletter : ofLetter? l = some c := ofLetter?_eq_some_iff.mpr h
      simp [afterBackslash, hletter]
  | @codePoint l digits n hwidth hdigits hvalid =>
      obtain ⟨hne, hall⟩ := isHexDigit_of_natural? hdigits
      have hcode : codePoint? digits = some (Char.ofNat n) :=
        (codePoint?_eq_some_iff hne hall).mpr ⟨n, hdigits, hvalid, rfl⟩
      have htake : (digits ++ rest).take digits.length = digits := List.take_left
      have hrun : digits.takeWhile isHexDigit = digits :=
        List.takeWhile_eq_self_iff.mpr fun d hd => List.all_eq_true.mp hall d hd
      rw [List.cons_append]
      simp only [afterBackslash, ofLetter?_of_width hwidth, codePointWidth?_eq_some_iff.mpr hwidth,
        codePointPiece, htake, hrun, hcode, if_true, List.drop_left]

/-- A unit behind a backslash that stands for a character is an escape sequence. -/
theorem isEscape_of_afterBackslash (h : (afterBackslash cs).1.meaning = .ok c) :
    IsEscape (afterBackslash cs).1.source c := by
  cases cs with
  | nil => cases h
  | cons l cs =>
      simp only [afterBackslash] at h ⊢
      cases hletter : ofLetter? l with
      | some d =>
          simp only [hletter] at h ⊢
          cases h
          exact .letter (ofLetter?_eq_some_iff.mp hletter)
      | none =>
          cases hwidth : codePointWidth? l with
          | none =>
              simp only [hletter, hwidth] at h
              cases h
          | some width =>
              simp only [hletter, hwidth, codePointPiece] at h ⊢
              have hwidth : (l, width) ∈ widths := codePointWidth?_eq_some_iff.mp hwidth
              generalize hdigits : (cs.take width).takeWhile isHexDigit = digits at h ⊢
              split at h
              · next d hcode =>
                split at h
                · next hlength =>
                  cases h
                  subst hlength
                  have hne : digits ≠ [] := by
                    rintro rfl
                    simp [widths] at hwidth
                  have hall : digits.all isHexDigit := by
                    rw [← hdigits, List.all_eq_true]
                    exact fun d hd => List.mem_takeWhile_imp hd
                  obtain ⟨n, hn, hvalid, rfl⟩ := (codePoint?_eq_some_iff hne hall).mp hcode
                  exact .codePoint hwidth hn hvalid
                · cases h
              · cases h

theorem exists_cons_of_isEscape (h : IsEscape u c) : ∃ tail, u = '\\' :: tail := by
  cases h with
  | letter _ => exact ⟨_, rfl⟩
  | codePoint _ _ _ => exact ⟨_, rfl⟩

/-- A backslash begins an escape sequence exactly if its unit stands for a character. -/
theorem beginsEscape_iff :
    BeginsEscape ('\\' :: cs) ↔ ∃ c, (afterBackslash cs).1.meaning = .ok c := by
  constructor
  · rintro ⟨u, c, rest, hu, heq⟩
    obtain ⟨tail, rfl⟩ := exists_cons_of_isEscape hu
    obtain rfl : cs = tail ++ rest := (List.cons.inj heq).2
    rw [afterBackslash_of_isEscape hu]
    exact ⟨c, rfl⟩
  · rintro ⟨c, hc⟩
    exact ⟨_, c, _, isEscape_of_afterBackslash hc, (source_afterBackslash cs).symm⟩

/-! ## Reading unit by unit -/

theorem pieces_append (h : Denotes u c) (v : List Char) :
    pieces (u ++ v) = ⟨u, .ok c⟩ :: pieces v := by
  cases h with
  | plain hc => rw [List.singleton_append, pieces, if_neg hc]
  | escape hu =>
      obtain ⟨tail, rfl⟩ := exists_cons_of_isEscape hu
      rw [List.cons_append, pieces, if_pos rfl, afterBackslash_of_isEscape hu]

/-- Strict decoding goes through a well-formed text to what follows it. -/
theorem decode_append (h : Decodes u t) (v : List Char) :
    decode (u ++ v) = match decode v with
      | .ok w => .ok (t ++ w)
      | .error m => .error (m.after u) := by
  induction h with
  | nil =>
      cases hv : decode v with
      | ok w => simp [hv]
      | error m => simp [hv, Malformed.after]
  | @unit u cs t c hu _ ih =>
      have hunit : decode (u ++ (cs ++ v)) = match decode (cs ++ v) with
          | .ok w => .ok (c :: w)
          | .error m => .error (m.after u) := by
        unfold decode
        rw [pieces_append hu]
        rfl
      rw [List.append_assoc, hunit, ih]
      cases decode v with
      | ok w => rfl
      | error m => simp [Malformed.after]

/-- So does lenient decoding. -/
theorem decodeLenient_append (h : Decodes u t) (v : List Char) :
    decodeLenient (u ++ v) = t ++ decodeLenient v := by
  induction h with
  | nil => rfl
  | @unit u cs t c hu _ ih =>
      have hunit : decodeLenient (u ++ (cs ++ v)) = c :: decodeLenient (cs ++ v) := by
        unfold decodeLenient
        rw [pieces_append hu]
        rfl
      rw [List.append_assoc, hunit, ih, List.cons_append]

theorem decode_of_decodes (h : Decodes cs t) : decode cs = .ok t := by
  have hnil : decode [] = .ok [] := by
    rw [decode, pieces]
    rfl
  have happend := decode_append h []
  rw [List.append_nil, hnil] at happend
  simpa using happend

theorem decodeLenient_of_decodes (h : Decodes cs t) : decodeLenient cs = t := by
  have hnil : decodeLenient [] = [] := by
    rw [decodeLenient, pieces]
    rfl
  have happend := decodeLenient_append h []
  rwa [List.append_nil, hnil, List.append_nil] at happend

theorem StopsAt.unit (hu : Denotes u c) (h : StopsAt cs front t rest) :
    StopsAt (u ++ cs) (u ++ front) (c :: t) rest := by
  refine ⟨?_, .unit hu h.decodes, h.stops⟩
  rw [h.eq, List.append_assoc]

/-- A text is well formed up to its end or up to a backslash. -/
theorem decodes_or_stopsAt (cs : List Char) :
    (∃ t, Decodes cs t) ∨ ∃ front t rest, StopsAt cs front t rest := by
  -- what is said of the text behind a unit is said of the whole
  have hunit : ∀ {u c cs}, Denotes u c →
      ((∃ t, Decodes cs t) ∨ ∃ front t rest, StopsAt cs front t rest) →
      (∃ t, Decodes (u ++ cs) t) ∨ ∃ front t rest, StopsAt (u ++ cs) front t rest := by
    rintro u c cs hu (⟨t, ht⟩ | ⟨front, t, rest, h⟩)
    · exact .inl ⟨c :: t, .unit hu ht⟩
    · exact .inr ⟨u ++ front, c :: t, rest, h.unit hu⟩
  fun_induction pieces cs with
  | case1 => exact .inl ⟨[], .nil⟩
  | case2 cs ih =>
      by_cases hbegins : BeginsEscape ('\\' :: cs)
      · obtain ⟨c, hc⟩ := beginsEscape_iff.mp hbegins
        rw [← source_afterBackslash cs]
        exact hunit (.escape (isEscape_of_afterBackslash hc)) ih
      · exact .inr ⟨[], [], cs, rfl, .nil, hbegins⟩
  | case3 c cs hc ih => exact hunit (.plain hc) ih

/-- What strict and lenient decoding make of a text that stops at a backslash. -/
theorem StopsAt.exists_problem (h : StopsAt cs front t rest) :
    (∃ problem, decode cs = .error ⟨front, (afterBackslash rest).1.source, problem⟩) ∧
      decodeLenient cs =
        t ++ ((afterBackslash rest).1.source ++ decodeLenient (afterBackslash rest).2) := by
  obtain ⟨rfl, hfront, hstop⟩ := h
  obtain ⟨problem, hproblem⟩ : ∃ problem, (afterBackslash rest).1.meaning = .error problem := by
    cases hmeaning : (afterBackslash rest).1.meaning with
    | error problem => exact ⟨problem, rfl⟩
    | ok c => exact absurd (beginsEscape_iff.mpr ⟨c, hmeaning⟩) hstop
  have hpieces : pieces ('\\' :: rest) =
      (afterBackslash rest).1 :: pieces (afterBackslash rest).2 := by
    rw [pieces, if_pos rfl]
  constructor
  · have hdecode : decode ('\\' :: rest) =
        .error ⟨[], (afterBackslash rest).1.source, problem⟩ := by
      rw [decode, hpieces, decodePieces, hproblem]
    refine ⟨problem, ?_⟩
    rw [decode_append hfront, hdecode]
    simp [Malformed.after]
  · rw [decodeLenient_append hfront, decodeLenient, hpieces, List.flatMap_cons, Piece.lenient,
      hproblem]
    rfl

/-- Strict decoding reads the well-formed texts. -/
theorem decode_eq_ok_iff : decode cs = .ok t ↔ Decodes cs t := by
  constructor
  · intro h
    rcases decodes_or_stopsAt cs with ⟨t', ht'⟩ | ⟨front, t', rest, hstops⟩
    · rw [decode_of_decodes ht'] at h
      cases h
      exact ht'
    · obtain ⟨⟨problem, hproblem⟩, -⟩ := hstops.exists_problem
      rw [hproblem] at h
      cases h
  · exact decode_of_decodes

/-- Strict decoding fails at the backslash at which the text stops. -/
theorem exists_stopsAt_of_decode (h : decode cs = .error m) :
    ∃ t rest, StopsAt cs m.before t rest ∧ m.sequence = (afterBackslash rest).1.source := by
  rcases decodes_or_stopsAt cs with ⟨t, ht⟩ | ⟨front, t, rest, hstops⟩
  · rw [decode_of_decodes ht] at h
    cases h
  · obtain ⟨⟨problem, hproblem⟩, -⟩ := hstops.exists_problem
    rw [hproblem] at h
    cases h
    exact ⟨t, rest, hstops, rfl⟩

/-- A unit begins with its backslash. -/
theorem exists_cons_source_afterBackslash (cs : List Char) :
    ∃ tail, (afterBackslash cs).1.source = '\\' :: tail := by
  cases cs with
  | nil => exact ⟨[], rfl⟩
  | cons l cs =>
      simp only [afterBackslash]
      split
      · exact ⟨_, rfl⟩
      · exact ⟨_, rfl⟩
      · exact ⟨_, rfl⟩

/-- Where strict decoding succeeds, lenient decoding gives the same text. Where it fails, it names a
backslash and what the text has there: what stands before decodes strictly, and lenient decoding
keeps the sequence and goes on behind it. It fails exactly on texts with a backslash behind whole
units that begins no escape sequence. -/
theorem decode_exact (s : List Char) :
    (∀ t, decode s = .ok t → decodeLenient s = t) ∧
    (∀ m, decode s = .error m → ∃ front t tail rest,
      m.sequence = '\\' :: tail ∧ splitAtByte? m.offset s = some (front, m.sequence ++ rest) ∧
        decode front = .ok t ∧ decodeLenient s = t ++ (m.sequence ++ decodeLenient rest)) ∧
    ((∃ m, decode s = .error m) ↔ ∃ front t rest,
      s = front ++ '\\' :: rest ∧ Decodes front t ∧ ¬BeginsEscape ('\\' :: rest)) := by
  refine ⟨?_, ?_, ?_, ?_⟩
  · intro t h
    exact decodeLenient_of_decodes (decode_eq_ok_iff.mp h)
  · intro m h
    obtain ⟨t, rest, hstops, hsequence⟩ := exists_stopsAt_of_decode h
    obtain ⟨tail, htail⟩ := exists_cons_source_afterBackslash rest
    have hsource : m.sequence ++ (afterBackslash rest).2 = '\\' :: rest := by
      rw [hsequence, source_afterBackslash]
    refine ⟨m.before, t, tail, (afterBackslash rest).2, ?_, ?_, ?_, ?_⟩
    · rw [hsequence, htail]
    · rw [hstops.eq, Malformed.offset, splitAtByte?_append, hsource]
    · exact decode_of_decodes hstops.decodes
    · rw [hsequence]
      exact hstops.exists_problem.2
  · rintro ⟨m, h⟩
    obtain ⟨t, rest, hstops, -⟩ := exists_stopsAt_of_decode h
    exact ⟨m.before, t, rest, hstops.eq, hstops.decodes, hstops.stops⟩
  · rintro ⟨front, t, rest, heq, hfront, hstop⟩
    have hstops : StopsAt s front t rest := ⟨heq, hfront, hstop⟩
    obtain ⟨⟨problem, hproblem⟩, -⟩ := hstops.exists_problem
    exact ⟨_, hproblem⟩

/-- Units of several bytes and of several characters, a surrogate, and a unit behind it. -/
def surrogateText : List Char := "é\\u00e9\\ud800\\n".toList

theorem decode_exact_surrogate :
    decode surrogateText =
        .error ⟨"é\\u00e9".toList, "\\ud800".toList, .badCodePoint⟩ ∧
      ∃ front t tail rest, "\\ud800".toList = '\\' :: tail ∧
        splitAtByte? 8 surrogateText = some (front, "\\ud800".toList ++ rest) ∧
        decode front = .ok t ∧
        decodeLenient surrogateText = t ++ ("\\ud800".toList ++ decodeLenient rest) := by
  have herror : decode surrogateText =
      .error ⟨"é\\u00e9".toList, "\\ud800".toList, .badCodePoint⟩ := by decide +kernel
  exact ⟨herror, (decode_exact surrogateText).2.1 _ herror⟩

end RowConfig.Escape
