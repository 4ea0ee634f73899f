import RowConfig.Proofs.Escapes
import RowConfig.Proofs.Scan
import RowConfig.Reader

/-!
# Writing a string as a literal

`quoted` writes any string between double quotes. Outside of literals, where one may open, nothing
in the result is code (`run_quoted`), so every stage takes it as one unit; and it reads back as the
string itself (`readText_quoted`), since all quotes, backslashes and braces in it are escaped.
-/

namespace RowConfig

open Chars Escape

/-- A character as it is written in a literal. -/
def escapeChar : Char → List Char
  | '\\' => ['\\', '\\']
  | '"' => ['\\', '"']
  | '{' => ['\\', '{']
  | '}' => ['\\', '}']
  | '\n' => ['\\', 'n']
  | '\r' => ['\\', 'r']
  | c => [c]

/-- A text as it is written in a literal. -/
def escape (cs : List Char) : List Char := cs.flatMap escapeChar

/-- A string as a literal between double quotes. -/
def quoted (t : String) : List Char := '"' :: escape t.toList ++ ['"']

/-- A character is written as itself, or as a backslash and a letter that stands for it. -/
theorem escapeChar_cases (c : Char) :
    (∃ letter, escapeChar c = ['\\', letter] ∧ ofLetter? letter = some c ∧
      letter ≠ '\n' ∧ letter ≠ '\r') ∨
    (escapeChar c = [c] ∧ c ≠ '\\' ∧ c ≠ '"' ∧ c ≠ '{' ∧ c ≠ '\n' ∧ c ≠ '\r') := by
  unfold escapeChar
  split
  · exact .inl ⟨'\\', by decide⟩
  · exact .inl ⟨'"', by decide⟩
  · exact .inl ⟨'{', by decide⟩
  · exact .inl ⟨'}', by decide⟩
  · exact .inl ⟨'n', by decide⟩
  · exact .inl ⟨'r', by decide⟩
  · next hbackslash hquote hbrace _ hfeed hreturn =>
    exact .inr ⟨rfl, hbackslash, hquote, hbrace, hfeed, hreturn⟩

theorem escape_cons (c : Char) (cs : List Char) : escape (c :: cs) = escapeChar c ++ escape cs := rfl

/-- A literal breaks no line. -/
theorem not_mem_quoted (t : String) : '\n' ∉ quoted t ∧ '\r' ∉ quoted t := by
  have hescape : ∀ c ∈ escape t.toList, c ≠ '\n' ∧ c ≠ '\r' := by
    intro c hc
    obtain ⟨d, -, hc⟩ := List.mem_flatMap.mp hc
    rcases escapeChar_cases d with ⟨letter, heq, -, hfeed, hreturn⟩ | ⟨heq, -, -, -, hfeed, hreturn⟩
    · rw [heq] at hc
      rcases List.mem_cons.mp hc with rfl | hc
      · decide
      · rw [List.mem_singleton.mp hc]
        exact ⟨hfeed, hreturn⟩
    · rw [heq] at hc
      rw [List.mem_singleton.mp hc]
      exact ⟨hfeed, hreturn⟩
  unfold quoted
  constructor
  · simp only [List.cons_append, List.mem_cons, List.mem_append, List.not_mem_nil, or_false, not_or]
    exact ⟨by decide, fun h => (hescape _ h).1 rfl, by decide⟩
  · simp only [List.cons_append, List.mem_cons, List.mem_append, List.not_mem_nil, or_false, not_or]
    exact ⟨by decide, fun h => (hescape _ h).2 rfl, by decide⟩

/-! ## Reading it back -/

/-- A text that a literal with escapes may have for a character: the character itself, or a
backslash and a letter that stands for it. -/
inductive Writes : List Char → Char → Prop where
  | escaped {letter c : Char} (h : ofLetter? letter = some c) : Writes ['\\', letter] c
  | bare {c : Char} (hbackslash : c ≠ '\\') (hquote : c ≠ '"') (hbrace : c ≠ '{') : Writes [c] c

theorem writes_escapeChar (c : Char) : Writes (escapeChar c) c := by
  rcases escapeChar_cases c with ⟨letter, heq, hletter, -⟩ | ⟨heq, hbackslash, hquote, hbrace, -⟩
  · rw [heq]
    exact .escaped hletter
  · rw [heq]
    exact .bare hbackslash hquote hbrace

/-- What is written for a character is a unit that stands for it. -/
theorem Writes.denotes {u : List Char} {c : Char} (h : Writes u c) : Denotes u c := by
  cases h with
  | escaped h => exact .escape (.letter (ofLetter?_eq_some_iff.mp h))
  | bare hbackslash _ _ => exact .plain hbackslash

theorem Writes.hasPlaceholder_append {u : List Char} {c : Char} (h : Writes u c) (cs : List Char) :
    hasPlaceholder true (u ++ cs) = hasPlaceholder true cs := by
  cases h with
  | escaped _ => rfl
  | bare hbackslash _ hbrace =>
      rw [List.cons_append, List.nil_append, hasPlaceholder, beq_false_of_ne hbrace, Bool.false_or]
      · exact fun h => absurd h hbackslash
      · exact fun d ds h => absurd h hbackslash

section Written

variable {f : Char → List Char} (hf : ∀ c, Writes (f c) c) (cs : List Char)
include hf

/-- Decoding undoes any way of writing each character. -/
theorem decode_flatMap : decode (cs.flatMap f) = .ok cs := by
  apply decode_of_decodes
  induction cs with
  | nil => exact .nil
  | cons c cs ih => exact .unit (hf c).denotes ih

/-- No brace among what is written opens a placeholder. -/
theorem hasPlaceholder_flatMap : hasPlaceholder true (cs.flatMap f) = false := by
  induction cs with
  | nil => rfl
  | cons c cs ih => rw [List.flatMap_cons, (hf c).hasPlaceholder_append, ih]

end Written

/-- Decoding undoes escaping. -/
theorem decode_escape (cs : List Char) : decode (escape cs) = .ok cs :=
  decode_flatMap writes_escapeChar cs

/-- No brace opens a placeholder in an escaped text. -/
theorem hasPlaceholder_escape (cs : List Char) : hasPlaceholder true (escape cs) = false :=
  hasPlaceholder_flatMap writes_escapeChar cs

/-- A double quote with no second one right behind it is a delimiter by itself. -/
theorem opening?_quoted (t : String) {after : List Char} (hafter : after.head? ≠ some '"') :
    Quote.opening? (quoted t ++ after) = some .double := by
  have hbody : ∀ rest, escape t.toList ++ '"' :: after ≠ '"' :: '"' :: rest := by
    intro rest heq
    cases hchars : t.toList with
    | nil =>
        rw [hchars] at heq
        injection heq with _ heq
        rw [heq] at hafter
        exact hafter rfl
    | cons c cs =>
        rw [hchars, escape_cons] at heq
        rcases escapeChar_cases c with ⟨letter, hc, -⟩ | ⟨hc, -, hquote, -⟩
        · rw [hc] at heq
          injection heq with heq _
          exact absurd heq (by decide)
        · rw [hc] at heq
          injection heq with heq _
          exact hquote heq
  rw [quoted, List.append_assoc, List.cons_append]
  show Quote.opening? ('"' :: (escape t.toList ++ '"' :: after)) = _
  unfold Quote.opening?
  split
  · next heq =>
    injection heq with _ heq
    exact absurd heq (hbody _)
  · next heq =>
    injection heq with heq _
    exact absurd heq (by decide)
  · rfl
  · next heq =>
    injection heq with heq _
    exact absurd heq (by decide)
  · next hdouble _ => exact absurd rfl (hdouble _)

/-- A literal reads as the string that it was written for. -/
theorem readText_quoted (r : Reader) (t : String) (column : Nat) :
    r.readText ⟨quoted t, column⟩ = .ok (.plain t) := by
  have hopening : Quote.opening? (quoted t) = some .double := by
    have h : Quote.opening? (quoted t ++ []) = some .double := opening?_quoted t (by decide)
    rwa [List.append_nil] at h
  have hbody : Reader.literalBody? .double ⟨quoted t, column⟩ =
      some ⟨escape t.toList, column + 1⟩ := by
    have hstart : stripStart? ['"'] (quoted t) = some (escape t.toList ++ ['"']) :=
      stripStart?_eq_some_iff.mpr rfl
    have hend : stripEnd? ['"'] (escape t.toList ++ ['"']) = some (escape t.toList) :=
      stripEnd?_eq_some_iff.mpr rfl
    show Option.map _ ((stripStart? ['"'] (quoted t)).bind (stripEnd? ['"'])) = _
    rw [hstart, Option.bind_some, hend]
    rfl
  unfold Reader.readText
  simp only [hopening, hbody, Reader.escapedText, decode_escape, hasPlaceholder_escape,
    Quote.hasEscapes, if_true, Bool.false_eq_true, if_false, String.ofList_toList]

/-! ## Going through it -/

namespace Scan

variable {s : Scan} {q : Quote} {after : List Char}

/-- Between two units of a literal with escapes, a reader goes through what stands for a character
and is where it was. -/
theorem run_of_writes {u : List Char} {c : Char} (h : Writes u c) (hquote : s.quote = some q)
    (hescapes : q.hasEscapes) (hrest : s.rest = 0) (after : List Char) :
    s.run u after = s ∧ s.CodeAll (fun _ => False) u after := by
  have hsame : { s with rest := 0 } = s := by rw [← hrest]
  have hnone : ∀ d rest n, ({ s with rest := n } : Scan).isCode d rest → False := by
    intro d rest n hcode
    have hcode := (Bool.and_eq_true_iff.mp (Bool.and_eq_true_iff.mp hcode).1).1
    rw [show ({ s with rest := n } : Scan).quote = s.quote from rfl, hquote] at hcode
    cases hcode
  have hoff : ∀ d rest, s.isCode d rest → False := hsame ▸ fun d rest => hnone d rest 0
  cases h with
  | @escaped letter =>
      simp only [run, CodeAll, next_backslash hquote hrest hescapes, next_escaped hrest]
      exact ⟨trivial, hoff _ _, hnone _ _ 1, trivial⟩
  | bare hbackslash hquoted _ =>
      have hnext : ∀ rest, s.next c rest = s := by
        intro rest
        refine next_within hquote hrest (fun _ => hbackslash) fun hprefix => ?_
        have hchar : q.char = '"' := by
          revert hescapes
          cases q <;> decide
        rw [q.delimiter_eq, hchar] at hprefix
        exact hquoted (List.cons_prefix_cons.mp hprefix).1.symm
      simp only [run, CodeAll, hnext]
      exact ⟨trivial, hoff _ _, trivial⟩

theorem run_flatMap {f : Char → List Char} (hf : ∀ c, Writes (f c) c) (hquote : s.quote = some q)
    (hescapes : q.hasEscapes) (hrest : s.rest = 0) (cs after : List Char) :
    s.run (cs.flatMap f) after = s ∧ s.CodeAll (fun _ => False) (cs.flatMap f) after := by
  induction cs with
  | nil => exact ⟨rfl, trivial⟩
  | cons c cs ih =>
      obtain ⟨hrun, hcode⟩ := run_of_writes (hf c) hquote hescapes hrest (cs.flatMap f ++ after)
      rw [List.flatMap_cons, run_append, codeAll_append, hrun]
      exact ⟨ih.1, hcode, ih.2⟩

/-- Inside of a literal between double quotes. -/
def inDouble (s : Scan) : Scan := { s with quote := some .double, previous := some '"', rest := 0 }

theorem run_escape (s : Scan) (cs after : List Char) :
    s.inDouble.run (escape cs) after = s.inDouble ∧
      s.inDouble.CodeAll (fun _ => False) (escape cs) after :=
  run_flatMap (q := .double) writes_escapeChar rfl rfl rfl cs after

/-- Where a literal may open, a reader goes through one without meeting any code, and comes out as
after a quote. -/
theorem run_quoted (t : String) (hs : s.atCode) (hopen : mayOpenAfter s.previous)
    (hafter : after.head? ≠ some '"') :
    s.run (quoted t) after = { s with previous := some '"' } ∧
      s.CodeAll (fun _ => False) (quoted t) after := by
  obtain ⟨hquote, hrest⟩ : s.quote = none ∧ s.rest = 0 := by
    simpa [atCode] using hs
  have hopens : s.opens? '"' (escape t.toList ++ ['"'] ++ after) = some .double := by
    unfold opens?
    rw [if_pos hopen]
    exact opening?_quoted t hafter
  have hcode : s.isCode '"' (escape t.toList ++ ['"'] ++ after) = false := by
    rw [isCode, hopens]
    exact Bool.and_false _
  have hnext : s.next '"' (escape t.toList ++ ['"'] ++ after) = s.inDouble :=
    next_opens hquote hrest hopens
  obtain ⟨hrun, hbody⟩ := run_escape s t.toList (['"'] ++ after)
  have hclose : s.inDouble.run ['"'] after = { s with previous := some '"' } := by
    have hclosed : s.inDouble.next '"' ([] ++ after) = s.inDouble.closed .double :=
      next_delimiter rfl rfl (List.prefix_append ['"'] after)
    rw [run, hclosed, run, closed, inDouble, hquote, hrest]
    rfl
  rw [quoted, List.cons_append, run, CodeAll, hnext, run_append, hrun, hclose, codeAll_append, hrun,
    hcode]
  refine ⟨rfl, fun h => absurd h Bool.false_ne_true, hbody, ?_, trivial⟩
  exact fun h => absurd h Bool.false_ne_true

end Scan

end RowConfig
