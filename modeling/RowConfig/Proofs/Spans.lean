import RowConfig.Proofs.Escapes
import RowConfig.Proofs.Keys.Tokens
import RowConfig.Proofs.Linking.Faults

/-!
# Where the parts of a token stand

A span is within a token if its text stands in the token at its column (`Span.Within`). Trimming,
cutting at commas, taking brackets or quotes off, and cutting an escaped text into units all lead
from a span within the token to further ones. A fault about a span reports the span's text and has
its place, so what the location covers in the token is what the fault reports
(`Reader.covers_of_read`).
-/

namespace RowConfig

open Chars

/-! ## Reported texts -/

namespace Fault

/-- The text that a fault reports to have found where there should be a value of some type, and its
location. -/
def found? : Fault → Option (Location × String)
  | .typeMismatch l _ found | .malformedArray l found | .malformedCall l found _ => some (l, found)
  | _ => none

/-- The text of a token that a fault reports, be it found in place of a value or a malformed escape
sequence, and its location. -/
def reported? : Fault → Option (Location × String)
  | .invalidEscape l sequence _ => some (l, sequence)
  | fault => fault.found?

/-- What the fault reports stands in the token, whose first character is at `base`, and the fault's
location is the place of the text there. Only what is found in place of a value can be empty; it is
given the width of one character. -/
def ReportsFrom (base : Location) (token : List Char) (fault : Fault) : Prop :=
  ∀ l text, fault.reported? = some (l, text) → (fault.found? = none → text ≠ "") ∧
    ∃ chars, text.toList <+: token.drop chars ∧ l = base.shifted chars (max text.length 1)

theorem reportsFrom_of_eq_none {base : Location} {token : List Char} {fault : Fault}
    (h : fault.reported? = none) : fault.ReportsFrom base token := by
  intro l text hreported
  rw [h] at hreported
  cases hreported

theorem reported?_of_found? {fault : Fault} {p : Location × String} (h : fault.found? = some p) :
    fault.reported? = some p := by
  cases fault <;> first | exact h | cases h

end Fault

/-- The location lies on the line of `base`, not before it, and covers the text in the token whose
first character is at `base`. -/
structure Location.Covers (base : Location) (token : List Char) (l : Location) (text : String) :
    Prop where
  on_line : l = base.shifted (l.column - base.column) text.length
  covered : (token.drop (l.column - base.column)).take l.length = text.toList

/-- A text that is reported from a token is covered, unless it is empty. -/
theorem Fault.ReportsFrom.covers {base l : Location} {token : List Char} {fault : Fault}
    {text : String} (h : fault.ReportsFrom base token) (hreported : fault.reported? = some (l, text))
    (hne : text ≠ "") : base.Covers token l text := by
  obtain ⟨-, chars, hstarts, rfl⟩ := h l text hreported
  have hlength : max text.length 1 = text.length := by
    have hpos : text.length ≠ 0 := by simpa using hne
    omega
  have hchars : base.column + chars - base.column = chars := Nat.add_sub_cancel_left _ _
  rw [hlength]
  refine ⟨?_, ?_⟩
  · simp only [Location.shifted, hchars]
  · simp only [Location.shifted, hchars, ← String.length_toList]
    exact (List.prefix_iff_eq_take.mp hstarts).symm

/-! ## Spans within a token -/

namespace Span

variable {token u v w : List Char} {s inner : Span}

/-- The text of the span stands in the token at the span's column. -/
def Within (token : List Char) (s : Span) : Prop := s.text <+: token.drop s.column

theorem within_self (token : List Char) : (Span.mk token 0).Within token := List.prefix_refl token

/-- A part of a span is within the token, as many characters further on as stand before it. -/
theorem Within.part (h : s.Within token) (htext : s.text = u ++ (v ++ w)) :
    (Span.mk v (s.column + u.length)).Within token := by
  have hrest : v ++ w <+: token.drop (s.column + u.length) := by
    have hdrop := h.drop u.length
    rwa [htext, List.drop_left, List.drop_drop] at hdrop
  exact (List.prefix_append v w).trans hrest

theorem Within.trimmed (h : s.Within token) : s.trimmed.Within token := by
  obtain ⟨w, hw, -, -⟩ := trimEnd_cases (trimStart s.text)
  refine h.part (w := w) ?_
  rw [trim, ← hw, indent_append_trimStart]

/-- Texts that stand one separator apart are within the token if the whole that they make is. -/
theorem Within.of_mem_place {column : Nat} {texts : List (List Char)}
    (h : (Span.mk ([','].intercalate texts) column).Within token) (hs : s ∈ place column texts) :
    s.Within token := by
  induction texts generalizing column with
  | nil => cases hs
  | cons text texts ih =>
      cases texts with
      | nil =>
          rw [List.intercalate_singleton] at h
          rw [List.mem_singleton.mp hs]
          exact h
      | cons next texts =>
          rw [List.intercalate_cons_cons] at h
          rcases List.mem_cons.mp hs with rfl | hs
          · exact h.part (u := []) (List.append_assoc _ _ _)
          · -- the others begin behind this text and a comma
            have hrest := h.part (u := text ++ [',']) (v := [','].intercalate (next :: texts))
              (w := []) (by rw [List.append_nil])
            rw [List.length_append, ← Nat.add_assoc] at hrest
            exact ih hrest hs

theorem Within.of_mem_arguments (h : inner.Within token) (hs : s ∈ inner.arguments) :
    s.Within token := by
  refine Within.of_mem_place ?_ hs
  rw [Scan.intercalate_pieces]
  exact h

theorem Within.inside {opening closing : Char} (h : s.Within token)
    (hinner : s.inside? opening closing = some inner) : inner.Within token := by
  obtain ⟨body, htext, -, rfl⟩ := inside?_eq_some_iff.mp hinner
  exact h.part (u := [opening]) (w := [closing]) htext

/-- The body of a literal stands behind the opening delimiter and the line break that is left
out. -/
theorem Within.literalBody {q : Quote} (h : s.Within token)
    (hbody : Reader.literalBody? q s = some inner) : inner.Within token := by
  unfold Reader.literalBody? at hbody
  simp only [Option.map_eq_some_iff, Option.bind_eq_some_iff, stripStart?_eq_some_iff,
    stripEnd?_eq_some_iff] at hbody
  obtain ⟨body, ⟨_, htext, rfl⟩, rfl⟩ := hbody
  have hdropped : ∃ u, body = u ++ (Reader.dropLineBreak body).1 ∧
      u.length = (Reader.dropLineBreak body).2 := by
    unfold Reader.dropLineBreak
    split
    · exact ⟨['\r', '\n'], rfl, rfl⟩
    · exact ⟨['\n'], rfl, rfl⟩
    · exact ⟨[], rfl, rfl⟩
  split
  · obtain ⟨u, hu, hlength⟩ := hdropped
    have hpart := h.part (u := q.delimiter ++ u) (v := (Reader.dropLineBreak body).1)
      (w := q.delimiter) (by rw [htext, List.append_assoc, ← List.append_assoc u, ← hu])
    rwa [List.length_append, hlength, ← Nat.add_assoc] at hpart
  · exact h.part htext

/-- The arguments of a call stand between the first round bracket and the last character. -/
theorem text_of_splitCall? {name : List Char} (h : Reader.splitCall? s = some (name, inner)) :
    ∃ before, s.text = before ++ ['('] ++ (inner.text ++ [')']) ∧
      inner.column = s.column + before.length + 1 := by
  unfold Reader.splitCall? at h
  split at h
  · cases h
  · next before after honce =>
    split at h
    · cases h
    · next arguments hstrip =>
      simp only at h
      split at h
      · cases h
        refine ⟨before, ?_, rfl⟩
        rw [splitOnce?_eq_some honce, stripEnd?_eq_some_iff.mp hstrip, List.append_assoc]
        rfl
      · cases h

theorem Within.splitCall {name : List Char} (h : s.Within token)
    (hcall : Reader.splitCall? s = some (name, inner)) : inner.Within token := by
  obtain ⟨before, htext, hcolumn⟩ := text_of_splitCall? hcall
  have hpart := h.part htext
  rwa [List.length_append, ← Nat.add_assoc, List.length_singleton, ← hcolumn] at hpart

end Span

/-! ## Faults of reading -/

namespace Reader

variable {r : Reader} {token : List Char} {s : Span} {fault : Fault}

/-- A fault that reports a span with its place. -/
theorem reportsFrom_place (hs : s.Within token)
    (h : fault.found? = some (r.place s, String.ofList s.text)) :
    fault.ReportsFrom r.location token := by
  intro l text hreported
  rw [Fault.reported?_of_found? h] at hreported
  cases hreported
  refine ⟨fun hnone => ?_, s.column, ?_, ?_⟩
  · rw [h] at hnone
    cases hnone
  · rw [String.toList_ofList]
    exact hs
  · rw [String.length_ofList]
    rfl

/-- A malformed escape sequence stands behind the units before it. -/
theorem reportsFrom_escapedText (hs : s.Within token) (h : r.escapedText s = .error fault) :
    fault.ReportsFrom r.location token := by
  unfold escapedText at h
  split at h
  · next m hm =>
    cases h
    obtain ⟨_, rest, hstops, hsequence⟩ := Escape.exists_stopsAt_of_decode hm
    obtain ⟨tail, htail⟩ := Escape.exists_cons_source_afterBackslash rest
    have htext : s.text = m.before ++ (m.sequence ++ (Escape.afterBackslash rest).2) := by
      rw [hsequence, Escape.source_afterBackslash, hstops.eq]
    rintro l text ⟨⟩
    refine ⟨fun _ => ?_, s.column + m.before.length, ?_, ?_⟩
    · rw [hsequence, htail, ne_eq, String.ofList_eq_empty_iff]
      exact List.cons_ne_nil _ _
    · rw [String.toList_ofList]
      exact hs.part htext
    · -- the sequence holds its backslash at least
      rw [String.length_ofList, hsequence, htail, List.length_cons, max_eq_left (by omega)]
  · split at h <;> cases h

theorem reportsFrom_readText (hs : s.Within token) (h : r.readText s = .error fault) :
    fault.ReportsFrom r.location token := by
  unfold readText at h
  split at h
  · split at h
    · cases h
      exact Fault.reportsFrom_of_eq_none rfl
    · next hbody =>
      split at h
      · exact reportsFrom_escapedText (hs.literalBody hbody) h
      · cases h
  · cases h

theorem reportsFrom_readCall {expected : String} (hs : s.Within token)
    (h : r.readCall s expected = .error fault) : fault.ReportsFrom r.location token := by
  unfold readCall at h
  split at h
  · cases h
    exact reportsFrom_place hs rfl
  · next hcall =>
    split at h
    · cases h
      exact reportsFrom_place hs rfl
    · split at h
      · -- the arguments of an inline row are not read, so no part of them is reported
        rw [eq_of_collectArguments_error (map_eq_error_iff.mp h)]
        exact Fault.reportsFrom_of_eq_none rfl
      · exact reportsFrom_readText (hs.splitCall hcall).trimmed (map_eq_error_iff.mp h)

theorem reportsFrom_readScalar {type : ScalarType} (hs : s.Within token)
    (h : r.readScalar s type = .error fault) : fault.ReportsFrom r.location token := by
  unfold readScalar at h
  cases type with
  | struct name => exact reportsFrom_readCall hs h
  | bool =>
      simp only at h
      split at h
      · cases h
      · cases h
      · cases h
        exact reportsFrom_place hs rfl
  | int =>
      simp only at h
      split at h
      · cases h
      · cases h
        exact reportsFrom_place hs rfl
  | float =>
      simp only at h
      split at h
      · cases h
      · cases h
        exact reportsFrom_place hs rfl
  | _ =>
      -- the four textual types
      exact reportsFrom_readText hs (map_eq_error_iff.mp h)

theorem reportsFrom_readElements {type : ScalarType} {spans : List Span}
    (hspans : ∀ s ∈ spans, s.Within token) (h : r.readElements type spans = .error fault) :
    fault.ReportsFrom r.location token := by
  induction spans with
  | nil => cases h
  | cons s spans ih =>
      have hmore := ih fun s' hs' => hspans s' (List.mem_cons_of_mem _ hs')
      rw [readElements] at h
      split at h
      · exact hmore h
      · split at h
        · next hread =>
          cases h
          unfold readElement at hread
          split at hread
          · cases hread
          · exact reportsFrom_readScalar (hspans s List.mem_cons_self).trimmed hread
        · exact hmore (map_eq_error_iff.mp h)

theorem reportsFrom_readArray {type : ScalarType} (hs : s.Within token)
    (h : r.readArray s type = .error fault) : fault.ReportsFrom r.location token := by
  unfold readArray at h
  split at h
  · cases h
    exact reportsFrom_place hs rfl
  · next hinner =>
    exact reportsFrom_readElements (fun _ hs' => (hs.inside hinner).of_mem_arguments hs')
      (map_eq_error_iff.mp h)

theorem reportsFrom_read {type : FieldType} (h : r.read token type = .error fault) :
    fault.ReportsFrom r.location token := by
  have hs := (Span.within_self token).trimmed
  unfold read at h
  simp only at h
  split at h
  · cases h
  · split at h
    · exact reportsFrom_readArray hs h
    · exact reportsFrom_readScalar hs h

theorem reportsFrom_readChoices {field : Field} (h : r.readChoices token field = .error fault) :
    fault.ReportsFrom r.location token := by
  have hs := (Span.within_self token).trimmed
  unfold readChoices at h
  simp only at h
  split at h
  · cases h
    exact Fault.reportsFrom_of_eq_none rfl
  split at h
  · cases h
    exact Fault.reportsFrom_of_eq_none rfl
  split at h
  · cases h
    exact Fault.reportsFrom_of_eq_none rfl
  · next hinner =>
    split at h
    · next hread =>
      cases h
      exact reportsFrom_readElements (fun _ hs' => (hs.inside hinner).of_mem_arguments hs') hread
    · cases h
      exact Fault.reportsFrom_of_eq_none rfl
    · cases h

/-- Where a token or a list of choices fails to be read, what the fault found in place of a value,
unless it is empty, and a malformed escape sequence in any case, are exactly what the location of
the fault covers in the token. -/
theorem covers_of_read
    (h : (∃ type, r.read token type = .error fault) ∨
      ∃ field, r.readChoices token field = .error fault) :
    (∀ l found, fault.found? = some (l, found) → found ≠ "" → r.location.Covers token l found) ∧
      ∀ l sequence problem, fault = .invalidEscape l sequence problem →
        r.location.Covers token l sequence := by
  have hreports : fault.ReportsFrom r.location token := by
    rcases h with ⟨type, hread⟩ | ⟨field, hread⟩
    · exact reportsFrom_read hread
    · exact reportsFrom_readChoices hread
  refine ⟨fun l found hfound hne => hreports.covers (Fault.reported?_of_found? hfound) hne, ?_⟩
  rintro l sequence problem rfl
  exact hreports.covers rfl ((hreports l sequence rfl).1 rfl)

/-- A reader without structs, of tokens that begin in column 3. -/
def indented : Reader := ⟨[], ⟨none, 1, 3, 1, "- .."⟩⟩

/-- A literal in tripled quotes, with a line break that is left out before a malformed escape
sequence. -/
def tripledToken : List Char := " \"\"\"\n ü\\q\"\"\"".toList

/-- Choices of which the second is no number. -/
def choiceToken : List Char := " ( 1 , é2 )".toList

theorem covers_of_read_tripled :
    indented.read tripledToken ⟨.str, false⟩ =
        .error (.invalidEscape ⟨none, 1, 10, 2, "- .."⟩ "\\q" .unknownLetter) ∧
      indented.location.Covers tripledToken ⟨none, 1, 10, 2, "- .."⟩ "\\q" ∧
      indented.readChoices choiceToken (.ofType "n" ⟨.int, false⟩) =
        .error (.typeMismatch ⟨none, 1, 10, 2, "- .."⟩ .int "é2") ∧
      indented.location.Covers choiceToken ⟨none, 1, 10, 2, "- .."⟩ "é2" := by
  have hescape : indented.read tripledToken ⟨.str, false⟩ =
      .error (.invalidEscape ⟨none, 1, 10, 2, "- .."⟩ "\\q" .unknownLetter) := by cbv
  have hchoice : indented.readChoices choiceToken (.ofType "n" ⟨.int, false⟩) =
      .error (.typeMismatch ⟨none, 1, 10, 2, "- .."⟩ .int "é2") := rfl
  exact ⟨hescape, (covers_of_read (.inl ⟨_, hescape⟩)).2 _ _ _ rfl, hchoice,
    (covers_of_read (.inr ⟨_, hchoice⟩)).1 _ _ rfl (by decide)⟩

end Reader

end RowConfig
