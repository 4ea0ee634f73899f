import RowConfig.Proofs.Chars
import RowConfig.Proofs.Escapes
import RowConfig.Proofs.Pointwise
import RowConfig.Rendering

/-!
# Templates, part by part

A template with escapes is cut into literal runs and placeholders. Placeholders are replaced first
and escapes are decoded last, over the whole text; that comes to the same as decoding each part by
itself (`renderSource_parts`), because a well-formed template is cut between units, and a text that
is shown has no backslash to form a unit with what follows it.
-/

namespace RowConfig

open Chars Escape

/-! ## Braces in well-formed texts -/

namespace Escape

variable {u v cs t : List Char} {c : Char}

theorem Decodes.append (h : Decodes u t) {w : List Char} (hv : Decodes v w) :
    Decodes (u ++ v) (t ++ w) := by
  induction h with
  | nil => exact hv
  | unit hu _ ih =>
      rw [List.append_assoc]
      exact .unit hu ih

/-- A text without backslashes stands for itself. -/
theorem decodes_of_not_mem (h : '\\' ∉ cs) : Decodes cs cs := by
  induction cs with
  | nil => exact .nil
  | cons c cs ih =>
      rw [List.mem_cons, not_or] at h
      exact .unit (.plain (Ne.symm h.1)) (ih h.2)

/-- A brace is a unit by itself or with the backslash before it. -/
theorem Denotes.eq_of_mem {brace : Char} (hbrace : brace = '{' ∨ brace = '}') (h : Denotes u c)
    (hin : brace ∈ u) : u = [brace] ∨ u = ['\\', brace] := by
  have hbackslash : brace ≠ '\\' := by
    rcases hbrace with rfl | rfl
    all_goals decide
  cases h with
  | plain hc => exact .inl (by rw [List.mem_singleton.mp hin])
  | escape h =>
      cases h with
      | letter h =>
          rcases List.mem_cons.mp hin with rfl | hin
          · exact absurd rfl hbackslash
          · exact .inr (by rw [List.mem_singleton.mp hin])
      | @codePoint l digits n hwidth hdigits hvalid =>
          -- neither the letter of the escape nor one of its digits is a brace
          exfalso
          have hletter : brace ≠ l := by
            rintro rfl
            rcases hbrace with rfl | rfl
            all_goals simp [widths] at hwidth
          have hdigit : brace ∉ digits := by
            intro hin
            have hhex := List.all_eq_true.mp (isHexDigit_of_natural? hdigits).2 brace hin
            rcases hbrace with rfl | rfl
            all_goals exact absurd hhex (by decide)
          simp [hbackslash, hletter, hdigit] at hin

/-- A cut between `u` and `v` goes through a unit: `w` of it ends `u`, and `x` of it begins `v`. -/
structure CutsUnit (u v front w x : List Char) : Prop where
  before : u = front ++ w
  behind : ∃ rest, v = x ++ rest
  decodes : ∃ t, Decodes front t
  left : w ≠ []
  right : x ≠ []
  denotes : ∃ c, Denotes (w ++ x) c

/-- Where a well-formed text is cut, both parts are well formed or the cut goes through a unit. -/
theorem Decodes.cut (h : Decodes (u ++ v) t) :
    (∃ a b, t = a ++ b ∧ Decodes u a ∧ Decodes v b) ∨ ∃ front w x, CutsUnit u v front w x := by
  generalize heq : u ++ v = cs at h
  induction h generalizing u with
  | nil =>
      obtain ⟨rfl, rfl⟩ := List.append_eq_nil_iff.mp heq
      exact .inl ⟨[], [], rfl, .nil, .nil⟩
  | @unit unit cs t c hunit h ih =>
      rcases List.append_eq_append_iff.mp heq with ⟨x, rfl, rfl⟩ | ⟨u', rfl, rfl⟩
      · -- the cut is in the first unit, or at one of its ends
        by_cases hu : u = []
        · subst hu
          exact .inl ⟨[], c :: t, rfl, .nil, .unit hunit h⟩
        by_cases hx : x = []
        · subst hx
          rw [List.append_nil] at hunit
          have hone : Decodes (u ++ []) [c] := .unit hunit .nil
          rw [List.append_nil] at hone
          exact .inl ⟨[c], t, rfl, hone, h⟩
        · exact .inr ⟨[], u, x, rfl, ⟨cs, rfl⟩, ⟨[], .nil⟩, hu, hx, c, hunit⟩
      · rcases ih rfl with ⟨a, b, rfl, ha, hb⟩ | ⟨front, w, x, hcut⟩
        · exact .inl ⟨c :: a, b, rfl, .unit hunit ha, hb⟩
        · obtain ⟨a, hfront⟩ := hcut.decodes
          refine .inr ⟨unit ++ front, w, x, { hcut with before := ?_, decodes := ?_ }⟩
          · rw [hcut.before, List.append_assoc]
          · exact ⟨c :: a, .unit hunit hfront⟩

/-- A cut that goes through a unit with a brace stands between a backslash and the brace. -/
theorem CutsUnit.eq_of_brace {brace : Char} {front w x : List Char} (h : CutsUnit u v front w x)
    (hbrace : brace = '{' ∨ brace = '}') (hin : brace ∈ w ++ x) : w = ['\\'] ∧ x = [brace] := by
  obtain ⟨c, hunit⟩ := h.denotes
  rcases hunit.eq_of_mem hbrace hin with heq | heq
  · rw [List.append_eq_singleton_iff] at heq
    rcases heq with ⟨hnil, -⟩ | ⟨-, hnil⟩
    · exact absurd hnil h.left
    · exact absurd hnil h.right
  · obtain ⟨d, w, rfl⟩ := List.exists_cons_of_ne_nil h.left
    cases w with
    | nil => simpa using heq
    | cons e w =>
        have hx := h.right
        simp_all

/-- A well-formed text may be cut behind a closing brace. -/
theorem Decodes.cut_closing (h : Decodes (u ++ '}' :: v) t) :
    ∃ a b, t = a ++ b ∧ Decodes (u ++ ['}']) a ∧ Decodes v b := by
  rw [← List.singleton_append, ← List.append_assoc] at h
  rcases h.cut with hcut | ⟨front, w, x, hcut⟩
  · exact hcut
  · -- the cut would stand behind a backslash, and not behind the brace
    exfalso
    have hlast : w.getLast? = some '}' := by
      have hlast := congrArg List.getLast? hcut.before
      rw [List.getLast?_concat, List.getLast?_append_of_ne_nil _ hcut.left] at hlast
      exact hlast.symm
    have hin : '}' ∈ w ++ x := List.mem_append_left x (List.mem_of_getLast? hlast)
    obtain ⟨rfl, -⟩ := hcut.eq_of_brace (.inr rfl) hin
    exact absurd hlast (by decide)

end Escape

/-! ## The cut of a template -/

namespace Segment

/-- Literal text: a backslash is taken with the character after it, and no other character is a
brace that opens. -/
inductive IsRun : List Char → Prop where
  | nil : IsRun []
  | escaped {c : Char} {cs : List Char} (h : IsRun cs) : IsRun ('\\' :: c :: cs)
  | plain {c : Char} {cs : List Char} (hbackslash : c ≠ '\\') (hbrace : c ≠ '{') (h : IsRun cs) :
      IsRun (c :: cs)

/-- A template with escapes, cut from left to right into literal runs and placeholders. -/
inductive CutsInto : List Char → List Segment → Prop where
  | nil : CutsInto [] []
  /-- A run goes on up to a brace or to the end. -/
  | run {run cs : List Char} {segments : List Segment} (hne : run ≠ []) (hrun : IsRun run)
      (hend : cs.head?.all (· == '{')) (h : CutsInto cs segments) :
      CutsInto (run ++ cs) (literal run :: segments)
  /-- A placeholder goes on up to the next closing brace. -/
  | placeholder {path cs : List Char} {segments : List Segment} (hpath : '}' ∉ path)
      (h : CutsInto cs segments) :
      CutsInto ('{' :: (path ++ '}' :: cs)) (placeholder path :: segments)
  /-- With no closing brace behind it, a brace begins a last run. -/
  | unclosed {cs : List Char} (h : '}' ∉ cs) : CutsInto ('{' :: cs) [literal ('{' :: cs)]

/-- What a part shows once its escapes are decoded; the text of a value has none. -/
def decoded (s : Scope) : Segment → Except Malformed (List Char)
  | literal text => decode text
  | placeholder path =>
    match s.lookup (trim path) with
    | some v => .ok v.render.toList
    | none => decode (source (placeholder path))

variable {run cs u v t : List Char} {c : Char} {segments : List Segment} {s : Scope}

/-! ### Runs -/

theorem IsRun.append (hu : IsRun u) (hv : IsRun v) : IsRun (u ++ v) := by
  induction hu with
  | nil => exact hv
  | escaped _ ih => exact .escaped ih
  | plain hbackslash hbrace _ ih => exact .plain hbackslash hbrace ih

theorem isRun_of_not_mem (hbackslash : '\\' ∉ cs) (hbrace : '{' ∉ cs) : IsRun cs := by
  induction cs with
  | nil => exact .nil
  | cons c cs ih =>
      rw [List.mem_cons, not_or] at hbackslash hbrace
      exact .plain (Ne.symm hbackslash.1) (Ne.symm hbrace.1) (ih hbackslash.2 hbrace.2)

/-- Digits are literal text. -/
theorem isRun_of_isHexDigit (h : cs.all isHexDigit) : IsRun cs := by
  have hout : ∀ c, isHexDigit c = false → c ∉ cs := by
    intro c hc hin
    rw [List.all_eq_true.mp h c hin] at hc
    cases hc
  exact isRun_of_not_mem (hout _ (by decide)) (hout _ (by decide))

/-- Every unit but an opening brace is literal text. -/
theorem isRun_of_denotes (h : Denotes u c) (hbrace : u ≠ ['{']) : IsRun u := by
  cases h with
  | plain hc => exact .plain hc (fun heq => hbrace (by rw [heq])) .nil
  | escape h =>
      cases h with
      | letter _ => exact .escaped .nil
      | codePoint _ hdigits _ =>
          exact .escaped (isRun_of_isHexDigit (isHexDigit_of_natural? hdigits).2)

theorem IsRun.of_cons (h : IsRun (c :: cs)) (hc : c ≠ '\\') : IsRun cs := by
  cases h with
  | escaped _ => exact absurd rfl hc
  | plain _ _ h => exact h

theorem IsRun.of_escaped (h : IsRun ('\\' :: c :: cs)) : IsRun cs := by
  cases h with
  | escaped h => exact h
  | plain hbackslash _ _ => exact absurd rfl hbackslash

theorem IsRun.of_digits (h : IsRun (u ++ v)) (hu : u.all isHexDigit) : IsRun v := by
  induction u with
  | nil => exact h
  | cons d u ih =>
      rw [List.all_cons, Bool.and_eq_true] at hu
      have hd : d ≠ '\\' := by
        rintro rfl
        exact absurd hu.1 (by decide)
      exact ih (h.of_cons hd) hu.2

/-- What is left of a run behind a unit is a run. -/
theorem IsRun.of_append (h : IsRun (u ++ v)) (hu : Denotes u c) : IsRun v := by
  cases hu with
  | plain hc => exact h.of_cons hc
  | escape hu =>
      cases hu with
      | letter _ => exact h.of_escaped
      | codePoint _ hdigits _ => exact h.of_escaped.of_digits (isHexDigit_of_natural? hdigits).2

/-- A run does not end in a backslash that would take the next character. -/
theorem not_isRun_of_decodes (h : Decodes u t) : ¬IsRun (u ++ ['\\']) := by
  induction h with
  | nil =>
      intro hrun
      cases hrun with
      | plain hbackslash _ _ => exact hbackslash rfl
  | unit hu _ ih =>
      intro hrun
      rw [List.append_assoc] at hrun
      exact ih (hrun.of_append hu)

/-- A well-formed text may be cut behind a run that goes on up to a brace or to the end. -/
theorem decodes_of_isRun (h : Decodes (run ++ cs) t) (hrun : IsRun run)
    (hend : cs.head?.all (· == '{')) : ∃ a b, t = a ++ b ∧ Decodes run a ∧ Decodes cs b := by
  rcases h.cut with hcut | ⟨front, w, x, hcut⟩
  · exact hcut
  · exfalso
    obtain ⟨rest, rfl⟩ := hcut.behind
    obtain ⟨a, hfront⟩ := hcut.decodes
    have hx := hcut.right
    obtain ⟨d, x, rfl⟩ := List.exists_cons_of_ne_nil hx
    obtain rfl : d = '{' := by simpa using hend
    have hin : '{' ∈ w ++ '{' :: x := List.mem_append_right w List.mem_cons_self
    obtain ⟨rfl, -⟩ := hcut.eq_of_brace (.inl rfl) hin
    have hbefore := hcut.before
    subst hbefore
    exact not_isRun_of_decodes hfront hrun

/-- A well-formed text begins with a run, perhaps an empty one. -/
theorem exists_isRun (h : Decodes cs t) :
    ∃ run rest b, cs = run ++ rest ∧ IsRun run ∧ rest.head?.all (· == '{') ∧ Decodes rest b := by
  induction h with
  | nil => exact ⟨[], [], [], rfl, .nil, rfl, .nil⟩
  | @unit u cs t c hu h ih =>
      by_cases hbrace : u = ['{']
      · subst hbrace
        exact ⟨[], '{' :: cs, c :: t, rfl, .nil, rfl, .unit hu h⟩
      · obtain ⟨run, rest, b, rfl, hrun, hend, hrest⟩ := ih
        refine ⟨u ++ run, rest, b, ?_, (isRun_of_denotes hu hbrace).append hrun, hend, hrest⟩
        rw [List.append_assoc]

/-! ### Parts of well-formed templates -/

/-- Every well-formed template has a cut. -/
theorem exists_cutsInto (h : Decodes cs t) : ∃ segments, CutsInto cs segments := by
  induction hlength : cs.length using Nat.strong_induction_on generalizing cs t with
  | _ n ih =>
    subst hlength
    obtain ⟨run, rest, b, rfl, hrun, hend, hrest⟩ := exists_isRun h
    by_cases hne : run = []
    · subst hne
      cases rest with
      | nil => exact ⟨[], .nil⟩
      | cons c rest =>
          obtain rfl : c = '{' := by simpa using hend
          by_cases hclosed : '}' ∈ rest
          · obtain ⟨path, more, rfl, hpath⟩ := List.eq_append_cons_of_mem hclosed
            obtain ⟨-, b', -, -, hmore⟩ := Decodes.cut_closing (u := '{' :: path) h
            obtain ⟨segments, hsegments⟩ := ih more.length (by simp; omega) hmore rfl
            exact ⟨_, .placeholder hpath hsegments⟩
          · exact ⟨_, .unclosed hclosed⟩
    · have hlt : rest.length < (run ++ rest).length := by
        have := List.length_pos_iff.mpr hne
        rw [List.length_append]
        omega
      obtain ⟨segments, hsegments⟩ := ih rest.length hlt hrest rfl
      exact ⟨_, .run hne hrun hend hsegments⟩

/-- Each part of a well-formed template is well formed. -/
theorem CutsInto.decodes (hcut : CutsInto cs segments) (h : Decodes cs t) :
    ∃ parts, List.Forall₂ (fun segment part => Decodes segment.source part) segments parts ∧
      t = parts.flatten := by
  induction hcut generalizing t with
  | nil =>
      obtain rfl : [] = t := by
        have hnil := decode_of_decodes h
        rw [decode_of_decodes .nil] at hnil
        exact Except.ok.inj hnil
      exact ⟨[], .nil, rfl⟩
  | @run run cs segments _ hrun hend _ ih =>
      obtain ⟨a, b, rfl, ha, hb⟩ := decodes_of_isRun h hrun hend
      obtain ⟨parts, hparts, rfl⟩ := ih hb
      exact ⟨a :: parts, .cons ha hparts, rfl⟩
  | @placeholder path cs segments _ _ ih =>
      obtain ⟨a, b, rfl, ha, hb⟩ := Decodes.cut_closing (u := '{' :: path) h
      obtain ⟨parts, hparts, rfl⟩ := ih hb
      exact ⟨a :: parts, .cons ha hparts, rfl⟩
  | unclosed _ => exact ⟨[t], .cons h .nil, by simp⟩

/-! ### What is shown -/

theorem ofTemplate_placeholder {path : List Char} (hpath : '}' ∉ path) (escapes : Bool)
    (cs : List Char) : ofTemplate escapes ('{' :: (path ++ '}' :: cs)) =
      placeholder path :: ofTemplate escapes cs := by
  have hsplit : splitOnce? '}' (path ++ '}' :: cs) = some (path, cs) := splitOnce?_append hpath cs
  rw [ofTemplate, if_pos rfl]
  split
  · next hnone =>
    rw [hsplit] at hnone
    cases hnone
  · next hsome =>
    rw [hsplit] at hsome
    cases hsome
    rfl

theorem ofTemplate_unclosed (h : '}' ∉ cs) (escapes : Bool) :
    ofTemplate escapes ('{' :: cs) = [literal ('{' :: cs)] := by
  have hsplit : splitOnce? '}' cs = none := splitOnce?_eq_none h
  rw [ofTemplate, if_pos rfl]
  split
  · rfl
  · next hsome =>
    rw [hsplit] at hsome
    cases hsome

theorem flatMap_shown_append (hrun : IsRun run) (cs : List Char) :
    (ofTemplate true (run ++ cs)).flatMap (shown s) =
      run ++ (ofTemplate true cs).flatMap (shown s) := by
  induction hrun with
  | nil => rfl
  | @escaped c run _ ih =>
      rw [List.cons_append, List.cons_append, ofTemplate, if_neg (by decide)]
      simp [shown, ih]
  | @plain c run hbackslash hbrace _ ih =>
      rw [List.cons_append, ofTemplate, if_neg hbrace]
      simp [shown, ih, hbackslash]

/-- The parts of a cut show what the template shows before escapes are decoded. -/
theorem CutsInto.flatMap_shown (hcut : CutsInto cs segments) :
    (ofTemplate true cs).flatMap (shown s) = segments.flatMap (shown s) := by
  induction hcut with
  | nil => rw [ofTemplate]
  | @run run cs segments _ hrun _ _ ih =>
      rw [flatMap_shown_append hrun, ih, List.flatMap_cons]
      rfl
  | @placeholder path cs segments hpath _ ih =>
      rw [ofTemplate_placeholder hpath, List.flatMap_cons, ih, List.flatMap_cons]
  | unclosed h => rw [ofTemplate_unclosed h]

/-- Where no placeholder leads anywhere, the template shows itself. -/
theorem CutsInto.flatMap_shown_of_none (hcut : CutsInto cs segments)
    (hnone : ∀ path, Segment.placeholder path ∈ segments → s.lookup (trim path) = none) :
    segments.flatMap (shown s) = cs := by
  induction hcut with
  | nil => rfl
  | @run run cs segments _ _ _ _ ih =>
      rw [List.flatMap_cons, ih fun path hpath => hnone path (List.mem_cons_of_mem _ hpath)]
      rfl
  | @placeholder path cs segments _ _ ih =>
      rw [List.flatMap_cons, ih fun path hpath => hnone path (List.mem_cons_of_mem _ hpath), shown,
        hnone path List.mem_cons_self]
      simp [source]
  | unclosed _ => simp [shown]

/-- A part that is well formed decodes to something, and what it shows is then well formed. -/
theorem exists_decoded {segment : Segment} {part : List Char} (h : Decodes segment.source part)
    (hvalue : ∀ path v, segment = placeholder path → s.lookup (trim path) = some v →
      '\\' ∉ v.render.toList) :
    ∃ w, segment.decoded s = .ok w ∧ Decodes (segment.shown s) w := by
  cases segment with
  | literal text => exact ⟨part, decode_of_decodes h, h⟩
  | placeholder path =>
      cases hlookup : s.lookup (trim path) with
      | none =>
          simp only [decoded, shown, hlookup]
          exact ⟨part, decode_of_decodes h, h⟩
      | some v =>
          have hplain : '\\' ∉ v.render.toList := hvalue path v rfl hlookup
          simp only [decoded, shown, hlookup]
          exact ⟨v.render.toList, rfl, decodes_of_not_mem hplain⟩

/-- Well-formed parts next to each other. -/
theorem decodes_flatMap {f : Segment → List Char} {parts : List (List Char)}
    (h : List.Forall₂ (fun segment part => Decodes (f segment) part) segments parts) :
    Decodes (segments.flatMap f) parts.flatten := by
  induction h with
  | nil => exact .nil
  | cons hpart _ ih => exact hpart.append ih

end Segment

open Segment

/-- A well-formed template has a cut into literal runs and placeholders. By any such cut it shows
one part after the other: runs and placeholders that lead nowhere with their own escapes decoded,
and for the other placeholders the texts of their values as they are, unless one of them has a
backslash. -/
theorem renderSource_parts (s : Scope) (cs t : List Char) (h : decode cs = .ok t) :
    (∃ segments, CutsInto cs segments) ∧ ∀ segments, CutsInto cs segments →
      (∀ path v, placeholder path ∈ segments → s.lookup (trim path) = some v →
        '\\' ∉ v.render.toList) →
      (∃ parts, List.Forall₂ (fun segment part => segment.decoded s = .ok part) segments parts ∧
        renderSource s cs true = parts.flatten) ∧
      ((∀ path, placeholder path ∈ segments → s.lookup (trim path) = none) →
        renderSource s cs true = t) := by
  have hdecodes : Decodes cs t := decode_eq_ok_iff.mp h
  refine ⟨exists_cutsInto hdecodes, ?_⟩
  intro segments hcut hvalues
  have hrender : renderSource s cs true = decodeLenient (segments.flatMap (shown s)) := by
    rw [← hcut.flatMap_shown]
    rfl
  obtain ⟨sources, hsources, -⟩ := hcut.decodes hdecodes
  -- a part is decoded by itself, and so is what it shows
  have hparts : ∀ segment ∈ segments,
      ∃ w, segment.decoded s = .ok w ∧ Decodes (segment.shown s) w := by
    intro segment hsegment
    obtain ⟨part, -, hpart⟩ := exists_mem_right hsources hsegment
    refine exists_decoded hpart ?_
    rintro path v rfl hlookup
    exact hvalues path v hsegment hlookup
  obtain ⟨parts, hparts⟩ := exists_forall₂_iff.mpr hparts
  have hshown : Decodes (segments.flatMap (shown s)) parts.flatten :=
    decodes_flatMap (hparts.imp fun _ _ hpart => hpart.2)
  refine ⟨⟨parts, hparts.imp fun _ _ hpart => hpart.1, ?_⟩, ?_⟩
  · rw [hrender]
    exact decodeLenient_of_decodes hshown
  · intro hnone
    rw [hrender, hcut.flatMap_shown_of_none hnone]
    exact decodeLenient_of_decodes hdecodes

/-- Runs with escapes of both kinds, values with braces in their text, an escaped brace, a backslash
before a closing brace and a brace that is never closed. -/
def mixedSource : List Char := "\\u0041\x7bx\x7d\\n\x7b y \x7d\\\x7b\x7bq\\\x7d\x7bz".toList

def mixedSegments : List Segment :=
  [literal "\\u0041".toList, placeholder ['x'], literal ['\\', 'n'], placeholder [' ', 'y', ' '],
    literal ['\\', '{'], placeholder ['q', '\\'], literal ['{', 'z']]

def mixedScope : Scope := ⟨none, [("x", .text (.plain "\x7by\x7d")), ("y", .int 7)]⟩

theorem cutsInto_mixed : CutsInto mixedSource mixedSegments := by
  have hunicode : IsRun "\\u0041".toList := .escaped (isRun_of_not_mem (by decide) (by decide))
  have hbrace : IsRun ['\\', '{'] := .escaped .nil
  have hline : IsRun ['\\', 'n'] := .escaped .nil
  have hq : '}' ∉ ['q', '\\'] := by decide
  have hy : '}' ∉ [' ', 'y', ' '] := by decide
  have hx : '}' ∉ ['x'] := by decide
  have hz : CutsInto ['{', 'z'] [literal ['{', 'z']] := .unclosed (by decide)
  have hclosed : CutsInto "\\\x7b\x7bq\\\x7d\x7bz".toList _ :=
    .run (by decide) hbrace (by decide) (.placeholder hq hz)
  have htail : CutsInto "\\n\x7b y \x7d\\\x7b\x7bq\\\x7d\x7bz".toList _ :=
    .run (by decide) hline (by decide) (.placeholder hy hclosed)
  exact .run (by decide) hunicode (by decide) (.placeholder hx htail)

theorem renderSource_parts_mixed :
    decode mixedSource = .ok "A\x7bx\x7d\n\x7b y \x7d\x7b\x7bq\x7d\x7bz".toList ∧
      CutsInto mixedSource mixedSegments ∧
      ∃ parts, List.Forall₂ (fun segment part => segment.decoded mixedScope = .ok part)
        mixedSegments parts ∧ renderSource mixedScope mixedSource true = parts.flatten := by
  have hdecode : decode mixedSource =
      .ok "A\x7bx\x7d\n\x7b y \x7d\x7b\x7bq\x7d\x7bz".toList := by decide +kernel
  have hvalues : ∀ path v, placeholder path ∈ mixedSegments →
      mixedScope.lookup (trim path) = some v → '\\' ∉ v.render.toList := by
    intro path v hin hlookup
    simp only [mixedSegments, List.mem_cons, reduceCtorEq, Segment.placeholder.injEq,
      List.not_mem_nil, or_false, false_or] at hin
    rcases hin with rfl | rfl | rfl
    · cases hlookup
      decide
    · cases hlookup
      decide
    · cases hlookup
  obtain ⟨-, hparts⟩ := renderSource_parts mixedScope mixedSource _ hdecode
  exact ⟨hdecode, cutsInto_mixed, (hparts mixedSegments cutsInto_mixed hvalues).1⟩

/-- The braces of a value that is shown open no placeholder. -/
example : renderSource mixedScope mixedSource true =
    "A\x7by\x7d\n7\x7b\x7bq\x7d\x7bz".toList := by
  decide +kernel

end RowConfig
