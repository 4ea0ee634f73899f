import RowConfig.LineKind
import RowConfig.Proofs.Scan
import RowConfig.Proofs.Chars

/-!
# The grammar of lines

`LineKind.Fits` says which lines are headers, field declarations, overrides of defaults and rows:
each shape is its parts in a row, and what is reported of a line are these parts with the places at
which they begin. A line fits one shape at most, so the order in which they are tried does not
matter, and recognising a line is finding the shape that it fits; an indented line that fits none
continues what stands before it (`LineKind.ofLine?_exact`).
-/

namespace RowConfig

open Chars

variable {cs u v lead line name value : List Char}

/-! ## Names -/

namespace Chars

theorem head_isIdentifierPart (h : isIdentifier u) (v : List Char) :
    ∀ c ∈ (u ++ v).head?, isIdentifierPart c := by
  obtain ⟨c, rest, rfl⟩ := List.exists_cons_of_ne_nil (ne_nil_of_isIdentifier h)
  rintro d ⟨⟩
  exact isIdentifierPart_of_mem h List.mem_cons_self

/-- A name begins with no blank. -/
theorem head_of_isIdentifier (h : isIdentifier u) (v : List Char) :
    ∀ c ∈ (u ++ v).head?, isBlank c = false := fun c hc =>
  isBlank_of_isIdentifierPart (head_isIdentifierPart h v c hc)

theorem isIdentifierPart_of_isBlank {c : Char} (h : isBlank c) : isIdentifierPart c = false := by
  rw [Bool.eq_false_iff]
  intro hpart
  rw [isBlank_of_isIdentifierPart hpart] at h
  cases h

/-- A text is cut behind the name that begins it. -/
theorem leadingIdentifier_append_drop (cs : List Char) :
    leadingIdentifier cs ++ cs.drop (leadingIdentifier cs).length = cs := by
  have hprefix : leadingIdentifier cs <+: cs := by
    simp only [leadingIdentifier]
    split
    · exact List.takeWhile_prefix _
    · exact List.nil_prefix
  exact (List.prefix_append_drop hprefix).symm

theorem isIdentifier_leadingIdentifier (cs : List Char) (h : leadingIdentifier cs ≠ []) :
    isIdentifier (leadingIdentifier cs) := by
  simp only [leadingIdentifier] at h ⊢
  split at h
  · next hname =>
    rw [if_pos hname]
    exact hname
  · exact absurd rfl h

/-- A name at the start of a text is cut off where no character of a name follows. -/
theorem leadingIdentifier_eq (h : isIdentifier u) (hv : ∀ c ∈ v.head?, isIdentifierPart c = false) :
    leadingIdentifier (u ++ v) = u := by
  cases v with
  | nil =>
      have hrun : u.takeWhile isIdentifierPart = u :=
        List.takeWhile_eq_self_iff.mpr fun c hc => isIdentifierPart_of_mem h hc
      rw [List.append_nil, leadingIdentifier, hrun]
      simp only [h, if_true]
  | cons c v => exact leadingIdentifier_append h (hv c rfl)

end Chars

namespace LineKind

/-! ## The shapes -/

/-- The array mark of a type, or nothing. -/
def arrayMark (array : Bool) : List Char := if array then ['[', ']'] else []

/-- A line that is a header, a field declaration, an override or a row, and what it says. Each shape
is its parts in a row, of which `lead`, `gap`, `between` and `tail` are blanks. -/
inductive Fits : List Char → LineKind → Prop where
  | header {name : List Char} (hname : isIdentifier name) (hupper : name.head?.any Char.isUpper) :
      Fits (name ++ [':']) (.header name)
  /-- Where there are no marks, all blanks before the type are indentation. -/
  | field (array : Bool) {lead marks gap type between name tail rest before value : List Char}
      (hlead : ∀ c ∈ lead, isBlank c) (hmarks : ∀ c ∈ marks, c = '*' ∨ c = '?')
      (hgap : ∀ c ∈ gap, isBlank c) (hindent : marks = [] → gap = []) (htype : isIdentifier type)
      (hbetween : ∀ c ∈ between, isBlank c) (hapart : between ≠ []) (hname : isIdentifier name)
      (htail : ∀ c ∈ tail, isBlank c) (hvalue : Trims rest before value) :
      Fits (lead ++ (marks ++ (gap ++ (type ++ (arrayMark array ++ (between ++
          (name ++ (tail ++ ':' :: rest))))))))
        (.field {
          isGlobal := lead.isEmpty
          isKey := marks.contains '*'
          nullable := marks.contains '?'
          typeName := type
          array := array
          name := ⟨name, byteSize
            (lead ++ (marks ++ (gap ++ (type ++ (arrayMark array ++ between)))))⟩
          value := ⟨value, byteSize
            (lead ++ (marks ++ (gap ++ (type ++ (arrayMark array ++ (between ++
            (name ++ (tail ++ ':' :: before))))))))⟩ })
  | override {lead name tail rest before value : List Char} (hlead : ∀ c ∈ lead, isBlank c)
      (hindented : lead ≠ []) (hname : isIdentifier name) (htail : ∀ c ∈ tail, isBlank c)
      (hend : atWordEnd rest) (hvalue : Trims rest before value) :
      Fits (lead ++ (name ++ (tail ++ ':' :: rest)))
        (.override ⟨name, byteSize lead⟩
          ⟨value, byteSize (lead ++ (name ++ (tail ++ ':' :: before)))⟩)
  | row {lead arguments : List Char} (hlead : ∀ c ∈ lead, isBlank c) (hend : atWordEnd arguments) :
      Fits (lead ++ '-' :: arguments) (.row ⟨arguments, byteSize (lead ++ ['-'])⟩)

/-- An indented text by itself. -/
inductive Continues : List Char → LineKind → Prop where
  | mk {lead text : List Char} (hlead : ∀ c ∈ lead, isBlank c) (hindented : lead ≠ [])
      (htext : ∀ c ∈ text.head?, isBlank c = false) :
      Continues (lead ++ text) (.continuation ⟨text, byteSize lead⟩)

/-! ## Headers -/

theorem header?_eq_some_iff {k : LineKind} :
    header? line = some k ↔ ∃ name, k = .header name ∧ Fits line k := by
  constructor
  · intro h
    unfold header? at h
    split at h
    · cases h
    · next name hstrip =>
      split at h
      · next hname =>
        obtain ⟨hupper, hname⟩ := Bool.and_eq_true_iff.mp hname
        cases h
        rw [stripEnd?_eq_some_iff.mp hstrip]
        exact ⟨name, rfl, .header hname hupper⟩
      · cases h
  · rintro ⟨name, rfl, hfits⟩
    cases hfits with
    | header hname hupper =>
        have hstrip : stripEnd? [':'] (name ++ [':']) = some name := stripEnd?_eq_some_iff.mpr rfl
        unfold header?
        simp only [hstrip, hname, hupper, Bool.and_self, if_true]

/-! ## Field declarations -/

theorem isBlank_of_mark {c : Char} (h : c = '*' ∨ c = '?') : isBlank c = false := by
  rcases h with rfl | rfl <;> decide

theorem isMark_iff {c : Char} : isMark c ↔ c = '*' ∨ c = '?' := by simp [isMark]

theorem isMark_eq_false {c : Char} (h : isIdentifierPart c) : isMark c = false := by
  rw [Bool.eq_false_iff, ne_eq, isMark_iff]
  rintro (rfl | rfl)
  · exact absurd h (by decide)
  · exact absurd h (by decide)

theorem arrayMark_append_dropArrayMark (cs : List Char) :
    arrayMark (dropArrayMark cs).1 ++ (dropArrayMark cs).2 = cs := by
  unfold dropArrayMark
  split <;> rfl

theorem dropArrayMark_append {array : Bool} (hu : ∀ c ∈ u.head?, c ≠ '[') :
    dropArrayMark (arrayMark array ++ u) = (array, u) := by
  cases array with
  | true => rfl
  | false =>
      show dropArrayMark u = _
      unfold dropArrayMark
      split
      · exact absurd rfl (hu '[' rfl)
      · rfl

theorem isBlank_of_mem_indent (cs : List Char) : ∀ c ∈ indent cs, isBlank c :=
  fun _ hc => List.mem_takeWhile_imp hc

/-- A colon ends a name, with or without blanks before it. -/
theorem head_colon {tail : List Char} (htail : ∀ c ∈ tail, isBlank c) (rest : List Char) :
    ∀ c ∈ (tail ++ ':' :: rest).head?, isIdentifierPart c = false := by
  cases tail with
  | nil =>
      rintro c ⟨⟩
      decide
  | cons d tail =>
      rintro c ⟨⟩
      exact isIdentifierPart_of_isBlank (htail d List.mem_cons_self)

/-- A type is followed by its array mark or by blanks. -/
theorem head_arrayMark {between : List Char} (hbetween : ∀ c ∈ between, isBlank c)
    (hapart : between ≠ []) (array : Bool) (v : List Char) :
    ∀ c ∈ (arrayMark array ++ (between ++ v)).head?, isIdentifierPart c = false := by
  obtain ⟨b, bs, rfl⟩ := List.exists_cons_of_ne_nil hapart
  cases array with
  | true =>
      rintro c ⟨⟩
      decide
  | false =>
      rintro c ⟨⟩
      exact isIdentifierPart_of_isBlank (hbetween b List.mem_cons_self)

theorem fits_of_fieldLine? {f : FieldLine} (h : fieldLine? line = some f) : Fits line (.field f) := by
  unfold fieldLine? at h
  simp only at h
  -- the line without its indentation, cut behind the marks
  have hline := indent_append_trimStart line
  have hlead := isBlank_of_mem_indent line
  have hhead := head_trimStart line
  generalize indent line = lead at h hline hlead
  generalize trimStart line = unindented at h hline hhead
  have hunindented := List.takeWhile_append_dropWhile (p := isMark) (l := unindented)
  have hmarks : ∀ c ∈ unindented.takeWhile isMark, c = '*' ∨ c = '?' := fun c hc =>
    isMark_iff.mp (List.mem_takeWhile_imp hc)
  generalize unindented.takeWhile isMark = marks at h hunindented hmarks
  generalize unindented.dropWhile isMark = unmarked at h hunindented
  have hindent : marks = [] → indent unmarked = [] := by
    rintro rfl
    rw [List.nil_append] at hunindented
    rw [hunindented]
    exact (indent_and_trimStart_append (u := []) nofun hhead).1
  -- the type with its array mark
  have hunmarked := indent_append_trimStart unmarked
  have hgap := isBlank_of_mem_indent unmarked
  generalize indent unmarked = gap at h hunmarked hgap hindent
  generalize trimStart unmarked = typed at h hunmarked
  have htyped := leadingIdentifier_append_drop typed
  have htype := isIdentifier_leadingIdentifier typed
  generalize leadingIdentifier typed = type at h htyped htype
  generalize typed.drop type.length = suffix at h htyped
  have hsuffix := arrayMark_append_dropArrayMark suffix
  generalize (dropArrayMark suffix).1 = array at h hsuffix
  generalize (dropArrayMark suffix).2 = afterType at h hsuffix
  -- the name and what stands behind it
  have hafterType := indent_append_trimStart afterType
  have hbetween := isBlank_of_mem_indent afterType
  generalize indent afterType = between at h hafterType hbetween
  generalize trimStart afterType = named at h hafterType
  have hnamed := leadingIdentifier_append_drop named
  have hname := isIdentifier_leadingIdentifier named
  generalize leadingIdentifier named = name at h hnamed hname
  generalize named.drop name.length = afterName at h hnamed
  have hafterName := indent_append_trimStart afterName
  have htail := isBlank_of_mem_indent afterName
  generalize indent afterName = tail at hafterName htail
  split at h
  · next rest hrest =>
    split at h
    · cases h
    · next hparts =>
      cases h
      simp only [Bool.or_eq_true, List.isEmpty_iff, not_or] at hparts
      obtain ⟨⟨htypeNe, hapart⟩, hnameNe⟩ := hparts
      rw [hrest] at hafterName
      subst hafterName hnamed hafterType hsuffix htyped hunmarked hunindented hline
      have hvalue := trims_trim rest
      have hfits := Fits.field array hlead hmarks hgap hindent (htype htypeNe) hbetween hapart
        (hname hnameNe) htail hvalue
      convert hfits using 4
      · simp only [byteSize_append]
        omega
      · rfl
      · simp only [trimmedPart, byteSize_append, byteSize_cons]
        omega
  · cases h

/-- A field declaration is read in its parts. -/
theorem fieldLine?_of_fits {f : FieldLine} (h : Fits line (.field f)) : fieldLine? line = some f := by
  cases h with
  | @field array lead marks gap type between name tail rest _ _ hlead hmarks hgap hindent htype
    hbetween
      hapart hname htail hvalue =>
      obtain ⟨rfl, rfl⟩ := hvalue.eq
      -- from the end of the line on, each part is followed by something that is none of it
      have hafterName : trimStart (tail ++ ':' :: rest) = ':' :: rest := by
        rw [trimStart_append htail, trimStart_cons (by decide)]
      have hnamed : leadingIdentifier (name ++ (tail ++ ':' :: rest)) = name :=
        leadingIdentifier_eq hname (head_colon htail rest)
      have hnameHead := head_of_isIdentifier hname (tail ++ ':' :: rest)
      generalize hnamedEq : name ++ (tail ++ ':' :: rest) = named at hnamed hnameHead ⊢
      have hafterType := indent_and_trimStart_append hbetween hnameHead
      have harray : dropArrayMark (arrayMark array ++ (between ++ named)) =
          (array, between ++ named) := by
        apply dropArrayMark_append
        obtain ⟨b, bs, rfl⟩ := List.exists_cons_of_ne_nil hapart
        rintro c ⟨⟩
        exact ne_of_class (hbetween b List.mem_cons_self) (by decide)
      have htyped : leadingIdentifier (type ++ (arrayMark array ++ (between ++ named))) = type :=
        leadingIdentifier_eq htype (head_arrayMark hbetween hapart array named)
      have htypeHead := head_of_isIdentifier htype (arrayMark array ++ (between ++ named))
      have htypePart := head_isIdentifierPart htype (arrayMark array ++ (between ++ named))
      generalize hsuffix : arrayMark array ++ (between ++ named) = suffix at *
      have hunmarked := indent_and_trimStart_append hgap htypeHead
      have hunindented : (marks ++ (gap ++ (type ++ suffix))).takeWhile isMark = marks ∧
          (marks ++ (gap ++ (type ++ suffix))).dropWhile isMark = gap ++ (type ++ suffix) := by
        refine takeWhile_and_dropWhile_append (fun c hc => isMark_iff.mpr (hmarks c hc)) ?_
        cases gap with
        | nil => exact fun c hc => isMark_eq_false (htypePart c hc)
        | cons d gap =>
            rintro c ⟨⟩
            rw [Bool.eq_false_iff, ne_eq, isMark_iff]
            intro hmark
            have hd := hgap d List.mem_cons_self
            rw [isBlank_of_mark hmark] at hd
            cases hd
      have hline : indent (lead ++ (marks ++ (gap ++ (type ++ suffix)))) = lead ∧
          trimStart (lead ++ (marks ++ (gap ++ (type ++ suffix)))) =
            marks ++ (gap ++ (type ++ suffix)) := by
        apply indent_and_trimStart_append hlead
        cases marks with
        | nil =>
            rw [hindent rfl]
            exact htypeHead
        | cons m marks =>
            rintro c ⟨⟩
            exact isBlank_of_mark (hmarks m List.mem_cons_self)
      unfold fieldLine?
      simp only [hline, hunindented, hunmarked, htyped, List.drop_left, harray, hafterType, hnamed]
      simp only [← hnamedEq, List.drop_left, hafterName,
        List.isEmpty_eq_false_iff.mpr (ne_nil_of_isIdentifier htype),
        List.isEmpty_eq_false_iff.mpr hapart,
        List.isEmpty_eq_false_iff.mpr (ne_nil_of_isIdentifier hname),
        Bool.or_false, Bool.false_eq_true, if_false, Option.some.injEq, FieldLine.mk.injEq, true_and,
        trimmedPart, Part.mk.injEq]
      simp only [← hsuffix, ← hnamedEq, byteSize_append, byteSize_cons]
      omega

/-! ## Overrides, rows and continuations -/

theorem override?_eq_some_iff {k : LineKind} :
    override? line = some k ↔ ∃ name value, k = .override name value ∧ Fits line k := by
  constructor
  · intro h
    unfold override? at h
    split at h
    · cases h
    · next hindented =>
      obtain ⟨⟨name, rest, offset⟩, hnamed, rfl⟩ := Option.map_eq_some_iff.mp h
      refine ⟨_, _, rfl, ?_⟩
      obtain ⟨lead, tail, hlead, htail, hname, hend, hstart, rfl⟩ := splitNamed?_eq_some_iff.mp hnamed
      -- the text has no blanks at its start any more
      obtain rfl : lead = [] := by
        cases lead with
        | nil => rfl
        | cons c lead =>
            have hc := head_trimStart line c (by rw [hstart]; rfl)
            rw [hlead c List.mem_cons_self] at hc
            cases hc
      have hline := indent_append_trimStart line
      rw [hstart, List.nil_append, List.append_assoc] at hline
      have hfits := Fits.override (isBlank_of_mem_indent line)
        (by rwa [List.isEmpty_iff] at hindented) hname htail hend (trims_trim rest)
      rw [hline] at hfits
      have hoffset : byteSize (indent line) + (byteSize ([] ++ (name ++ tail)) + 1) +
          byteSize (indent rest) =
            byteSize (indent line ++ (name ++ (tail ++ ':' :: indent rest))) := by
        have hcolon : ':'.utf8Size = 1 := rfl
        simp only [List.nil_append, byteSize_append, byteSize_cons]
        omega
      rw [trimmedPart, hoffset]
      exact hfits
  · rintro ⟨name, value, rfl, hfits⟩
    cases hfits with
    | @override lead name tail rest before value hlead hindented hname htail hend hvalue =>
        obtain ⟨rfl, rfl⟩ := hvalue.eq
        have hcut : indent (lead ++ (name ++ (tail ++ ':' :: rest))) = lead ∧
            trimStart (lead ++ (name ++ (tail ++ ':' :: rest))) = name ++ (tail ++ ':' :: rest) :=
          indent_and_trimStart_append hlead (head_of_isIdentifier hname _)
        have hnamed : splitNamed? (name ++ (tail ++ ':' :: rest)) =
            some ⟨name, rest, byteSize ([] ++ (name ++ tail)) + 1⟩ :=
          splitNamed?_eq_some_iff.mpr ⟨[], tail, nofun, htail, hname, hend, by simp, rfl⟩
        unfold override?
        rw [hcut.1, hcut.2, hnamed, if_neg (by simpa using hindented), Option.map_some, trimmedPart]
        simp only [List.nil_append, byteSize_append, byteSize_cons, Option.some.injEq,
          LineKind.override.injEq, Part.mk.injEq, true_and]
        have hcolon : ':'.utf8Size = 1 := rfl
        omega

theorem row?_eq_some_iff {k : LineKind} :
    row? line = some k ↔ ∃ arguments, k = .row arguments ∧ Fits line k := by
  constructor
  · intro h
    unfold row? at h
    split at h
    · next arguments hstart =>
      split at h
      · next hend =>
        cases h
        refine ⟨_, rfl, ?_⟩
        have hline := indent_append_trimStart line
        rw [hstart] at hline
        have hfits := Fits.row (isBlank_of_mem_indent line) hend
        rw [hline, byteSize_append] at hfits
        exact hfits
      · cases h
    · cases h
  · rintro ⟨arguments, rfl, hfits⟩
    cases hfits with
    | @row lead arguments hlead hend =>
        have hcut : indent (lead ++ '-' :: arguments) = lead ∧
            trimStart (lead ++ '-' :: arguments) = '-' :: arguments :=
          indent_and_trimStart_append hlead (by rintro c ⟨⟩; decide)
        unfold row?
        simp only [hcut, hend, if_true, byteSize_append]
        rfl

theorem continuation?_eq_some_iff {k : LineKind} :
    continuation? line = some k ↔ Continues line k := by
  constructor
  · intro h
    unfold continuation? at h
    split at h
    · cases h
    · next hindented =>
      cases h
      have hcontinues := Continues.mk (isBlank_of_mem_indent line)
        (by rwa [List.isEmpty_iff] at hindented) (head_trimStart line)
      rwa [indent_append_trimStart] at hcontinues
  · rintro ⟨hlead, hindented, htext⟩
    have hcut := indent_and_trimStart_append hlead htext
    unfold continuation?
    rw [hcut.1, hcut.2, if_neg (by simpa using hindented)]

/-! ## One shape at most -/

/-- Only rows begin with a dash, behind blanks. -/
theorem Fits.head?_eq_dash_iff {k : LineKind} (h : Fits line k) :
    (trimStart line).head? = some '-' ↔ ∃ arguments, k = .row arguments := by
  have hpart : ∀ c, isIdentifierPart c → c ≠ '-' := fun c hc => ne_of_class hc (by decide)
  have hname : ∀ lead name rest, (∀ c ∈ lead, isBlank c) → isIdentifier name →
      (trimStart (lead ++ (name ++ rest))).head? ≠ some '-' := by
    intro lead name rest hlead hname hdash
    rw [(indent_and_trimStart_append hlead (head_of_isIdentifier hname rest)).2] at hdash
    exact hpart _ (head_isIdentifierPart hname rest _ hdash) rfl
  cases h with
  | header hn hupper => exact ⟨fun h => absurd h (hname [] _ _ nofun hn), nofun⟩
  | override hlead _ hn => exact ⟨fun h => absurd h (hname _ _ _ hlead hn), nofun⟩
  | @row lead arguments hlead =>
      rw [trimStart_append hlead, trimStart_cons (by decide)]
      exact ⟨fun _ => ⟨_, rfl⟩, fun _ => rfl⟩
  | @field _ lead marks gap type _ _ _ _ _ _ hlead hmarks _ hindent htype =>
      refine ⟨fun h => ?_, nofun⟩
      cases marks with
      | nil =>
          rw [hindent rfl] at h
          exact absurd h (hname _ type _ hlead htype)
      | cons m marks =>
          have hm := hmarks m List.mem_cons_self
          rw [trimStart_append hlead, List.cons_append, trimStart_cons (isBlank_of_mark hm)] at h
          cases h
          rcases hm with hm | hm <;> cases hm

/-- A header holds no blank. -/
theorem Fits.isBlank_eq_false {name : List Char} (h : Fits line (.header name)) :
    ∀ c ∈ line, isBlank c = false := by
  cases h with
  | header hname =>
      intro c hc
      rcases List.mem_append.mp hc with hc | hc
      · exact isBlank_of_isIdentifierPart (isIdentifierPart_of_mem hname hc)
      · rw [List.mem_singleton.mp hc]
        decide

/-- Declarations and overrides do. -/
theorem Fits.exists_isBlank {k : LineKind} (h : Fits line k)
    (hk : (∃ f, k = .field f) ∨ ∃ name value, k = .override name value) : ∃ c ∈ line, isBlank c := by
  cases h with
  | header => simp at hk
  | row => simp at hk
  | field _ _ _ _ _ _ hbetween hapart =>
      obtain ⟨b, bs, rfl⟩ := List.exists_cons_of_ne_nil hapart
      exact ⟨b, by simp, hbetween b List.mem_cons_self⟩
  | override hlead hindented =>
      obtain ⟨b, bs, rfl⟩ := List.exists_cons_of_ne_nil hindented
      exact ⟨b, by simp, hlead b List.mem_cons_self⟩

/-- Behind the first name of a declaration stands another name, behind that of an override a
colon. -/
theorem Fits.not_override {f : FieldLine} {name value : Part} (h : Fits line (.field f)) :
    ¬Fits line (.override name value) := by
  intro h'
  cases h with
  | @field array lead marks gap type between _ tail rest _ _ hlead hmarks _ hindent htype hbetween
      hapart hname =>
    generalize hline : lead ++ (marks ++ _) = line at h'
    cases h' with
    | @override lead' first tail' rest' _ _ hlead' _ hfirst htail' =>
      have hstart := (indent_and_trimStart_append hlead' (head_of_isIdentifier hfirst
        (tail' ++ ':' :: rest'))).2
      rw [← hline, trimStart_append hlead] at hstart
      cases marks with
      | cons m marks =>
          have hm := hmarks m List.mem_cons_self
          rw [List.cons_append, trimStart_cons (isBlank_of_mark hm)] at hstart
          have hpart := head_isIdentifierPart hfirst (tail' ++ ':' :: rest') m (by rw [← hstart]; rfl)
          rw [← isMark_iff, isMark_eq_false hpart] at hm
          cases hm
      | nil =>
          rw [hindent rfl, List.nil_append, List.nil_append, ← List.nil_append (type ++ _),
            (indent_and_trimStart_append (u := []) nofun (head_of_isIdentifier htype _)).2] at hstart
          have hsame := congrArg leadingIdentifier hstart
          rw [leadingIdentifier_eq htype (head_arrayMark hbetween hapart array _),
            leadingIdentifier_eq hfirst (head_colon htail' rest')] at hsame
          subst hsame
          have hbehind := congrArg trimStart (List.append_cancel_left hstart)
          rw [trimStart_append htail', trimStart_cons (c := ':') (by decide)] at hbehind
          cases array with
          | true =>
              rw [show arrayMark true = ['[', ']'] from rfl, List.cons_append,
                trimStart_cons (by decide)] at hbehind
              cases hbehind
          | false =>
              rw [show arrayMark false = [] from rfl, List.nil_append,
                (indent_and_trimStart_append hbetween (head_of_isIdentifier hname _)).2] at hbehind
              have hpart := head_isIdentifierPart hname (tail ++ ':' :: rest) ':'
                (by rw [hbehind]; rfl)
              revert hpart
              decide

/-- A line fits one shape at most, and in one way. -/
theorem Fits.unique {k l : LineKind} (h : Fits line k) (h' : Fits line l) : k = l := by
  have hdash : (∃ a, k = .row a) ↔ ∃ a, l = .row a :=
    h.head?_eq_dash_iff.symm.trans h'.head?_eq_dash_iff
  have hheader : ∀ name k, Fits line (.header name) → Fits line k →
      ¬((∃ f, k = .field f) ∨ ∃ name value, k = .override name value) := by
    intro name k hname hk hkind
    obtain ⟨c, hc, hblank⟩ := hk.exists_isBlank hkind
    rw [hname.isBlank_eq_false c hc] at hblank
    cases hblank
  -- within a kind the line is read by a function
  cases k with
  | header name =>
      cases l with
      | header other =>
          have hread := header?_eq_some_iff.mpr ⟨name, rfl, h⟩
          exact Option.some.inj (hread.symm.trans (header?_eq_some_iff.mpr ⟨other, rfl, h'⟩))
      | field f => exact absurd (.inl ⟨f, rfl⟩) (hheader name _ h h')
      | override other value => exact absurd (.inr ⟨other, value, rfl⟩) (hheader name _ h h')
      | row arguments => simp at hdash
      | continuation text => cases h'
  | field f =>
      cases l with
      | header name => exact absurd (.inl ⟨f, rfl⟩) (hheader name _ h' h)
      | field g =>
          have hread := (fieldLine?_of_fits h).symm.trans (fieldLine?_of_fits h')
          exact congrArg LineKind.field (Option.some.inj hread)
      | override name value => exact absurd h' h.not_override
      | row arguments => simp at hdash
      | continuation text => cases h'
  | override name value =>
      cases l with
      | header other => exact absurd (.inr ⟨name, value, rfl⟩) (hheader other _ h' h)
      | field f => exact absurd h h'.not_override
      | override other value' =>
          have hread := override?_eq_some_iff.mpr ⟨name, value, rfl, h⟩
          exact Option.some.inj (hread.symm.trans (override?_eq_some_iff.mpr ⟨_, _, rfl, h'⟩))
      | row arguments => simp at hdash
      | continuation text => cases h'
  | row arguments =>
      obtain ⟨others, rfl⟩ := hdash.mp ⟨arguments, rfl⟩
      have hread := row?_eq_some_iff.mpr ⟨arguments, rfl, h⟩
      exact Option.some.inj (hread.symm.trans (row?_eq_some_iff.mpr ⟨others, rfl, h'⟩))
  | continuation text => cases h

/-! ## Trying the shapes -/

/-- The first of the four shapes that a line is found to have. -/
def shape? (line : List Char) : Option LineKind :=
  (header? line).or (((fieldLine? line).map field).or ((override? line).or (row? line)))

theorem ofLine?_eq (line : List Char) : ofLine? line = (shape? line).or (continuation? line) := by
  simp only [ofLine?, shape?, HOrElse.hOrElse, OrElse.orElse, Option.orElse_eq_or, Option.or_assoc]

/-- The order in which shapes are tried does not matter. -/
theorem shape?_eq_some_iff {k : LineKind} : shape? line = some k ↔ Fits line k := by
  have hfits : ∀ k, shape? line = some k → Fits line k := by
    intro k h
    simp only [shape?, Option.or_eq_some_iff] at h
    rcases h with h | ⟨-, h | ⟨-, h | ⟨-, h⟩⟩⟩
    · exact (header?_eq_some_iff.mp h).choose_spec.2
    · obtain ⟨f, hf, rfl⟩ := Option.map_eq_some_iff.mp h
      exact fits_of_fieldLine? hf
    · obtain ⟨name, value, -, h⟩ := override?_eq_some_iff.mp h
      exact h
    · exact (row?_eq_some_iff.mp h).choose_spec.2
  refine ⟨hfits k, fun h => ?_⟩
  cases hshape : shape? line with
  | some l => rw [h.unique (hfits l hshape)]
  | none =>
      simp only [shape?, Option.or_eq_none_iff, Option.map_eq_none_iff] at hshape
      obtain ⟨hheader, hfield, hoverride, hrow⟩ := hshape
      -- a line that fits a shape is found to have it
      cases k with
      | header name => rw [header?_eq_some_iff.mpr ⟨name, rfl, h⟩] at hheader; cases hheader
      | field f => rw [fieldLine?_of_fits h] at hfield; cases hfield
      | override name value =>
          rw [override?_eq_some_iff.mpr ⟨name, value, rfl, h⟩] at hoverride; cases hoverride
      | row arguments => rw [row?_eq_some_iff.mpr ⟨arguments, rfl, h⟩] at hrow; cases hrow
      | continuation text => cases h

theorem ofLine?_of_fits {k : LineKind} (h : Fits line k) : ofLine? line = some k := by
  rw [ofLine?_eq, shape?_eq_some_iff.mpr h, Option.some_or]

theorem shape?_eq_none_iff : shape? line = none ↔ ∀ l, ¬Fits line l := by
  simp only [Option.eq_none_iff_forall_ne_some, ne_eq, shape?_eq_some_iff]

/-- A line fits one shape at most, whichever of them is tried first. Recognising a line is finding
this shape with its parts; where there is none, an indented line is a continuation, and no other
line is anything. -/
theorem ofLine?_exact (line : List Char) :
    (∀ k l, Fits line k → Fits line l → k = l) ∧
    (∀ k, ofLine? line = some k ↔ Fits line k ∨ (∀ l, ¬Fits line l) ∧ Continues line k) ∧
    (ofLine? line = none ↔ (∀ l, ¬Fits line l) ∧ ∀ c ∈ line.head?, isBlank c = false) := by
  refine ⟨fun k l h h' => h.unique h', fun k => ?_, ?_⟩
  · rw [ofLine?_eq, Option.or_eq_some_iff, shape?_eq_some_iff, shape?_eq_none_iff,
      continuation?_eq_some_iff]
  · have hcontinuation : continuation? line = none ↔ ∀ c ∈ line.head?, isBlank c = false := by
      cases line with
      | nil => simp [continuation?, indent]
      | cons c cs => cases hc : isBlank c <;> simp [continuation?, indent, hc]
    rw [ofLine?_eq, Option.or_eq_none_iff, shape?_eq_none_iff, hcontinuation]

/-- A declaration with two marks and blanks of one, two and three bytes about its parts. -/
def portsLine : List Char := "\u00A0?*  Port[]\u3000ports\t: é [] ".toList

/-- What it declares. -/
def portsField : FieldLine where
  isGlobal := false
  isKey := true
  nullable := true
  typeName := "Port".toList
  array := true
  name := ⟨"ports".toList, 15⟩
  value := ⟨"é []".toList, 23⟩

theorem ofLine?_exact_ports : ofLine? portsLine = some (.field portsField) ∧
    Fits portsLine (.field portsField) ∧ ∀ k, Fits portsLine k → k = .field portsField := by
  have hread : ofLine? portsLine = some (.field portsField) := by decide +kernel
  obtain ⟨hunique, hsome, -⟩ := ofLine?_exact portsLine
  have hfits : Fits portsLine (.field portsField) := by
    rcases (hsome _).mp hread with h | ⟨-, h⟩
    · exact h
    · generalize portsLine = line at h
      cases h
  exact ⟨hread, hfits, fun k hk => hunique k _ hk hfits⟩

end LineKind

end RowConfig
