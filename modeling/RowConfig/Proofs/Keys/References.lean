import RowConfig.Proofs.Keys.Tokens
import RowConfig.Proofs.TextRows

/-!
# Reading references

A call with a literal in its brackets is read as a reference by the string of the literal, wherever
a struct with a key is declared under its name (`Reader.readScalar_referenceText`). This is so for a
token that is the call, and for a list among whose elements the call stands
(`Reader.element?_of_read`).
-/

namespace RowConfig

open Chars

/-- The value, or the element of an array at a position. -/
def Value.element? : Option Nat → Value → Option Value
  | none, v => some v
  | some i, .array items => items[i]?
  | some _, _ => none

/-- A token that is `call`, or a list with `call` among its elements. A position counts the elements
before it, blank ones left out. -/
inductive Cites (call : List Char) : Option Nat → List Char → Prop
  | alone : Cites call none call
  | element {body lead : List Char} {front later : List (List Char)} : isBalanced body →
      Stands call body front lead later → (∀ c ∈ lead, isBlank c) →
      Cites call (some (front.countP fun piece => !(trim piece).isEmpty)) (bracketed [] '[' ']' body)

theorem Cites.whole {call token : List Char} {element : Option Nat} (h : Cites call element token)
    (hcall : Whole call) : Whole token := by
  cases h with
  | alone => exact hcall
  | element hbody _ _ => exact whole_list hbody

namespace Reader

variable {r : Reader} {name k : String} {v : Value}

/-! ## Literals -/

/-- A literal is read as its string for a field of strings. -/
theorem eq_text_of_readFor {f : Field} (htype : f.type = ⟨.str, false⟩)
    (h : r.readFor (quoted k) f = .ok v) : v = .text (.plain k) := by
  rw [readFor, htype, read_quoted] at h
  obtain ⟨-, -, heq⟩ := map_eq_ok_iff.mp h
  exact heq.symm

/-! ## Calls -/

theorem isNullWord_referenceText (name k : String) : isNullWord (referenceText name k) = false :=
  isNullWord_of_mem (c := '(') (List.mem_append_right _ List.mem_cons_self) (by decide)

/-- A call of a struct with a key is read as the reference by the string in its brackets. -/
theorem readScalar_referenceText {t : Table} (hname : isIdentifier name.toList)
    (ht : Entries.get? r.tables name = some t) (hkey : t.key.isSome) (k : String) (column : Nat) :
    r.readScalar ⟨referenceText name k, column⟩ (.struct name) = .ok (.reference name k none) := by
  have hcall : splitCall? ⟨referenceText name k, column⟩ =
      some (name.toList, ⟨quoted k, column + name.toList.length + 1⟩) :=
    splitCall?_bracketed hname (isBalanced_quoted k) column
  have hkeyed : (Entries.get? r.tables name).any (fun t => t.key.isNone) = false := by
    simp [ht, hkey]
  unfold readScalar readCall
  simp only [hcall, String.ofList_toList, ne_eq, not_true_eq_false, if_false, hkeyed,
    Bool.false_eq_true, Span.trimmed, (solid_quoted k).trim_eq, readText_quoted]
  rfl

theorem read_referenceText {t : Table} (hname : isIdentifier name.toList)
    (ht : Entries.get? r.tables name = some t) (hkey : t.key.isSome) (k : String) :
    r.read (referenceText name k) ⟨.struct name, false⟩ = .ok (.reference name k none) := by
  unfold Reader.read
  simp only [Span.trimmed, (whole_referenceText hname k).solid.trim_eq, isNullWord_referenceText,
    Bool.false_eq_true, if_false, readScalar_referenceText hname ht hkey]

/-! ## Elements -/

/-- The element that is read from a piece stands behind those of the pieces before it. -/
theorem exists_element_of_readElements {type : ScalarType} {spans : List Span} {values : List Value}
    {front later : List (List Char)} {piece : List Char}
    (hspans : spans.map Span.text = front ++ piece :: later) (hpiece : (trim piece).isEmpty = false)
    (h : r.readElements type spans = .ok values) :
    ∃ column v, r.readElement ⟨trim piece, column⟩ type = .ok v ∧
      values[front.countP fun piece => !(trim piece).isEmpty]? = some v := by
  induction spans generalizing front values with
  | nil => simp at hspans
  | cons s spans ih =>
      rw [readElements] at h
      cases front with
      | nil =>
          obtain ⟨rfl, -⟩ := List.cons.inj hspans
          rw [show s.trimmed.text = trim s.text from rfl, hpiece, if_neg Bool.false_ne_true] at h
          split at h
          · cases h
          · next v hv =>
            obtain ⟨more, -, rfl⟩ := map_eq_ok_iff.mp h
            exact ⟨_, v, hv, rfl⟩
      | cons first front =>
          obtain ⟨rfl, hmore⟩ := List.cons.inj hspans
          rw [show s.trimmed.text = trim s.text from rfl] at h
          split at h
          · next hblank =>
            rw [List.countP_cons_of_neg (by simpa using hblank)]
            exact ih hmore h
          · next hblank =>
            split at h
            · cases h
            · obtain ⟨values, hvalues, rfl⟩ := map_eq_ok_iff.mp h
              rw [List.countP_cons_of_pos (by simpa using hblank), List.getElem?_cons_succ]
              exact ih hmore hvalues

/-- What is read from a token that is or holds a call, of a struct with a key, is or holds the
reference that the call is. -/
theorem element?_of_read {t : Table} {element : Option Nat} {token : List Char}
    (hname : isIdentifier name.toList) (ht : Entries.get? r.tables name = some t)
    (hkey : t.key.isSome) (hcites : Cites (referenceText name k) element token)
    (h : r.read token ⟨.struct name, element.isSome⟩ = .ok v) :
    v.element? element = some (.reference name k none) := by
  have hwhole := whole_referenceText hname k
  cases hcites with
  | alone =>
      rw [Option.isSome_none, read_referenceText hname ht hkey] at h
      cases h
      rfl
  | @element body lead front later hbody hstands hlead =>
      obtain ⟨gap, hgap, hpieces⟩ := hstands.exists_pieces_eq hwhole
        (fun c hc => isPlain_and_ne_comma_of_isBlank (hlead c hc))
        fun c hc => hlead c (List.mem_of_getLast? hc)
      rw [Option.isSome_some, r.read_list hbody] at h
      obtain ⟨items, hitems, rfl⟩ := map_eq_ok_iff.mp h
      have htrim : trim (lead ++ (referenceText name k ++ gap)) = referenceText name k :=
        hwhole.solid.trim_between hlead hgap
      have hspans : (Span.arguments ⟨body, 1⟩).map Span.text =
          front ++ (lead ++ (referenceText name k ++ gap)) :: later := by
        rw [Span.arguments, map_text_place, hpieces]
      obtain ⟨column, v, hv, hitem⟩ := exists_element_of_readElements hspans
        (by rw [htrim]; exact hwhole.solid.isEmpty_eq) hitems
      rw [htrim, readElement, isNullWord_referenceText, if_neg Bool.false_ne_true,
        readScalar_referenceText hname ht hkey] at hv
      cases hv
      exact hitem

end Reader

end RowConfig
