import Mathlib.Order.Bounds.Basic
import RowConfig.Binding
import RowConfig.Proofs.Chars

/-!
# Names made from positions

A positional argument of a call is kept under the name `_arg` with the digits of its position. The
name leads back to the position (`position?_of_position`), so that no two positions share a name,
and an identifier of another form stands for no position (`position?_eq_none`).

The positions among the names of a call are counted by the greatest of them. The count is one more
(`countPositions_eq_ok_iff`), and only the last position that a word can hold has no such number
(`countPositions_eq_error_iff`).
-/

namespace RowConfig

open Binding Chars Number

theorem readDigits?_append (base n : Nat) (u v : List Char) :
    readDigits? base n (u ++ v) = (readDigits? base n u).bind fun m => readDigits? base m v := by
  induction u generalizing n with
  | nil => rfl
  | cons c u ih =>
      rw [List.cons_append, readDigits?, readDigits?]
      cases digitOf? base c with
      | none => rfl
      | some d => exact ih _

theorem digitOf?_digitChar {base d : Nat} (hbase : base ≤ 16) (h : d < base) :
    digitOf? base d.digitChar = some d := by
  have hall : ∀ d : Fin 16, digitValue? d.val.digitChar = some d.val := by decide
  exact Option.filter_eq_some_iff.mpr ⟨hall ⟨d, by omega⟩, decide_eq_true h⟩

theorem readDigits?_toDigits {base : Nat} (hbase : 1 < base) (hle : base ≤ 16) (n : Nat) :
    readDigits? base 0 (Nat.toDigits base n) = some n := by
  induction n using Nat.strongRecOn with
  | ind n ih =>
      by_cases h : n < base
      · rw [Nat.toDigits_of_lt_base h, readDigits?, digitOf?_digitChar hle h]
        simp [readDigits?]
      · have hlt : n / base < n := Nat.div_lt_self (by omega) hbase
        have hmod : n % base < base := Nat.mod_lt n (by omega)
        rw [Nat.toDigits_of_base_le hbase (by omega), readDigits?_append, ih _ hlt]
        show readDigits? base (n / base) [_] = _
        rw [readDigits?, digitOf?_digitChar hle hmod]
        simp only [readDigits?, Nat.div_add_mod]

/-- The digits of a number in a base are read as the number. -/
theorem natural?_toDigits {base : Nat} (hbase : 1 < base) (hle : base ≤ 16) (n : Nat) :
    natural? base (Nat.toDigits base n) = some n := by
  have hread := readDigits?_toDigits hbase hle n
  cases h : Nat.toDigits base n with
  | nil => exact absurd h Nat.toDigits_ne_nil
  | cons c cs =>
      rw [h] at hread
      exact hread

theorem toList_toString (n : Nat) : (toString n).toList = Nat.toDigits 10 n := Nat.toList_repr

theorem toList_toString_ne_nil (n : Nat) : (toString n).toList ≠ [] := by
  rw [toList_toString]
  exact Nat.toDigits_ne_nil

theorem isDigit_of_mem_toString {n : Nat} {c : Char} (h : c ∈ (toString n).toList) : c.isDigit := by
  rw [toList_toString] at h
  exact Nat.isDigit_of_mem_toDigits (by decide) (by decide) h

theorem natural?_toString (n : Nat) : natural? 10 (toString n).toList = some n := by
  rw [toList_toString]
  exact natural?_toDigits (by decide) (by decide) n

/-- The name made from a position stands for the position, if its number fits a word. -/
theorem position?_position (i : Nat) :
    Binding.position? ("_arg" ++ toString i) = (some i).filter (· < Binding.positionBound) := by
  have hstrip : stripStart? "_arg".toList ("_arg" ++ toString i).toList =
      some (toString i).toList := by
    rw [stripStart?_eq_some_iff, String.toList_append]
  have hsign : stripStart? ['+'] (toString i).toList = none := by
    rw [Option.eq_none_iff_forall_ne_some]
    intro rest hrest
    have hplus : '+' ∈ (toString i).toList := by
      rw [stripStart?_eq_some_iff.mp hrest]
      exact List.mem_cons_self
    exact absurd (isDigit_of_mem_toString hplus) (by decide)
  rw [Binding.position?, hstrip, Option.bind_some, hsign, Option.getD_none, natural?_toString]

/-- The name under which the argument at a position is kept stands for that position. -/
theorem position?_of_position {i : Nat} (h : i < Binding.positionBound) :
    Binding.position? ("_arg" ++ toString i) = some i := by
  rw [position?_position]
  exact Option.filter_some_pos (decide_eq_true h)

/-- The name is `_arg` and digits. -/
def IsPositional (name : String) : Prop :=
  ∃ digits : List Char, digits ≠ [] ∧ (∀ c ∈ digits, c.isDigit) ∧
    name.toList = "_arg".toList ++ digits

theorem isPositional_of_position (i : Nat) : IsPositional ("_arg" ++ toString i) := by
  refine ⟨(toString i).toList, toList_toString_ne_nil i, ?_, String.toList_append⟩
  exact fun c hc => isDigit_of_mem_toString hc

theorem position_inj {i j : Nat} (hi : i < positionBound) (hj : j < positionBound)
    (h : "_arg" ++ toString i = "_arg" ++ toString j) : i = j := by
  have hposition := position?_of_position hi
  rw [h, position?_of_position hj] at hposition
  exact (Option.some.inj hposition).symm

theorem isDigit_of_digitOf? {c : Char} {d : Nat} (h : digitOf? 10 c = some d) : c.isDigit := by
  obtain ⟨hvalue, hd⟩ := Option.filter_eq_some_iff.mp h
  have hd : d < 10 := of_decide_eq_true hd
  unfold digitValue? at hvalue
  -- letters stand for ten and more
  split at hvalue
  · assumption
  · split at hvalue
    · have heq := Option.some.inj hvalue
      omega
    · split at hvalue
      · have heq := Option.some.inj hvalue
        omega
      · cases hvalue

theorem isDigit_of_readDigits? {n m : Nat} {cs : List Char} (h : readDigits? 10 n cs = some m) :
    ∀ c ∈ cs, c.isDigit := by
  induction cs generalizing n with
  | nil => exact fun c hc => by cases hc
  | cons c cs ih =>
      rw [readDigits?] at h
      split at h
      · next hdigit => exact List.forall_mem_cons.mpr ⟨isDigit_of_digitOf? hdigit, ih h⟩
      · cases h

/-- An identifier that stands for a position is `_arg` and digits: it has no sign. -/
theorem isPositional_of_position? {name : String} {i : Nat} (hname : isIdentifier name.toList)
    (h : position? name = some i) : IsPositional name := by
  obtain ⟨digits, hdigits, hi⟩ := Option.bind_eq_some_iff.mp h
  have hread := (Option.filter_eq_some_iff.mp hi).1
  have hdigits := stripStart?_eq_some_iff.mp hdigits
  have hsign : stripStart? ['+'] digits = none := by
    rw [Option.eq_none_iff_forall_ne_some]
    intro rest hrest
    apply not_mem_of_isIdentifier hname (c := '+') rfl
    rw [hdigits, stripStart?_eq_some_iff.mp hrest]
    exact List.mem_append_right _ List.mem_cons_self
  rw [hsign, Option.getD_none] at hread
  cases digits with
  | nil => cases hread
  | cons c cs => exact ⟨c :: cs, List.cons_ne_nil c cs, isDigit_of_readDigits? hread, hdigits⟩

/-- An identifier of another form stands for no position. -/
theorem position?_eq_none {name : String} (hname : isIdentifier name.toList)
    (h : ¬ IsPositional name) : position? name = none := by
  cases hposition : position? name with
  | none => rfl
  | some i => exact absurd (isPositional_of_position? hname hposition) h

/-! ## Counting positions -/

namespace Binding

variable {names : List String} {i count : Nat} {fault : Fault}

/-- The positions that names stand for. -/
def positionsOf (names : List String) : Set Nat :=
  {i | ∃ name ∈ names, position? name = some i}

/-- One of the names stands for the last position of all. -/
def NamesLast (names : List String) : Prop := positionBound - 1 ∈ positionsOf names

theorem lt_positionBound (h : i ∈ positionsOf names) : i < positionBound := by
  obtain ⟨name, -, hposition⟩ := h
  obtain ⟨digits, -, hi⟩ := Option.bind_eq_some_iff.mp hposition
  exact of_decide_eq_true (Option.filter_eq_some_iff.mp hi).2

/-- The greatest position is looked for among all that names stand for. -/
theorem max?_positions (names : List String) :
    (positionsOf names = ∅ ∧ (names.filterMap position?).max? = none) ∨
      ∃ last, IsGreatest (positionsOf names) last ∧
        (names.filterMap position?).max? = some last := by
  have hmem : ∀ {i}, i ∈ positionsOf names ↔ i ∈ names.filterMap position? := by
    intro i
    rw [List.mem_filterMap]
    rfl
  cases hmax : (names.filterMap position?).max? with
  | none =>
      refine .inl ⟨Set.eq_empty_of_forall_notMem fun i hi => ?_, rfl⟩
      rw [hmem, List.max?_eq_none_iff.mp hmax] at hi
      cases hi
  | some last =>
      obtain ⟨hlast, hle⟩ := List.max?_eq_some_iff.mp hmax
      exact .inr ⟨last, ⟨hmem.mpr hlast, fun j hj => hle j (hmem.mp hj)⟩, rfl⟩

/-- The last position of all is among others only as the greatest. -/
theorem namesLast_iff {last : Nat} (h : IsGreatest (positionsOf names) last) :
    NamesLast names ↔ last + 1 = positionBound := by
  have hbound := lt_positionBound h.1
  constructor
  · intro hlast
    have hle := h.2 hlast
    omega
  · intro heq
    have hlast : positionBound - 1 = last := by omega
    rw [NamesLast, hlast]
    exact h.1

/-- The count is one more than the greatest position, and fits a word. -/
theorem countPositions_eq_ok_iff : countPositions names = .ok count ↔
    (positionsOf names = ∅ ∧ count = 0) ∨
      ∃ last, IsGreatest (positionsOf names) last ∧ count = last + 1 ∧ count < positionBound := by
  unfold countPositions
  rcases max?_positions names with ⟨hnone, hmax⟩ | ⟨last, hlast, hmax⟩
  · rw [hmax, hnone]
    simp only [Except.ok.injEq, true_and]
    constructor
    · rintro rfl
      exact .inl rfl
    · rintro (rfl | ⟨last, hlast, -⟩)
      · rfl
      · cases hlast.1
  · rw [hmax]
    have hne : positionsOf names ≠ ∅ := Set.nonempty_iff_ne_empty.mp ⟨last, hlast.1⟩
    by_cases hlt : last + 1 < positionBound
    · simp only [hlt, if_true, Except.ok.injEq, hne, false_and, false_or]
      constructor
      · rintro rfl
        exact ⟨last, hlast, rfl, hlt⟩
      · rintro ⟨last', hlast', rfl, -⟩
        rw [hlast.unique hlast']
    · simp only [hlt, if_false, reduceCtorEq, hne, false_and, false_or, false_iff]
      rintro ⟨last', hlast', rfl, hlt'⟩
      exact hlt (hlast.unique hlast' ▸ hlt')

/-- Positions cannot be counted if the last of all is among them. -/
theorem countPositions_eq_error_iff :
    countPositions names = .error fault ↔ fault = .overflow ∧ NamesLast names := by
  unfold countPositions
  rcases max?_positions names with ⟨hnone, hmax⟩ | ⟨last, hlast, hmax⟩
  · rw [hmax, NamesLast, hnone]
    simp
  · rw [hmax, namesLast_iff hlast]
    have hbound := lt_positionBound hlast.1
    by_cases hlt : last + 1 < positionBound
    · simp only [hlt, if_true, reduceCtorEq, false_iff, not_and]
      omega
    · have heq : last + 1 = positionBound := by omega
      simp [heq, eq_comm]

theorem exists_countPositions_iff :
    (∃ count, countPositions names = .ok count) ↔ ¬ NamesLast names := by
  cases hcount : countPositions names with
  | ok count =>
      refine iff_of_true ⟨count, rfl⟩ fun hlast => ?_
      rw [countPositions_eq_error_iff.mpr ⟨rfl, hlast⟩] at hcount
      cases hcount
  | error fault => exact iff_of_false nofun (not_not.mpr (countPositions_eq_error_iff.mp hcount).2)

/-- A position among the names is less than their count. -/
theorem lt_count_of_countPositions {name : String} (h : countPositions names = .ok count)
    (hname : name ∈ names) (hi : position? name = some i) : i < count := by
  have hin : i ∈ positionsOf names := ⟨name, hname, hi⟩
  rcases countPositions_eq_ok_iff.mp h with ⟨hnone, -⟩ | ⟨last, hlast, rfl, -⟩
  · rw [hnone] at hin
    cases hin
  · exact Nat.lt_succ_of_le (hlast.2 hin)

end Binding

end RowConfig
