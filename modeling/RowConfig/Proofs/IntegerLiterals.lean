import Mathlib.Data.Nat.Digits.Defs
import RowConfig.Proofs.Scalars

/-!
# Integer literals

`Denotes` says which texts are integer literals and which integers they denote: digits of base ten,
or of base 16, 8 or 2 behind the mark of the base, perhaps with a minus sign in front. A text is
read as an integer exactly when it denotes one of 64-bit two's complement (`integer?_exact`).
Reading in 64-bit words, where no step may exceed a word, comes to the same (`integerWord?_eq`): a
number that is too great for a word at one digit only becomes greater with the digits that follow.
-/

namespace RowConfig

namespace Number

/-! ## The grammar of literals -/

/-- The characters that mark a base. Base ten has no mark. -/
inductive BaseMark : Nat → List Char → Prop where
  | ten : BaseMark 10 []
  | sixteen {letter : Char} : letter = 'x' ∨ letter = 'X' → BaseMark 16 ['0', letter]
  | eight {letter : Char} : letter = 'o' ∨ letter = 'O' → BaseMark 8 ['0', letter]
  | two {letter : Char} : letter = 'b' ∨ letter = 'B' → BaseMark 2 ['0', letter]

/-- The character is a digit of the base and has this value. A letter may stand in either case. -/
def IsDigitOf (base : Nat) (c : Char) (d : Nat) : Prop :=
  d < base ∧ (c = d.digitChar ∨ c = d.digitChar.toUpper)

/-- A sign, the mark of a base, and digits. -/
def literal (negative : Bool) (mark digits : List Char) : List Char :=
  (if negative then ['-'] else []) ++ (mark ++ digits)

/-- The text is an integer literal, and this is the integer that it denotes. -/
inductive Denotes : List Char → Int → Prop where
  | mk {base : Nat} {mark cs : List Char} {ds : List Nat} (negative : Bool)
    (hmark : BaseMark base mark)
      (hne : cs ≠ []) (hdigits : List.Forall₂ (IsDigitOf base) cs ds) :
      Denotes (literal negative mark cs)
        (if negative then -(Nat.ofDigits base ds.reverse : Nat) else
          (Nat.ofDigits base ds.reverse : Nat))

section Digits

variable {base n m : Nat} {c : Char} {d : Nat} {cs mark : List Char} {ds : List Nat}

theorem BaseMark.one_lt (h : BaseMark base mark) : 1 < base := by
  cases h <;> decide

theorem BaseMark.le_sixteen (h : BaseMark base mark) : base ≤ 16 := by
  cases h <;> decide

/-! ## Digits -/

theorem digitValue?_of_isDigitOf (hbase : base ≤ 16) (h : IsDigitOf base c d) :
    digitValue? c = some d := by
  have hall : ∀ d : Fin 16, digitValue? d.val.digitChar = some d.val ∧
      digitValue? d.val.digitChar.toUpper = some d.val := by decide
  obtain ⟨hd, rfl | rfl⟩ := h
  · exact (hall ⟨d, by omega⟩).1
  · exact (hall ⟨d, by omega⟩).2

theorem lt_of_digitValue? (h : digitValue? c = some d) : c.toNat < 128 := by
  unfold digitValue? at h
  split at h
  · next hdigit =>
    have hnine : c.toNat ≤ '9'.toNat := of_decide_eq_true (Bool.and_eq_true_iff.mp hdigit).2
    exact Nat.lt_of_le_of_lt hnine (by decide)
  · split at h
    · next hlower => exact Nat.lt_of_le_of_lt hlower.2 (by decide)
    · split at h
      · next hupper => exact Nat.lt_of_le_of_lt hupper.2 (by decide)
      · cases h

/-- What has a value below 16 is a digit or a letter in one of the two cases. -/
theorem eq_digitChar_of_digitValue? (h : digitValue? c = some d) (hd : d < 16) :
    c = d.digitChar ∨ c = d.digitChar.toUpper := by
  have hall : ∀ k : Fin 128, ∀ d : Fin 16, digitValue? (Char.ofNat k) = some d.val →
      Char.ofNat k = d.val.digitChar ∨ Char.ofNat k = d.val.digitChar.toUpper := by decide +kernel
  have hc := hall ⟨c.toNat, lt_of_digitValue? h⟩ ⟨d, hd⟩
  simp only [Char.ofNat_toNat] at hc
  exact hc h

theorem digitOf?_eq_some_iff (hbase : base ≤ 16) : digitOf? base c = some d ↔ IsDigitOf base c d := by
  unfold digitOf?
  rw [Option.filter_eq_some_iff]
  constructor
  · rintro ⟨hvalue, hd⟩
    have hd : d < base := of_decide_eq_true hd
    exact ⟨hd, eq_digitChar_of_digitValue? hvalue (by omega)⟩
  · intro h
    exact ⟨digitValue?_of_isDigitOf hbase h, decide_eq_true h.1⟩

/-- Digits are read as the number that they denote, behind the number before them. -/
theorem readDigits?_of_forall₂ (hbase : base ≤ 16) (h : List.Forall₂ (IsDigitOf base) cs ds)
    (n : Nat) : readDigits? base n cs =
    some (n * base ^ ds.length + Nat.ofDigits base ds.reverse) := by
  induction h generalizing n with
  | nil => simp [readDigits?]
  | @cons c d cs ds hdigit hdigits ih =>
      rw [readDigits?, (digitOf?_eq_some_iff hbase).mpr hdigit]
      show readDigits? base (base * n + d) cs = _
      rw [ih, List.length_cons, List.reverse_cons, Nat.ofDigits_append, Nat.ofDigits_singleton,
        List.length_reverse]
      congr 1
      ring

theorem exists_forall₂_of_readDigits? (hbase : base ≤ 16) (h : readDigits? base n cs = some m) :
    ∃ ds, List.Forall₂ (IsDigitOf base) cs ds := by
  induction cs generalizing n with
  | nil => exact ⟨[], .nil⟩
  | cons c cs ih =>
      rw [readDigits?] at h
      split at h
      · next d hdigit =>
        obtain ⟨ds, hds⟩ := ih h
        exact ⟨d :: ds, .cons ((digitOf?_eq_some_iff hbase).mp hdigit) hds⟩
      · cases h

theorem natural?_of_forall₂ (hbase : base ≤ 16) (hne : cs ≠ [])
    (h : List.Forall₂ (IsDigitOf base) cs ds) :
    natural? base cs = some (Nat.ofDigits base ds.reverse) := by
  cases cs with
  | nil => exact absurd rfl hne
  | cons c cs =>
      rw [natural?, readDigits?_of_forall₂ hbase h, Nat.zero_mul, Nat.zero_add]

theorem forall₂_of_natural? (hbase : base ≤ 16) (h : natural? base cs = some n) :
    cs ≠ [] ∧ ∃ ds, List.Forall₂ (IsDigitOf base) cs ds ∧ n = Nat.ofDigits base ds.reverse := by
  cases cs with
  | nil => cases h
  | cons c cs =>
      obtain ⟨ds, hds⟩ := exists_forall₂_of_readDigits? hbase h
      have hne : c :: cs ≠ [] := List.cons_ne_nil c cs
      refine ⟨hne, ds, hds, ?_⟩
      rw [natural?_of_forall₂ hbase hne hds] at h
      exact (Option.some.inj h).symm

/-! ## Literals -/

theorem isDigit_of_isDigitOf (h : IsDigitOf 10 c d) : c.isDigit :=
  isDigit_of_digitOf? ((digitOf?_eq_some_iff (by decide)).mpr h)

/-- The digits behind the mark of a base are cut off. -/
theorem BaseMark.baseAndDigits (h : BaseMark base mark)
    (hdigits : ∀ c ∈ cs, ∃ d, IsDigitOf base c d) :
    baseAndDigits (mark ++ cs) = (base, cs) := by
  cases h with
  | ten =>
      refine baseAndDigits_of_digits fun c hc => ?_
      obtain ⟨d, hd⟩ := hdigits c hc
      exact isDigit_of_isDigitOf hd
  | sixteen hletter => obtain rfl | rfl := hletter <;> rfl
  | eight hletter => obtain rfl | rfl := hletter <;> rfl
  | two hletter => obtain rfl | rfl := hletter <;> rfl

theorem baseMark_of_baseOfLetter? {letter : Char} (h : baseOfLetter? letter = some base) :
    BaseMark base ['0', letter] := by
  unfold baseOfLetter? at h
  split at h <;> cases h
  · exact .sixteen (.inl rfl)
  · exact .sixteen (.inr rfl)
  · exact .eight (.inl rfl)
  · exact .eight (.inr rfl)
  · exact .two (.inl rfl)
  · exact .two (.inr rfl)

/-- Every text is a mark and what stands behind it. -/
theorem exists_baseMark (cs : List Char) :
    ∃ mark, BaseMark (baseAndDigits cs).1 mark ∧ cs = mark ++ (baseAndDigits cs).2 := by
  unfold Number.baseAndDigits
  split
  · split
    · next hletter => exact ⟨_, baseMark_of_baseOfLetter? hletter, rfl⟩
    · exact ⟨[], .ten, rfl⟩
  · exact ⟨[], .ten, rfl⟩

theorem exists_of_magnitude? (h : magnitude? cs = some n) :
    ∃ base mark digits ds, BaseMark base mark ∧ cs = mark ++ digits ∧ digits ≠ [] ∧
      List.Forall₂ (IsDigitOf base) digits ds ∧ n = Nat.ofDigits base ds.reverse := by
  obtain ⟨mark, hmark, hcs⟩ := exists_baseMark cs
  obtain ⟨hne, ds, hds, hn⟩ := forall₂_of_natural? hmark.le_sixteen h
  exact ⟨_, mark, _, ds, hmark, hcs, hne, hds, hn⟩

theorem head_ne_minus (hmark : BaseMark base mark) (hdigits : ∀ c ∈ cs, ∃ d, IsDigitOf base c d)
    (rest : List Char) : mark ++ cs ≠ '-' :: rest := by
  intro heq
  cases hmark with
  | ten =>
      rw [List.nil_append] at heq
      obtain ⟨d, hd⟩ := hdigits '-' (heq ▸ List.mem_cons_self)
      exact absurd (isDigit_of_isDigitOf hd) (by decide)
  | _ =>
      -- the mark begins with zero
      exact absurd (List.cons.inj heq).1 (by decide)

/-- A literal is read by its parts: the digits in their base, the sign, and then the range. -/
theorem integer?_literal (negative : Bool) (hmark : BaseMark base mark)
    (hdigits : ∀ c ∈ cs, ∃ d, IsDigitOf base c d) :
    integer? (literal negative mark cs) =
      (natural? base cs).bind fun n => inRange? (if negative then -(n : Int) else n) := by
  have hmagnitude : magnitude? (mark ++ cs) = natural? base cs := by
    rw [magnitude?, hmark.baseAndDigits hdigits]
  cases negative with
  | true =>
      show (magnitude? (mark ++ cs)).bind _ = _
      rw [hmagnitude]
      rfl
  | false =>
      show integer? (mark ++ cs) = _
      unfold integer?
      split
      · next rest heq => exact absurd heq (head_ne_minus hmark hdigits rest)
      · rw [hmagnitude]
        rfl

theorem exists_digit_of_forall₂ (h : List.Forall₂ (IsDigitOf base) cs ds) :
    ∀ c ∈ cs, ∃ d, IsDigitOf base c d := by
  intro c hc
  obtain ⟨d, -, hd⟩ := exists_mem_right h hc
  exact ⟨d, hd⟩

theorem inRange?_eq_some_iff {i j : Int} :
    inRange? i = some j ↔ i = j ∧ minInt ≤ j ∧ j ≤ maxInt := by
  unfold inRange?
  split
  · next h =>
    rw [Option.some.injEq]
    constructor
    · rintro rfl
      exact ⟨rfl, h⟩
    · exact And.left
  · next h =>
    refine iff_of_false (Option.some_ne_none _ ∘ Eq.symm) ?_
    rintro ⟨rfl, hrange⟩
    exact h hrange

/-- A literal is read as the integer that it denotes, if it is one of the language. -/
theorem Denotes.integer?_eq {i : Int} (h : Denotes cs i) : integer? cs = inRange? i := by
  cases h with
  | mk negative hmark hne hdigits =>
      rw [integer?_literal negative hmark (exists_digit_of_forall₂ hdigits),
        natural?_of_forall₂ hmark.le_sixteen hne hdigits]
      rfl

/-- What is read as an integer is a literal that denotes it. -/
theorem denotes_of_integer? {i : Int} (h : integer? cs = some i) :
    Denotes cs i ∧ minInt ≤ i ∧ i ≤ maxInt := by
  unfold integer? at h
  split at h
  · obtain ⟨n, hn, hrange⟩ := Option.bind_eq_some_iff.mp h
    obtain ⟨base, mark, digits, ds, hmark, rfl, hne, hds, rfl⟩ := exists_of_magnitude? hn
    obtain ⟨rfl, hrange⟩ := inRange?_eq_some_iff.mp hrange
    exact ⟨.mk true hmark hne hds, hrange⟩
  · obtain ⟨n, hn, hrange⟩ := Option.bind_eq_some_iff.mp h
    obtain ⟨base, mark, digits, ds, hmark, rfl, hne, hds, rfl⟩ := exists_of_magnitude? hn
    obtain ⟨rfl, hrange⟩ := inRange?_eq_some_iff.mp hrange
    exact ⟨.mk false hmark hne hds, hrange⟩

/-- Zeros in front of the digits do not count. -/
theorem natural?_zeros {zeros : List Char} (hbase : 1 < base) (hle : base ≤ 16)
    (hzeros : ∀ c ∈ zeros, c = '0') (hne : cs ≠ []) :
    natural? base (zeros ++ cs) = natural? base cs := by
  have hzero : digitOf? base '0' = some 0 := digitOf?_digitChar (d := 0) hle (by omega)
  induction zeros with
  | nil => rfl
  | cons c zeros ih =>
      obtain ⟨rfl, hmore⟩ := List.forall_mem_cons.mp hzeros
      rw [← ih hmore]
      obtain ⟨d, rest, hrest⟩ :=
        List.exists_cons_of_ne_nil (List.append_ne_nil_of_right_ne_nil zeros hne)
      rw [List.cons_append, hrest, natural?, natural?, readDigits?, hzero]
      rfl

end Digits

/-! ## Reading in words -/

/-- Reads digits of a base from the left in 64-bit words, `w` being the value of those before. -/
def readWord? (base : Nat) (w : UInt64) : List Char → Option UInt64
  | [] => some w
  | c :: cs =>
    match digitOf? base c with
    | none => none
    | some d =>
      let next := base * w.toNat + d
      if next < UInt64.size then readWord? base (.ofNat next) cs else none

/-- The value of one or more digits of a base, if it fits a word. -/
def naturalWord? (base : Nat) : List Char → Option UInt64
  | [] => none
  | c :: cs => readWord? base 0 (c :: cs)

/-- A magnitude with its sign in two's complement. The magnitude of the least integer is one more
than that of the greatest. -/
def signedWord? (negative : Bool) (w : UInt64) : Option Int64 :=
  if negative then if w.toNat ≤ 2 ^ 63 then some (-w.toInt64) else none
  else if w.toNat < 2 ^ 63 then some w.toInt64 else none

def magnitudeWord? (cs : List Char) : Option UInt64 :=
  let (base, digits) := baseAndDigits cs
  naturalWord? base digits

/-- The integer that a literal denotes, read in words. -/
def integerWord? : List Char → Option Int64
  | '-' :: cs => (magnitudeWord? cs).bind (signedWord? true)
  | cs => (magnitudeWord? cs).bind (signedWord? false)

section Words

variable {base n m : Nat} {cs : List Char}

/-- More digits make no number smaller. -/
theorem le_of_readDigits? (hbase : 0 < base) (h : readDigits? base n cs = some m) : n ≤ m := by
  induction cs generalizing n with
  | nil =>
      cases h
      exact Nat.le_refl _
  | cons c cs ih =>
      rw [readDigits?] at h
      split at h
      · next d _ =>
        have hle : n ≤ base * n := Nat.le_mul_of_pos_left n hbase
        exact Nat.le_trans (by omega) (ih h)
      · cases h

/-- Digits are read in words exactly if their number fits a word. -/
theorem readWord?_eq (hbase : 0 < base) (w : UInt64) (cs : List Char) :
    (readWord? base w cs).map UInt64.toNat =
      (readDigits? base w.toNat cs).filter (· < UInt64.size) := by
  induction cs generalizing w with
  | nil =>
      have hfits : decide (w.toNat < UInt64.size) = true := decide_eq_true w.toNat_lt
      rw [readWord?, readDigits?, Option.filter_some, if_pos hfits, Option.map_some]
  | cons c cs ih =>
      rw [readWord?, readDigits?]
      cases digitOf? base c with
      | none => rfl
      | some d =>
          simp only
          split
          · next hlt => rw [ih, UInt64.toNat_ofNat', Nat.mod_eq_of_lt hlt]
          · next hge =>
            -- the number is too great already
            symm
            rw [Option.map_none, Option.filter_eq_none_iff]
            intro m hm
            have hle := le_of_readDigits? hbase hm
            simp only [decide_eq_true_eq]
            omega

theorem naturalWord?_eq (hbase : 0 < base) (cs : List Char) :
    (naturalWord? base cs).map UInt64.toNat = (natural? base cs).filter (· < UInt64.size) := by
  cases cs with
  | nil => rfl
  | cons c cs => exact readWord?_eq hbase 0 (c :: cs)

/-- A word with a sign is the integer of the language, unless it is out of range. -/
theorem signedWord?_eq (negative : Bool) (w : UInt64) :
    (signedWord? negative w).map Int64.toInt =
      inRange? (if negative then -(w.toNat : Int) else w.toNat) := by
  have hsize : w.toNat < 2 ^ 64 := w.toNat_lt
  have htoInt : w.toInt64.toInt = (w.toNat : Int).bmod (2 ^ 64) :=
    BitVec.toInt_eq_toNat_bmod w.toBitVec
  unfold signedWord? inRange? minInt maxInt
  cases negative with
  | true =>
      simp only [if_true]
      by_cases hle : w.toNat ≤ 2 ^ 63
      · have hneg : (-w.toInt64).toInt = -(w.toNat : Int) := by
          rw [Int64.toInt_neg, htoInt]
          simp only [Int.bmod_def]
          omega
        rw [if_pos hle, if_pos (by omega), Option.map_some, hneg]
      · rw [if_neg hle, if_neg (by omega)]
        rfl
  | false =>
      simp only [Bool.false_eq_true, if_false]
      by_cases hlt : w.toNat < 2 ^ 63
      · have hpos : w.toInt64.toInt = w.toNat := by
          rw [htoInt]
          simp only [Int.bmod_def]
          omega
        rw [if_pos hlt, if_pos (by omega), Option.map_some, hpos]
      · rw [if_neg hlt, if_neg (by omega)]
        rfl

/-- A number that fits no word is out of range with either sign. -/
theorem inRange?_eq_none_of_size_le (negative : Bool) (h : UInt64.size ≤ n) :
    inRange? (if negative then -(n : Int) else n) = none := by
  have hsize : UInt64.size = 2 ^ 64 := rfl
  unfold inRange? minInt maxInt
  cases negative <;> exact if_neg (by simp only [if_true, Bool.false_eq_true, if_false]; omega)

theorem bind_signedWord? (hbase : 0 < base) (negative : Bool) (cs : List Char) :
    ((naturalWord? base cs).bind (signedWord? negative)).map Int64.toInt =
      (natural? base cs).bind fun n => inRange? (if negative then -(n : Int) else n) := by
  have hword := naturalWord?_eq hbase cs
  cases hn : natural? base cs with
  | none =>
      rw [hn, Option.filter_none, Option.map_eq_none_iff] at hword
      rw [hword]
      rfl
  | some n =>
      rw [hn, Option.filter_some] at hword
      by_cases hlt : n < UInt64.size
      · rw [if_pos (decide_eq_true hlt), Option.map_eq_some_iff] at hword
        obtain ⟨w, hw, rfl⟩ := hword
        rw [hw]
        exact signedWord?_eq negative w
      · rw [if_neg (by simpa using hlt), Option.map_eq_none_iff] at hword
        rw [hword, Option.bind_some, inRange?_eq_none_of_size_le negative (Nat.le_of_not_lt hlt)]
        rfl

/-- Reading in words makes the same integers. -/
theorem integerWord?_eq (cs : List Char) : (integerWord? cs).map Int64.toInt = integer? cs := by
  have hbase : ∀ cs, 0 < (baseAndDigits cs).1 := by
    intro cs
    obtain ⟨mark, hmark, -⟩ := exists_baseMark cs
    exact Nat.zero_lt_of_lt hmark.one_lt
  have hread : ∀ negative cs, ((magnitudeWord? cs).bind (signedWord? negative)).map Int64.toInt =
      (magnitude? cs).bind fun n => inRange? (if negative then -(n : Int) else n) :=
    fun negative cs => bind_signedWord? (hbase cs) negative _
  fun_cases integerWord? cs with
  | case1 cs => exact hread true cs
  | case2 cs hsign =>
      unfold integer?
      split
      · exact absurd rfl (hsign _)
      · exact hread false cs

end Words

/-- A text is read as an integer exactly if it denotes one of 64-bit two's complement, and this is
the integer; reading it in 64-bit words comes to the same. Every such integer, the least and the
greatest among them, is written in every base behind each mark of the base, zeros in front of the
digits do not count, and the integer that is printed is read again. -/
theorem integer?_exact :
    (∀ cs n, integer? cs = some n ↔ Denotes cs n ∧ minInt ≤ n ∧ n ≤ maxInt) ∧
      (∀ cs, integer? cs = (integerWord? cs).map Int64.toInt) ∧
      (∀ base mark, BaseMark base mark → ∀ n, minInt ≤ n → n ≤ maxInt →
        integer? (literal (n < 0) mark (Nat.toDigits base n.natAbs)) = some n) ∧
      (∀ base mark, BaseMark base mark → ∀ negative zeros cs, (∀ c ∈ zeros, c = '0') → cs ≠ [] →
        (∀ c ∈ cs, ∃ d, IsDigitOf base c d) →
          integer? (literal negative mark (zeros ++ cs)) = integer? (literal negative mark cs)) ∧
      ∀ n : Int64, integer? (Value.int n.toInt).render.toList = some n.toInt := by
  refine ⟨?_, fun cs => (integerWord?_eq cs).symm, ?_, ?_, ?_⟩
  · intro cs n
    constructor
    · exact denotes_of_integer?
    · rintro ⟨hdenotes, hrange⟩
      rw [hdenotes.integer?_eq]
      exact inRange?_eq_some_iff.mpr ⟨rfl, hrange⟩
  · intro base mark hmark n hmin hmax
    have hread := natural?_toDigits hmark.one_lt hmark.le_sixteen n.natAbs
    obtain ⟨-, ds, hds, -⟩ := forall₂_of_natural? hmark.le_sixteen hread
    have hsign : (if n < 0 then -(n.natAbs : Int) else n.natAbs) = n := by
      split <;> omega
    rw [integer?_literal _ hmark (exists_digit_of_forall₂ hds), hread, Option.bind_some]
    simp only [decide_eq_true_eq, hsign]
    exact inRange?_eq_some_iff.mpr ⟨rfl, hmin, hmax⟩
  · intro base mark hmark negative zeros cs hzeros hne hdigits
    have hall : ∀ c ∈ zeros ++ cs, ∃ d, IsDigitOf base c d := by
      intro c hc
      rcases List.mem_append.mp hc with hc | hc
      · exact ⟨0, Nat.zero_lt_of_lt hmark.one_lt, .inl (hzeros c hc)⟩
      · exact hdigits c hc
    rw [integer?_literal negative hmark hall, integer?_literal negative hmark hdigits,
      natural?_zeros hmark.one_lt hmark.le_sixteen hzeros hne]
  · intro n
    exact integer?_toString n.le_toInt (Int.le_sub_one_of_lt n.toInt_lt)

theorem integer?_exact_edges :
    integer? "-0X8000000000000000".toList = some minInt ∧
      Denotes "-0X8000000000000000".toList minInt ∧
      integer? (literal (maxInt < 0) ['0', 'b'] (Nat.toDigits 2 maxInt.natAbs)) = some maxInt ∧
      integer? "-0o007".toList = integer? "-0o7".toList := by
  have hread : integer? "-0X8000000000000000".toList = some minInt := by decide
  have hseven : ∀ c ∈ ['7'], ∃ d, IsDigitOf 8 c d :=
    List.forall_mem_singleton.mpr ⟨7, by decide, .inl rfl⟩
  obtain ⟨hdenotes, -, hwritten, hzeros, -⟩ := integer?_exact
  exact ⟨hread, ((hdenotes _ _).mp hread).1,
    hwritten 2 ['0', 'b'] (.two (.inl rfl)) maxInt (by decide) (Int.le_refl _),
    hzeros 8 ['0', 'o'] (.eight (.inl rfl)) true ['0', '0'] ['7'] (by simp) (by decide) hseven⟩

end Number

end RowConfig
