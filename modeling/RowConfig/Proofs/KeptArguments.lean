import RowConfig.Proofs.Arguments
import RowConfig.Proofs.Entries
import RowConfig.Proofs.Pointwise
import RowConfig.Proofs.Positions

/-!
# The arguments that a call keeps

A call keeps the texts of its arguments under names: the names that they are given, and names made
from positions. A name that is given twice keeps the place of the first text and has the last one,
and it may be that of a position. `collectArguments_cons_eq_ok_iff` says what becomes of one
argument, and `name_of_collectArguments` and `exists_append_of_keepsArgument` what a call comes to
keep. Where all names differ this is the list of the arguments in their order
(`collectArguments_eq`).
-/

namespace RowConfig

open Binding Chars Value

/-! ## Names that are given -/

/-- The names that the arguments among these pieces give. -/
def givenNames (pieces : List (List Char)) : List String :=
  pieces.filterMap fun piece => (splitNamed? (trim piece)).map fun n => String.ofList n.name

/-- The names that the arguments of a list give. -/
def argumentNames (text : List Char) : List String := givenNames (Scan.start.pieces ',' text)

variable {piece : List Char} {pieces : List (List Char)} {name : String}

theorem givenNames_cons (piece : List Char) (pieces : List (List Char)) :
    givenNames (piece :: pieces) =
      ((splitNamed? (trim piece)).map fun n => String.ofList n.name).toList ++ givenNames pieces := by
  unfold givenNames
  rw [List.filterMap_cons]
  cases splitNamed? (trim piece) <;> rfl

theorem givenNames_subset_cons (piece : List Char) (pieces : List (List Char)) :
    givenNames pieces ⊆ givenNames (piece :: pieces) := by
  rw [givenNames_cons]
  exact List.subset_append_right _ _

theorem isIdentifier_of_splitNamed? {cs : List Char} {n : NamedArgument}
    (h : splitNamed? cs = some n) : isIdentifier n.name := by
  unfold splitNamed? at h
  split at h
  · cases h
  · simp only at h
    split at h
    · next hname =>
      cases h
      exact (Bool.and_eq_true_iff.mp hname).1
    · cases h

theorem isIdentifier_of_mem_givenNames (h : name ∈ givenNames pieces) : isIdentifier name.toList := by
  obtain ⟨piece, -, hname⟩ := List.mem_filterMap.mp h
  obtain ⟨n, hn, rfl⟩ := Option.map_eq_some_iff.mp hname
  rw [String.toList_ofList]
  exact isIdentifier_of_splitNamed? hn

/-- Without names of positions among them, given names stand for no position. -/
theorem position?_of_mem_givenNames (hgiven : ∀ name ∈ givenNames pieces, ¬ IsPositional name)
    (h : name ∈ givenNames pieces) : position? name = none :=
  position?_eq_none (isIdentifier_of_mem_givenNames h) (hgiven name h)

/-! ## Collecting -/

/-- The key and the text of the argument at a position: its name and what stands behind the colon,
or a name made from the position and the whole piece. -/
def argumentAt (position : Nat) (piece : List Char) : String × List Char :=
  match splitNamed? (trim piece) with
  | some n => (String.ofList n.name, trim n.value)
  | none => ("_arg" ++ toString position, trim piece)

/-- The pieces hold an argument with this key and this text, and none of those that follow is given
the name. -/
def KeepsArgument (pieces : List (List Char)) (key : String) (token : List Char) : Prop :=
  ∃ before piece after, pieces = before ++ piece :: after ∧ (trim piece).isEmpty = false ∧
    argumentAt before.length piece = (key, token) ∧ key ∉ givenNames after

/-- An argument as it is kept. -/
def keptText (token : List Char) : Value := .text (.plain (String.ofList token))

namespace Reader

variable {struct key : String} {position : Nat} {fields out : Entries Value} {named : Bool} {s : Span}
  {spans : List Span} {given : List String} {token : List Char}

/-- Collecting leaves a blank argument out, and puts another one under its key; after a named
argument there are no positional ones. -/
theorem collectArguments_cons_eq_ok_iff :
    collectArguments struct position fields named (s :: spans) = .ok out ↔
      ((trim s.text).isEmpty ∧ collectArguments struct (position + 1) fields named spans = .ok out) ∨
      ((trim s.text).isEmpty = false ∧ (splitNamed? (trim s.text) = none → named = false) ∧
        collectArguments struct (position + 1)
          (Entries.insert (argumentAt position s.text).1
            (keptText (argumentAt position s.text).2) fields)
          (splitNamed? (trim s.text)).isSome spans = .ok out) := by
  rw [collectArguments]
  unfold addArgument argumentAt keptText
  cases hempty : (trim s.text).isEmpty with
  | true => simp [Span.trimmed, hempty]
  | false =>
      cases hsplit : splitNamed? (trim s.text) with
      | some n => simp [Span.trimmed, hempty, hsplit]
      | none =>
          cases named with
          | true => simp [Span.trimmed, hempty, hsplit]
          | false => simp [Span.trimmed, hempty, hsplit]

/-- Arguments with other keys leave what is kept under a key. -/
theorem get?_collectArguments (h : collectArguments struct position fields named spans = .ok out)
    (hgiven : key ∉ givenNames (spans.map Span.text))
    (hposition : ∀ i, position ≤ i → i < position + spans.length → key = "_arg" ++ toString i →
      named = true) : Entries.get? out key = Entries.get? fields key := by
  induction spans generalizing position fields named with
  | nil =>
      cases h
      rfl
  | cons s spans ih =>
      rw [List.map_cons, givenNames_cons, List.mem_append, not_or] at hgiven
      rcases collectArguments_cons_eq_ok_iff.mp h with ⟨-, h⟩ | ⟨-, hnamed, h⟩
      · exact ih h hgiven.2 fun i hi hlt => hposition i (by omega) (by rw [List.length_cons]; omega)
      · cases hsplit : splitNamed? (trim s.text) with
        | some n =>
            rw [hsplit] at h hgiven
            rw [ih h hgiven.2 fun _ _ _ _ => rfl, Entries.get?_insert, if_neg]
            intro heq
            refine hgiven.1 (List.mem_singleton.mpr ?_)
            rw [← heq, argumentAt, hsplit]
        | none =>
            have hfalse := hnamed hsplit
            have hother : ∀ i, position ≤ i → i < position + (s :: spans).length →
                key ≠ "_arg" ++ toString i := by
              intro i hi hlt heq
              rw [hposition i hi hlt heq] at hfalse
              cases hfalse
            rw [ih h hgiven.2 fun i hi hlt heq =>
                absurd heq (hother i (by omega) (by rw [List.length_cons]; omega)),
              Entries.get?_insert, if_neg]
            intro heq
            refine hother position (Nat.le_refl _) (by rw [List.length_cons]; omega) ?_
            rw [← heq, argumentAt, hsplit]

/-- An argument is kept under its key, unless a later one is given the name. -/
theorem get?_of_argumentAt {before after : List (List Char)} {piece : List Char}
    (h : collectArguments struct position fields named spans = .ok out)
    (hspans : spans.map Span.text = before ++ piece :: after)
    (hbound : position + spans.length ≤ positionBound) (hempty : (trim piece).isEmpty = false)
    (hkey : argumentAt (position + before.length) piece = (key, token))
    (hlater : key ∉ givenNames after) : Entries.get? out key = some (keptText token) := by
  induction before generalizing position fields named spans with
  | nil =>
      obtain ⟨s, spans, rfl, rfl, rfl⟩ := List.map_eq_cons_iff.mp hspans
      have hkey : argumentAt position s.text = (key, token) := hkey
      rw [List.length_cons] at hbound
      rcases collectArguments_cons_eq_ok_iff.mp h with ⟨hblank, -⟩ | ⟨-, -, h⟩
      · rw [hblank] at hempty
        cases hempty
      · rw [hkey] at h
        rw [get?_collectArguments h hlater, Entries.get?_insert, if_pos rfl]
        intro i hi hlt heq
        -- no later position makes the same name
        cases hsplit : splitNamed? (trim s.text) with
        | some n => rfl
        | none =>
            rw [argumentAt, hsplit] at hkey
            have hposition := position_inj (by omega) (by omega) ((Prod.mk.inj hkey).1.trans heq)
            omega
  | cons first before ih =>
      obtain ⟨s, spans, rfl, -, hspans⟩ := List.map_eq_cons_iff.mp hspans
      rw [List.length_cons, Nat.add_comm before.length 1, ← Nat.add_assoc] at hkey
      rw [List.length_cons] at hbound
      rcases collectArguments_cons_eq_ok_iff.mp h with ⟨-, h⟩ | ⟨-, -, h⟩
      · exact ih h hspans (by omega) hkey
      · exact ih h hspans (by omega) hkey

/-- The keys of what is collected: names made from positions, and then given names. -/
structure KeysOf (given keys : List String) (named : Bool) : Prop where
  nodup : keys.Nodup
  parts : ∃ positional rest, keys = positional ++ rest ∧
    (∀ key ∈ positional, ∃ i < positionBound, key = "_arg" ++ toString i) ∧
    (∀ key ∈ rest, key ∈ given) ∧ (named = false → rest = [])

theorem KeysOf.insert_given (h : KeysOf given (Entries.names fields) named) (hkey : key ∈ given)
    (v : Value) : KeysOf given (Entries.names (Entries.insert key v fields)) true := by
  refine ⟨Entries.nodup_names_insert h.nodup, ?_⟩
  obtain ⟨positional, rest, hkeys, hpositional, hrest, -⟩ := h.parts
  rw [Entries.names_insert]
  split
  · exact ⟨positional, rest, hkeys, hpositional, hrest, nofun⟩
  · refine ⟨positional, rest ++ [key], by rw [hkeys, List.append_assoc], hpositional, ?_, nofun⟩
    intro k hk
    rcases List.mem_append.mp hk with hk | hk
    · exact hrest k hk
    · exact List.mem_singleton.mp hk ▸ hkey

theorem KeysOf.insert_position (h : KeysOf given (Entries.names fields) false)
    (hposition : position < positionBound) (v : Value) :
    KeysOf given (Entries.names (Entries.insert ("_arg" ++ toString position) v fields)) false := by
  refine ⟨Entries.nodup_names_insert h.nodup, ?_⟩
  obtain ⟨positional, rest, hkeys, hpositional, hrest, hnil⟩ := h.parts
  rw [Entries.names_insert]
  split
  · exact ⟨positional, rest, hkeys, hpositional, hrest, hnil⟩
  · rw [hnil rfl, List.append_nil] at hkeys
    refine ⟨positional ++ ["_arg" ++ toString position], [], by rw [hkeys, List.append_nil], ?_,
      nofun, fun _ => rfl⟩
    intro k hk
    rcases List.mem_append.mp hk with hk | hk
    · exact hpositional k hk
    · exact ⟨position, hposition, List.mem_singleton.mp hk⟩

theorem keysOf_collectArguments (h : collectArguments struct position fields named spans = .ok out)
    (hbound : position + spans.length ≤ positionBound)
    (hsub : givenNames (spans.map Span.text) ⊆ given)
    (hkeys : KeysOf given (Entries.names fields) named) :
    ∃ named', KeysOf given (Entries.names out) named' := by
  induction spans generalizing position fields named with
  | nil =>
      cases h
      exact ⟨named, hkeys⟩
  | cons s spans ih =>
      rw [List.length_cons] at hbound
      rw [List.map_cons, givenNames_cons, List.append_subset] at hsub
      rcases collectArguments_cons_eq_ok_iff.mp h with ⟨-, h⟩ | ⟨-, hnamed, h⟩
      · exact ih h (by omega) hsub.2 hkeys
      · refine ih h (by omega) hsub.2 ?_
        cases hsplit : splitNamed? (trim s.text) with
        | some n =>
            rw [hsplit] at hsub
            rw [argumentAt, hsplit]
            exact hkeys.insert_given (hsub.1 List.mem_cons_self) _
        | none =>
            rw [argumentAt, hsplit]
            rw [hnamed hsplit] at hkeys
            exact hkeys.insert_position (by omega) _

/-- What a call keeps behind one of its arguments: names that are given, and behind a name made from
a position also names made from others. -/
theorem exists_append_of_keepsArgument (h : collectArguments struct 0 [] false spans = .ok out)
    (hbound : spans.length ≤ positionBound) (hkeeps : KeepsArgument (spans.map Span.text) key token) :
    ∃ before after, out = before ++ (key, keptText token) :: after ∧ ∀ e ∈ after, e.1 ≠ key ∧
      (e.1 ∈ givenNames (spans.map Span.text) ∨ ∃ i < positionBound, ∃ j < positionBound,
        e.1 = "_arg" ++ toString i ∧ key = "_arg" ++ toString j) := by
  obtain ⟨front, piece, back, hspans, hempty, hkey, hlater⟩ := hkeeps
  have hget := get?_of_argumentAt h hspans (by omega) hempty (by rwa [Nat.zero_add]) hlater
  have hstart : KeysOf (givenNames (spans.map Span.text)) (Entries.names ([] : Entries Value))
      false :=
    ⟨List.nodup_nil, [], [], rfl, nofun, nofun, fun _ => rfl⟩
  obtain ⟨named, hnodup, positional, rest, hkeys, hpositional, hrest, -⟩ :=
    keysOf_collectArguments h (by omega) (List.Subset.refl _) hstart
  obtain ⟨before, after, rfl⟩ := List.append_of_mem (Entries.mem_of_get? hget)
  refine ⟨before, after, rfl, fun e he => ?_⟩
  have hin : e.1 ∈ Entries.names after := Entries.mem_names_of_mem he
  have happend : Entries.names (before ++ (key, keptText token) :: after) =
      Entries.names before ++ key :: Entries.names after := List.map_append
  have hnames := happend.symm.trans hkeys
  have hparts := happend ▸ hnodup
  refine ⟨?_, ?_⟩
  · rintro rfl
    exact (List.nodup_cons.mp hparts.of_append_right).1 hin
  · rcases List.append_eq_append_iff.mp hnames with ⟨more, hmore, hcons⟩ | ⟨more, -, hcons⟩
    · rcases List.cons_eq_append_iff.mp hcons with ⟨-, hcons⟩ | ⟨more', rfl, hafter⟩
      · exact .inl (hrest _ (by rw [hcons]; exact List.mem_cons_of_mem _ hin))
      · -- the key itself is made from a position
        rw [hafter] at hin
        rcases List.mem_append.mp hin with hin | hin
        · obtain ⟨i, hi, he⟩ := hpositional e.1 (by
            rw [hmore]
            exact List.mem_append_right _ (List.mem_cons_of_mem _ hin))
          obtain ⟨j, hj, hkey⟩ := hpositional key (by
            rw [hmore]
            exact List.mem_append_right _ List.mem_cons_self)
          exact .inr ⟨i, hi, j, hj, he, hkey⟩
        · exact .inl (hrest _ hin)
    · exact .inl (hrest _ (by
        rw [hcons]
        exact List.mem_append_right _ (List.mem_cons_of_mem _ hin)))

/-- A name under which something is kept is given, or made from the position of an argument. -/
theorem name_of_collectArguments (h : collectArguments struct position fields named spans = .ok out) :
    ∀ name ∈ Entries.names out, name ∈ Entries.names fields ∨
      name ∈ givenNames (spans.map Span.text) ∨
      ∃ i piece, (spans.map Span.text)[i]? = some piece ∧ piece ≠ [] ∧
        name = "_arg" ++ toString (position + i) := by
  induction spans generalizing position fields named with
  | nil =>
      cases h
      intro name hname
      exact .inl hname
  | cons s spans ih =>
      intro name hname
      rw [List.map_cons]
      -- what is collected of the arguments that follow
      have hlater : ∀ {fields named},
          collectArguments struct (position + 1) fields named spans = .ok out →
          name ∈ Entries.names fields ∨ name ∈ givenNames (s.text :: spans.map Span.text) ∨
            ∃ i piece, (s.text :: spans.map Span.text)[i]? = some piece ∧ piece ≠ [] ∧
              name = "_arg" ++ toString (position + i) := by
        intro fields named hmore
        rcases ih hmore name hname with hin | hgiven | ⟨i, piece, hpiece, hne, hname⟩
        · exact .inl hin
        · exact .inr (.inl (givenNames_subset_cons _ _ hgiven))
        · refine .inr (.inr ⟨i + 1, piece, hpiece, hne, ?_⟩)
          rw [hname, Nat.add_right_comm, Nat.add_assoc]
      rcases collectArguments_cons_eq_ok_iff.mp h with ⟨-, hmore⟩ | ⟨hempty, -, hmore⟩
      · exact hlater hmore
      · refine (hlater hmore).elim (fun hin => ?_) .inr
        obtain ⟨e, he, rfl⟩ := List.mem_map.mp hin
        rcases Entries.eq_or_mem_of_mem_insert he with rfl | he
        · -- the argument itself
          right
          rw [givenNames_cons]
          unfold argumentAt
          cases splitNamed? (trim s.text) with
          | some n => exact .inl List.mem_cons_self
          | none =>
              refine .inr ⟨0, s.text, rfl, ?_, rfl⟩
              intro hnil
              rw [hnil] at hempty
              cases hempty
        · exact .inl (List.mem_map_of_mem he)

/-- Where a name stands for the last position of all, such a name is given, or the text is too long
for a word to count its characters. -/
theorem namesLast_of_collectArguments {text : List Char} {column : Nat}
    (h : collectArguments struct 0 [] false (Span.mk text column).arguments = .ok out)
    (hlast : NamesLast (Entries.names out)) :
    NamesLast (argumentNames text) ∨ positionBound ≤ text.length := by
  obtain ⟨name, hname, hposition⟩ := hlast
  have hspans : (Span.mk text column).arguments.map Span.text = Scan.start.pieces ',' text :=
    map_text_place column _
  rcases name_of_collectArguments h name hname with hin | hgiven | ⟨i, piece, hpiece, hne, rfl⟩
  · cases hin
  · rw [hspans] at hgiven
    exact .inl ⟨name, hgiven, hposition⟩
  · right
    rw [hspans] at hpiece
    have hlt := Scan.lt_length_of_pieces hpiece hne
    rw [position?_position] at hposition
    have heq := Option.some.inj (Option.filter_eq_some_iff.mp hposition).1
    omega

end Reader

/-! ## Different names -/

/-- The argument texts of a call under the names by which it keeps them, the first of the pieces at
`position` and after named arguments if `named`. -/
def keptArguments (struct : String) (position : Nat) (named : Bool) :
    List (List Char) → Except Fault (Entries Value)
  | [] => .ok []
  | piece :: more =>
    let argument := trim piece
    if argument.isEmpty then keptArguments struct (position + 1) named more
    else
      match splitNamed? argument with
      | some n =>
        (keptArguments struct (position + 1) true more).map
          ((String.ofList n.name, .text (.plain (String.ofList (trim n.value)))) :: ·)
      | none =>
        if named then .error (.positionalAfterNamed struct)
        else
          (keptArguments struct (position + 1) false more).map
            (("_arg" ++ toString position, .text (.plain (String.ofList argument))) :: ·)

section Kept

variable {struct : String} {position : Nat} {named : Bool} {es fields : Entries Value}

/-- A text is kept under the name of its position or under a name that is given. -/
theorem origin_of_keptArguments (h : keptArguments struct position named pieces = .ok es) :
    ∀ name ∈ Entries.names es,
      (∃ i, position ≤ i ∧ i < position + pieces.length ∧ name = "_arg" ++ toString i) ∨
        name ∈ givenNames pieces := by
  induction pieces generalizing position named es with
  | nil =>
      cases h
      exact fun name hname => by cases hname
  | cons piece pieces ih =>
      -- what is kept of the pieces that follow
      have hlater : ∀ {named es}, keptArguments struct (position + 1) named pieces = .ok es →
          ∀ name ∈ Entries.names es,
            (∃ i, position ≤ i ∧ i < position + (piece :: pieces).length ∧
              name = "_arg" ++ toString i) ∨ name ∈ givenNames (piece :: pieces) := by
        intro named es hes name hname
        rcases ih hes name hname with ⟨i, hi, hlt, hname⟩ | hgiven
        · exact .inl ⟨i, by omega, by rw [List.length_cons]; omega, hname⟩
        · exact .inr (givenNames_subset_cons piece pieces hgiven)
      rw [keptArguments] at h
      split at h
      · exact hlater h
      · split at h
        · next n hn =>
          obtain ⟨es', hes, rfl⟩ := map_eq_ok_iff.mp h
          intro name hname
          rcases List.mem_cons.mp hname with rfl | hname
          · refine .inr ?_
            rw [givenNames_cons, hn]
            exact List.mem_cons_self
          · exact hlater hes name hname
        · split at h
          · cases h
          · obtain ⟨es', hes, rfl⟩ := map_eq_ok_iff.mp h
            intro name hname
            rcases List.mem_cons.mp hname with rfl | hname
            · exact .inl ⟨position, le_rfl, by rw [List.length_cons]; omega, rfl⟩
            · exact hlater hes name hname

/-- No two texts are kept under one name, if the given names are distinct and none is that of a
position. -/
theorem nodup_of_keptArguments (h : keptArguments struct position named pieces = .ok es)
    (hbound : position + pieces.length ≤ positionBound) (hnodup : (givenNames pieces).Nodup)
    (hgiven : ∀ name ∈ givenNames pieces, ¬ IsPositional name) : (Entries.names es).Nodup := by
  induction pieces generalizing position named es with
  | nil =>
      cases h
      exact List.nodup_nil
  | cons piece pieces ih =>
      rw [givenNames_cons] at hnodup
      rw [List.length_cons] at hbound
      have hmore : ∀ name ∈ givenNames pieces, ¬ IsPositional name :=
        fun name hname => hgiven name (givenNames_subset_cons piece pieces hname)
      have hlater : ∀ {named es}, keptArguments struct (position + 1) named pieces = .ok es →
          (Entries.names es).Nodup :=
        fun hes => ih hes (by omega) hnodup.of_append_right hmore
      rw [keptArguments] at h
      split at h
      · exact hlater h
      · split at h
        · next n hn =>
          obtain ⟨es', hes, rfl⟩ := map_eq_ok_iff.mp h
          rw [hn] at hnodup
          refine List.nodup_cons.mpr ⟨fun hin => ?_, hlater hes⟩
          rcases origin_of_keptArguments hes _ hin with ⟨i, -, -, hname⟩ | hin
          · have hpositional : IsPositional (String.ofList n.name) := by
              have heq : String.ofList n.name = "_arg" ++ toString i := hname
              rw [heq]
              exact isPositional_of_position i
            refine hgiven _ ?_ hpositional
            rw [givenNames_cons, hn]
            exact List.mem_cons_self
          · exact (List.nodup_cons.mp hnodup).1 hin
        · split at h
          · cases h
          · obtain ⟨es', hes, rfl⟩ := map_eq_ok_iff.mp h
            refine List.nodup_cons.mpr ⟨fun hin => ?_, hlater hes⟩
            rcases origin_of_keptArguments hes _ hin with ⟨i, hi, hlt, hname⟩ | hin
            · have heq := position_inj (by omega) (by omega) hname
              omega
            · exact hmore _ hin (isPositional_of_position position)

/-- Collecting arguments puts what is kept of them behind what was collected before. -/
theorem collectArguments_eq (column : Nat)
    (hnodup : ∀ es, keptArguments struct position named pieces = .ok es →
      (Entries.names (fields ++ es)).Nodup) :
    Reader.collectArguments struct position fields named (Span.place column pieces) =
      (keptArguments struct position named pieces).map (fields ++ ·) := by
  induction pieces generalizing position named fields column with
  | nil =>
      show _ = Except.ok (fields ++ [])
      rw [List.append_nil]
      rfl
  | cons piece pieces ih =>
      -- collecting one argument and then the others
      have hcollect : ∀ (name : String) (v : Value) (named : Bool),
          (∀ es, keptArguments struct (position + 1) named pieces = .ok es →
            (Entries.names (fields ++ (name, v) :: es)).Nodup) →
          Reader.collectArguments struct (position + 1) (Entries.insert name v fields) named
              (Span.place (column + piece.length + 1) pieces) =
            ((keptArguments struct (position + 1) named pieces).map ((name, v) :: ·)).map
              (fields ++ ·) := by
        intro name v named hnames
        cases hkept : keptArguments struct (position + 1) named pieces with
        | error e =>
            rw [ih _ (by rw [hkept]; nofun), hkept]
            rfl
        | ok es =>
            have hes := hnames es hkept
            have hnew : name ∉ Entries.names fields := by
              intro hin
              rw [Entries.names, List.map_append] at hes
              exact (List.disjoint_of_nodup_append hes) hin List.mem_cons_self
            have hfields : Entries.insert name v fields ++ es = fields ++ (name, v) :: es := by
              rw [Entries.insert_of_not_mem hnew, List.append_assoc]
              rfl
            rw [ih _ fun es' hes' => ?_, hkept]
            · exact congrArg Except.ok hfields
            · rw [hkept] at hes'
              cases hes'
              rw [hfields]
              exact hes
      rw [Span.place, Reader.collectArguments, keptArguments]
      rw [keptArguments] at hnodup
      cases hempty : (trim piece).isEmpty with
      | true =>
          simp only [Span.trimmed, hempty, if_true] at hnodup ⊢
          exact ih _ hnodup
      | false =>
          cases hsplit : splitNamed? (trim piece) with
          | some n =>
              simp only [Span.trimmed, Reader.addArgument, hempty, hsplit, Bool.false_eq_true,
                if_false] at hnodup ⊢
              refine hcollect _ _ true fun es hes => hnodup _ ?_
              rw [hes]
              rfl
          | none =>
              cases named with
              | true => simp [Span.trimmed, Reader.addArgument, hempty, hsplit, Except.map]
              | false =>
                  simp only [Span.trimmed, Reader.addArgument, hempty, hsplit, Bool.false_eq_true,
                    if_false] at hnodup ⊢
                  refine hcollect _ _ false fun es hes => hnodup _ ?_
                  rw [hes]
                  rfl

end Kept

end RowConfig
