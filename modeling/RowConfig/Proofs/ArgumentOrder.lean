import RowConfig.Proofs.InlineRows
import RowConfig.Proofs.Pieces

/-!
# The order of named arguments

An argument that names its field is for that field wherever it stands, so that named arguments with
distinct names may change places: what a row gives every field stays the same
(`get?_of_readRow_named`), and the fields are put into the order of the struct when the row is
bound. The rows that are made of such texts are both refused or both accepted, and bound to the same
or not at all (`RowText.agree_of_perm`).
-/

namespace RowConfig

open Binding Chars Value

variable {tables : Entries Table} {t : Table} {r r' : RowText} {count position start : Nat}
  {named : Bool} {fields fields' : Entries Value} {piece : List Char}
  {pieces : List (List Char)}

/-! ## Arguments that name a field -/

/-- A piece that is blank or names the field that it is for. -/
def NamesField (piece : List Char) : Prop := trim piece = [] ∨ (splitNamed? (trim piece)).isSome

instance (piece : List Char) : Decidable (NamesField piece) :=
  inferInstanceAs (Decidable (trim piece = [] ∨ (splitNamed? (trim piece)).isSome))

/-- The piece names the field and gives it the token. -/
def GivesByName (t : Table) (piece : List Char) (f : Field) (token : List Char) : Prop :=
  ∃ n, splitNamed? (trim piece) = some n ∧ t.field? (String.ofList n.name) = some f ∧
    token = trim n.value

theorem readRow_cons (tables : Entries Table) (t : Table) (r : RowText) (count position : Nat)
    (named : Bool) (fields : Entries Value) (offset : Nat) (piece : List Char)
    (more : List (Nat × List Char)) :
    readRow tables t r count position named fields ((offset, piece) :: more) =
      if (trim piece).isEmpty then readRow tables t r count (position + 1) named fields more
      else
        (assignArgument t count position (offset + byteSize (indent piece)) named (trim piece)).bind
          fun a =>
            ((Reader.mk tables (r.location a.offset (byteSize a.token))).readFor a.token a.field).bind
              fun v =>
                readRow tables t r count (position + 1) a.named
                  (Entries.insert a.field.name v fields) more := by
  rw [readRow]
  simp only
  split
  · rfl
  · cases assignArgument t count position (offset + byteSize (indent piece)) named (trim piece) with
    | error e => rfl
    | ok a =>
        simp only [Except.bind]
        cases (Reader.mk tables (r.location a.offset (byteSize a.token))).readFor a.token a.field <;>
          rfl

theorem readRow_blank (h : trim piece = []) (offset : Nat) (more : List (Nat × List Char)) :
    readRow tables t r count position named fields ((offset, piece) :: more) =
      readRow tables t r count (position + 1) named fields more := by
  rw [readRow_cons, h]
  rfl

namespace GivesByName

variable {f g : Field} {token token' : List Char}

theorem trim_ne_nil (h : GivesByName t piece f token) : trim piece ≠ [] := by
  obtain ⟨n, hn, -⟩ := h
  intro hblank
  rw [hblank] at hn
  cases hn

/-- The piece is for one field only, and there is one token in it. -/
theorem unique (h : GivesByName t piece f token) (h' : GivesByName t piece g token') :
    f = g ∧ token = token' := by
  obtain ⟨n, hn, hf, rfl⟩ := h
  obtain ⟨n', hn', hg, rfl⟩ := h'
  rw [hn] at hn'
  cases hn'
  rw [hf] at hg
  cases hg
  exact ⟨rfl, rfl⟩

/-- The field has the name that the piece gives. -/
theorem givenNames_eq (h : GivesByName t piece f token) (pieces : List (List Char)) :
    givenNames (piece :: pieces) = f.name :: givenNames pieces := by
  obtain ⟨n, hn, hf, -⟩ := h
  have hname := List.find?_some (p := fun g : Field => g.name == String.ofList n.name) hf
  rw [givenNames_cons, hn, beq_iff_eq.mp hname]
  rfl

/-- The token is read for the field that is named, wherever the piece stands. -/
theorem readRow_eq (h : GivesByName t piece f token) (tables : Entries Table) (r : RowText)
    (count position : Nat) (named : Bool) (fields : Entries Value) (offset : Nat)
    (more : List (Nat × List Char)) :
    ∃ place, readRow tables t r count position named fields ((offset, piece) :: more) =
      ((Reader.mk tables place).readFor token f).bind fun v =>
        readRow tables t r count (position + 1) true (Entries.insert f.name v fields) more := by
  have hempty : (trim piece).isEmpty = false := List.isEmpty_eq_false_iff.mpr h.trim_ne_nil
  obtain ⟨n, hn, hf, rfl⟩ := h
  rw [readRow_cons, hempty, if_neg Bool.false_ne_true, assignArgument]
  simp only [hn, hf]
  exact ⟨_, rfl⟩

end GivesByName

/-- A piece that names no field of the struct is refused. -/
theorem readRow_unknown {n : NamedArgument} (hn : splitNamed? (trim piece) = some n)
    (hf : t.field? (String.ofList n.name) = none) (offset : Nat) (more : List (Nat × List Char)) :
    readRow tables t r count position named fields ((offset, piece) :: more) =
      .error (t.unknownField (String.ofList n.name)) := by
  have hempty : (trim piece).isEmpty = false := by
    cases hpiece : trim piece with
    | nil => rw [hpiece] at hn; cases hn
    | cons => rfl
  rw [readRow_cons, hempty, if_neg Bool.false_ne_true, assignArgument]
  simp only [hn, hf]
  rfl

/-- A piece that names a field is blank, or names what is no field of the struct, or gives a field
its token. -/
theorem NamesField.cases (h : NamesField piece) (t : Table) :
    trim piece = [] ∨
      (∃ n, splitNamed? (trim piece) = some n ∧ t.field? (String.ofList n.name) = none) ∨
      ∃ f token, GivesByName t piece f token := by
  refine h.imp_right fun hnamed => ?_
  obtain ⟨n, hn⟩ := Option.isSome_iff_exists.mp hnamed
  cases hf : t.field? (String.ofList n.name) with
  | none => exact .inl ⟨n, hn, hf⟩
  | some f => exact .inr ⟨f, _, n, hn, hf, rfl⟩

/-! ## Reading named arguments -/

/-- The piece is blank, or names a field for which its token can be read. -/
def ReadsByName (tables : Entries Table) (t : Table) (place : Location) (piece : List Char) : Prop :=
  trim piece = [] ∨ ∃ f token v, GivesByName t piece f token ∧
    (Reader.mk tables place).readFor token f = .ok v

/-- Named arguments are read if each of them can be, wherever that is tried. -/
theorem exists_readRow_named_iff (place : Location) (hpieces : ∀ p ∈ pieces, NamesField p) :
    (∃ fields', readRow tables t r count position named fields (placePieces ',' start pieces) =
      .ok fields') ↔ ∀ p ∈ pieces, ReadsByName tables t place p := by
  induction pieces generalizing position start named fields with
  | nil =>
      refine iff_of_true ⟨fields, rfl⟩ ?_
      intro p hp
      cases hp
  | cons piece pieces ih =>
      obtain ⟨hpiece, hpieces⟩ := List.forall_mem_cons.mp hpieces
      rw [List.forall_mem_cons, placePieces]
      rcases hpiece.cases t with hblank | ⟨n, hn, hf⟩ | ⟨f, token, hgives⟩
      · have hreads : ReadsByName tables t place piece := .inl hblank
        rw [readRow_blank hblank, ih hpieces, and_iff_right hreads]
      · rw [readRow_unknown hn hf]
        constructor
        · rintro ⟨fields', h⟩
          cases h
        · rintro ⟨hblank | ⟨f, token, v, ⟨n', hn', hf', -⟩, -⟩, -⟩
          · rw [hblank] at hn
            cases hn
          · rw [hn] at hn'
            cases hn'
            rw [hf] at hf'
            cases hf'
      · obtain ⟨here, hread⟩ := hgives.readRow_eq tables r count position named fields start
          (placePieces ',' (start + byteSize piece + ','.utf8Size) pieces)
        have hplaces := Reader.agree_readFor ⟨tables, here⟩ ⟨tables, place⟩ rfl token f
        rw [hread]
        cases hv : (Reader.mk tables here).readFor token f with
        | error e =>
            obtain ⟨e', he'⟩ := hplaces.exists_error hv
            constructor
            · rintro ⟨fields', h⟩
              cases h
            · rintro ⟨hblank | ⟨g, token', w, hgives', hw⟩, -⟩
              · exact absurd hblank hgives.trim_ne_nil
              · obtain ⟨rfl, rfl⟩ := hgives.unique hgives'
                rw [he'] at hw
                cases hw
        | ok v =>
            obtain ⟨w, hw, -⟩ := hplaces.exists_right hv
            have hreads : ReadsByName tables t place piece := .inr ⟨f, token, w, hgives, hw⟩
            rw [and_iff_right hreads]
            exact ih hpieces

/-- Named arguments with distinct names give their fields what their tokens are read as, and leave
the other fields as they are. -/
theorem get?_of_readRow_named (hpieces : ∀ p ∈ pieces, NamesField p)
    (hnodup : (givenNames pieces).Nodup)
    (h : readRow tables t r count position named fields (placePieces ',' start pieces) =
      .ok fields') :
    (∀ p ∈ pieces, ∀ f token, GivesByName t p f token → ∃ place v,
      (Reader.mk tables place).readFor token f = .ok v ∧
        Entries.get? fields' f.name = some v) ∧
    ∀ name ∉ givenNames pieces, Entries.get? fields' name = Entries.get? fields name := by
  induction pieces generalizing position start named fields with
  | nil =>
      cases h
      exact ⟨nofun, fun _ _ => rfl⟩
  | cons piece pieces ih =>
      obtain ⟨hpiece, hpieces⟩ := List.forall_mem_cons.mp hpieces
      rw [placePieces] at h
      rcases hpiece.cases t with hblank | ⟨n, hn, hf⟩ | ⟨f, token, hgives⟩
      · rw [readRow_blank hblank] at h
        have hnames : givenNames (piece :: pieces) = givenNames pieces := by
          rw [givenNames_cons, hblank]
          rfl
        rw [hnames] at hnodup ⊢
        obtain ⟨hgiven, hother⟩ := ih hpieces hnodup h
        refine ⟨List.forall_mem_cons.mpr ⟨fun f token hgives => ?_, hgiven⟩, hother⟩
        exact absurd hblank hgives.trim_ne_nil
      · rw [readRow_unknown hn hf] at h
        cases h
      · obtain ⟨place, hread⟩ := hgives.readRow_eq tables r count position named fields start
          (placePieces ',' (start + byteSize piece + ','.utf8Size) pieces)
        rw [hread] at h
        obtain ⟨v, hv, h⟩ := bind_eq_ok_iff.mp h
        rw [hgives.givenNames_eq] at hnodup ⊢
        obtain ⟨hout, hnodup⟩ := List.nodup_cons.mp hnodup
        obtain ⟨hgiven, hother⟩ := ih hpieces hnodup h
        constructor
        · refine List.forall_mem_cons.mpr ⟨fun g token' hgives' => ?_, hgiven⟩
          obtain ⟨rfl, rfl⟩ := hgives.unique hgives'
          -- no later argument is for this field
          refine ⟨place, v, hv, ?_⟩
          rw [hother f.name hout, Entries.get?_insert, if_pos rfl]
        · intro name hname
          rw [List.mem_cons, not_or] at hname
          rw [hother name hname.2, Entries.get?_insert, if_neg (Ne.symm hname.1)]

/-- A name that is given among pieces that are read is that of a field to which one of them gives
its token. -/
theorem exists_givesByName {place : Location} {name : String}
    (hreads : ∀ p ∈ pieces, ReadsByName tables t place p) (h : name ∈ givenNames pieces) :
    ∃ p ∈ pieces, ∃ f token, GivesByName t p f token ∧ f.name = name := by
  obtain ⟨p, hp, hname⟩ := List.mem_filterMap.mp h
  obtain ⟨n, hn, rfl⟩ := Option.map_eq_some_iff.mp hname
  rcases hreads p hp with hblank | ⟨f, token, v, hgives, -⟩
  · rw [hblank] at hn
    cases hn
  · refine ⟨p, hp, f, token, hgives, ?_⟩
    obtain ⟨n', hn', hf, -⟩ := hgives
    rw [hn] at hn'
    cases hn'
    exact beq_iff_eq.mp (List.find?_some (p := fun g : Field => g.name == String.ofList n.name) hf)

/-! ## Changing places -/

/-- The same values are found under every name, but for the places that their calls remember. -/
def SameValues (structs : List String) (fields fields' : Entries Value) : Prop :=
  ∀ name, Option.Rel (fun v w => v = w ∨ Alike structs v w) (Entries.get? fields name)
    (Entries.get? fields' name)

/-- Named arguments with distinct names may change places: both times they are refused, or every
field has the same value afterwards. -/
theorem agree_readRow_of_perm {pieces' : List (List Char)} (hpieces : ∀ p ∈ pieces, NamesField p)
    (hnodup : (givenNames pieces).Nodup) (hperm : pieces.Perm pieces')
    (hfields : Entries.Pointwise (Alike (Entries.names tables)) fields fields') :
    Agree (SameValues (Entries.names tables))
      (readRow tables t r count position named fields (placePieces ',' start pieces))
      (readRow tables t r' count position named fields' (placePieces ',' start pieces')) := by
  have hpieces' : ∀ p ∈ pieces', NamesField p := fun p hp => hpieces p (hperm.mem_iff.mpr hp)
  have hnames : (givenNames pieces).Perm (givenNames pieces') := hperm.filterMap _
  -- whether they are read does not depend on where they stand
  let place : Location := ⟨none, 1, 1, 0, ""⟩
  have hreads : (∃ es, readRow tables t r count position named fields
      (placePieces ',' start pieces) = .ok es) ↔ ∀ p ∈ pieces, ReadsByName tables t place p :=
    exists_readRow_named_iff place hpieces
  have hreads' : (∃ es, readRow tables t r' count position named fields'
      (placePieces ',' start pieces') = .ok es) ↔ ∀ p ∈ pieces', ReadsByName tables t place p :=
    exists_readRow_named_iff place hpieces'
  simp only [← hperm.mem_iff] at hreads'
  cases hread : readRow tables t r count position named fields (placePieces ',' start pieces) with
  | error e =>
      cases hread' : readRow tables t r' count position named fields'
        (placePieces ',' start pieces') with
      | error e' => exact .error _ _
      | ok es' =>
          obtain ⟨es, hes⟩ := hreads.mpr (hreads'.mp ⟨es', hread'⟩)
          rw [hread] at hes
          cases hes
  | ok es =>
      have hall := hreads.mp ⟨es, hread⟩
      obtain ⟨es', hread'⟩ := hreads'.mpr hall
      rw [hread']
      obtain ⟨hgiven, hother⟩ := get?_of_readRow_named hpieces hnodup hread
      obtain ⟨hgiven', hother'⟩ := get?_of_readRow_named hpieces' (hnames.nodup hnodup) hread'
      refine .ok fun name => ?_
      by_cases hname : name ∈ givenNames pieces
      · -- one and the same token is read on both sides
        obtain ⟨p, hp, f, token, hgives, rfl⟩ := exists_givesByName hall hname
        obtain ⟨here, v, hv, hget⟩ := hgiven p hp f token hgives
        obtain ⟨there, w, hw, hget'⟩ := hgiven' p (hperm.mem_iff.mp hp) f token hgives
        obtain ⟨w', hw', halike⟩ :=
          (Reader.agree_readFor ⟨tables, here⟩ ⟨tables, there⟩ rfl token f).exists_right hv
        rw [hw] at hw'
        cases hw'
        rw [hget, hget']
        exact .some (.inr halike)
      · rw [hother name hname, hother' name fun h => hname (hnames.mem_iff.mpr h)]
        exact (hfields.imp_of_mem fun _ _ _ h => .inr h).get?_rel name

/-- What is read alike behind the same pieces is read alike with them. -/
theorem agree_readRow_append {R : Entries Value → Entries Value → Prop}
    {front pieces' : List (List Char)}
    (hmore : ∀ position start named fields fields',
      Entries.Pointwise (Alike (Entries.names tables)) fields fields' →
      Agree R (readRow tables t r count position named fields (placePieces ',' start pieces))
        (readRow tables t r' count position named fields' (placePieces ',' start pieces')))
    (hfields : Entries.Pointwise (Alike (Entries.names tables)) fields fields') :
    Agree R (readRow tables t r count position named fields (placePieces ',' start (front ++ pieces)))
      (readRow tables t r' count position named fields'
        (placePieces ',' start (front ++ pieces'))) := by
  induction front generalizing position start named fields fields' with
  | nil => exact hmore _ _ _ _ _ hfields
  | cons piece front ih =>
      rw [List.cons_append, List.cons_append, placePieces, placePieces, readRow_cons, readRow_cons]
      split
      · exact ih hfields
      · refine (Agree.refl (fun _ => rfl) (assignArgument t count position _ named _)).bind
          (R := (· = ·)) fun a _ heq => ?_
        subst heq
        have hread := Reader.agree_readFor ⟨tables, r.location a.offset (byteSize a.token)⟩
          ⟨tables, r'.location a.offset (byteSize a.token)⟩ rfl a.token a.field
        exact hread.bind fun v w hvw => ih (hfields.insert a.field.name hvw)

/-! ## Binding -/

/-- Values for the fields of a struct and no others are put into one order, whatever their own. -/
theorem pointwise_arrange_of_sameValues {structs : List String} {fields : List Field}
    {present present' : Entries Value} (hnodup : (Entries.names present).Nodup)
    (hnodup' : (Entries.names present').Nodup)
    (hsub : Entries.names present ⊆ fields.map Field.name)
    (hsub' : Entries.names present' ⊆ fields.map Field.name)
    (hsame : SameValues structs present present') :
    Entries.Pointwise (fun v w => v = w ∨ Alike structs v w) (arrange fields present)
      (arrange fields present') := by
  induction fields generalizing present present' with
  | nil =>
      have hnil : present = [] := List.map_eq_nil_iff.mp (List.subset_nil.mp hsub)
      have hnil' : present' = [] := List.map_eq_nil_iff.mp (List.subset_nil.mp hsub')
      rw [hnil, hnil']
      exact .nil
  | cons f fields ih =>
      refine .cons ⟨rfl, rel_filled (fun _ => .inl rfl) f.default (hsame f.name)⟩ ?_
      refine ih (Entries.nodup_names_erase hnodup) (Entries.nodup_names_erase hnodup')
        (Entries.names_erase_subset hnodup hsub) (Entries.names_erase_subset hnodup' hsub')
        fun name => ?_
      by_cases hname : name = f.name
      · rw [hname, Entries.get?_erase_self hnodup, Entries.get?_erase_self hnodup']
        exact .none
      · rw [Entries.get?_erase_of_ne hname, Entries.get?_erase_of_ne hname]
        exact hsame name

/-- Rows for one struct that hold the same values are bound to the same, in whatever order they hold
them. -/
theorem agree_bindInstance_of_sameValues (ht : Entries.get? tables t.name = some t)
    (hrow : t.WrittenRow (Entries.names tables) (.ofFields t.name fields))
    (hrow' : t.WrittenRow (Entries.names tables) (.ofFields t.name fields'))
    (hsame : SameValues (Entries.names tables) fields fields') :
    Agree (· = ·) (bindInstance tables (.ofFields t.name fields))
      (bindInstance tables (.ofFields t.name fields')) := by
  have harranged := pointwise_arrange_of_sameValues hrow.nodup hrow'.nodup hrow.subset hrow'.subset
    hsame
  show Agree _ (bindWithin tables (maxDepth - 1 + 1) [] _) (bindWithin tables (maxDepth - 1 + 1) [] _)
  rw [bindWithin_bound ht, bindWithin_bound ht]
  exact agree_bindFields [] t.name
    (fun path struct hstruct => agree_bindWithin (maxDepth - 1) path hstruct) harranged

/-- A text made of pieces is split into them. -/
theorem splitTop_intercalate (hpieces : ∀ p ∈ pieces, IsPiece p) (hne : pieces ≠ []) :
    splitTop ',' ([','].intercalate pieces) = placePieces ',' 0 pieces := by
  obtain ⟨piece, more, rfl⟩ := List.exists_cons_of_ne_nil hne
  rw [splitTop, IsPiece.pieces_intercalate hpieces]

/-- Texts that consist of the same arguments have as many of them, and these are read alike. -/
theorem agree_readRow_splitTop (tables : Entries Table) (t : Table)
    {front pieces' : List (List Char)} (hne : front ++ pieces ≠ []) (hfront : ∀ p ∈ front, IsPiece p)
    (hpieces : ∀ p ∈ pieces, IsPiece p ∧ NamesField p)
    (hnodup : (givenNames pieces).Nodup) (hperm : pieces.Perm pieces')
    (hr : r.text = [','].intercalate (front ++ pieces))
    (hr' : r'.text = [','].intercalate (front ++ pieces')) :
    (splitTop ',' r'.text).length = (splitTop ',' r.text).length ∧
      ∀ count, Agree (SameValues (Entries.names tables))
        (readRow tables t r count 0 false [] (splitTop ',' r.text))
        (readRow tables t r' count 0 false [] (splitTop ',' r'.text)) := by
  have hall : (front ++ pieces).Perm (front ++ pieces') := hperm.append_left front
  have hsplit : splitTop ',' r.text = placePieces ',' 0 (front ++ pieces) := by
    rw [hr]
    exact splitTop_intercalate (List.forall_mem_append.mpr ⟨hfront, fun p hp => (hpieces p hp).1⟩) hne
  have hsplit' : splitTop ',' r'.text = placePieces ',' 0 (front ++ pieces') := by
    rw [hr']
    refine splitTop_intercalate (List.forall_mem_append.mpr ⟨hfront, fun p hp => ?_⟩) ?_
    · exact (hpieces p (hperm.mem_iff.mpr hp)).1
    · intro hempty
      rw [hempty] at hall
      exact hne hall.eq_nil
  rw [hsplit, hsplit']
  constructor
  · rw [← List.length_map Prod.snd, ← List.length_map Prod.snd, map_snd_placePieces,
      map_snd_placePieces, hall.length_eq]
  · intro count
    refine agree_readRow_append (fun _ _ _ _ _ hfields => ?_) .nil
    exact agree_readRow_of_perm (fun p hp => (hpieces p hp).2) hnodup hperm hfields

/-- The texts of two rows of one struct consist of the same arguments, of which those that name
their fields change places, no two of them naming the same field. Then both rows are refused or both
are accepted; and of the accepted ones, both cannot be bound or both are bound to the same
instance. -/
theorem RowText.agree_of_perm (ht : Entries.get? tables t.name = some t)
    {front pieces' : List (List Char)} (hfront : ∀ p ∈ front, IsPiece p)
    (hpieces : ∀ p ∈ pieces, IsPiece p ∧ NamesField p) (hnodup : (givenNames pieces).Nodup)
    (hperm : pieces.Perm pieces') (hr : r.text = [','].intercalate (front ++ pieces))
    (hr' : r'.text = [','].intercalate (front ++ pieces')) :
    Agree (fun row row' => Agree (· = ·) (bindInstance tables row) (bindInstance tables row'))
      (r.read tables t) (r'.read tables t) := by
  -- a text without arguments is a single blank piece
  obtain ⟨front, hne, hfront, hr, hr'⟩ : ∃ front, front ++ pieces ≠ [] ∧ (∀ p ∈ front, IsPiece p) ∧
      r.text = [','].intercalate (front ++ pieces) ∧
      r'.text = [','].intercalate (front ++ pieces') := by
    by_cases hempty : front ++ pieces = []
    · obtain ⟨rfl, rfl⟩ := List.append_eq_nil_iff.mp hempty
      obtain rfl := hperm.nil_eq
      exact ⟨[[]], List.cons_ne_nil _ _, List.forall_mem_singleton.mpr (by decide), hr, hr'⟩
    · exact ⟨front, hempty, hfront, hr, hr'⟩
  obtain ⟨hlength, hread⟩ := agree_readRow_splitTop tables t hne hfront hpieces hnodup hperm hr hr'
  specialize hread (splitTop ',' r.text).length
  unfold RowText.read
  simp only [hlength]
  cases hfields : readRow tables t r (splitTop ',' r.text).length 0 false []
    (splitTop ',' r.text) with
  | error e =>
      obtain ⟨e', he'⟩ := hread.exists_error hfields
      rw [he']
      exact .error _ _
  | ok fields =>
      obtain ⟨fields', hfields', hsame⟩ := hread.exists_right hfields
      rw [hfields']
      refine .ok (agree_bindInstance_of_sameValues ht ?_ ?_ hsame)
      · exact writtenRow_of_readRow (Table.writtenRow_nil _ t) hfields
      · exact writtenRow_of_readRow (Table.writtenRow_nil _ t) hfields'

/-- Labelled arguments for a pin, one of them for the name that the position gives too. -/
def labelledPieces : List (List Char) := [" at: Point(1, y: 2)".toList, [], " id: b".toList]

def movedPieces : List (List Char) := [" id: b".toList, " at: Point(1, y: 2)".toList, []]

/-- A row for a pin with the name `a` and further arguments. -/
def pinRowWith (pieces : List (List Char)) : RowText :=
  ⟨"Pin", ⟨[','].intercalate (["a".toList] ++ pieces), ⟨"", ⟨"", none, 1⟩⟩, 2⟩, []⟩

def relabelledPin : Instance :=
  .ofFields "Pin" [("id", .text (.plain "b")),
    ("at", .instance (.ofFields "Point" [("x", .int 1), ("y", .int 2)]))]

theorem RowText.agree_of_perm_pin :
    ((pinRowWith labelledPieces).read pinTables pinTables.pin).bind (bindInstance pinTables) =
        .ok relabelledPin ∧
      ((pinRowWith movedPieces).read pinTables pinTables.pin).bind (bindInstance pinTables) =
        .ok relabelledPin := by
  have hbound : ((pinRowWith labelledPieces).read pinTables pinTables.pin).bind
      (bindInstance pinTables) = .ok relabelledPin := by cbv
  have hfront : ∀ p ∈ ["a".toList], IsPiece p := by decide
  have hpieces : ∀ p ∈ labelledPieces, IsPiece p ∧ NamesField p := by decide
  have hnames : givenNames labelledPieces = ["at", "id"] := by decide
  have hnodup : (givenNames labelledPieces).Nodup := by
    rw [hnames]
    decide
  have hperm : labelledPieces.Perm movedPieces := by decide
  have htext : ∀ pieces, (pinRowWith pieces).text = [','].intercalate (["a".toList] ++ pieces) :=
    fun _ => rfl
  obtain ⟨row, hread, hrow⟩ := bind_eq_ok_iff.mp hbound
  obtain ⟨row', hread', hagree⟩ := (RowText.agree_of_perm (t := pinTables.pin) rfl hfront hpieces
    hnodup hperm (htext _) (htext _)).exists_right hread
  obtain ⟨pin, hrow', rfl⟩ := hagree.exists_right hrow
  exact ⟨hbound, bind_eq_ok_iff.mpr ⟨row', hread', hrow'⟩⟩

end RowConfig
