import RowConfig.Proofs.Contents
import RowConfig.Proofs.Entries
import RowConfig.Reader

/-!
# What reading leaves behind

A value that was just read holds inline rows only as what reading makes of a call
(`Reader.exists_readCall_of_read`): rows of structs that were declared then, their arguments still
texts. Structs are never undeclared, so the rows stay calls of declared structs while the rest of
the document is read (`Value.Written`).
-/

namespace RowConfig

namespace Value

/-- Every inline row in the value is still a call, and of a declared struct. -/
def Written (structs : List String) (v : Value) : Prop :=
  ∀ row, v.Holds (.instance row) → row.call.isSome ∧ row.struct ∈ structs

variable {structs structs' : List String} {v w : Value}

theorem Written.mono (h : v.Written structs) (hsub : structs ⊆ structs') : v.Written structs' := by
  intro row hrow
  obtain ⟨hcall, hstruct⟩ := h row hrow
  exact ⟨hcall, hsub hstruct⟩

theorem Written.part (h : v.Written structs) (hw : w ∈ v.parts) : w.Written structs :=
  fun row hrow => h row (.of_part hw hrow)

/-- A value without parts holds no inline row unless it is one. -/
theorem not_holds_of_scalar {row : Instance} (hparts : v.parts = []) (hv : ∀ row, v ≠ .instance row) :
    ¬ v.Holds (.instance row) := by
  intro hrow
  rcases holds_iff.mp hrow with rfl | ⟨p, hp, -⟩
  · exact hv row rfl
  · rw [hparts] at hp
    cases hp

/-- A value without parts is written unless it is an instance. -/
theorem written_of_scalar (hparts : v.parts = []) (hv : ∀ row, v ≠ .instance row) :
    v.Written structs := by
  intro row hrow
  exact absurd hrow (not_holds_of_scalar hparts hv)

end Value

open Value

namespace Reader

variable {r : Reader} {s : Span} {v : Value} {row : Instance}

/-- Every inline row in the value is what the reader makes of the span as a call. -/
def ReadsCall (r : Reader) (s : Span) (v : Value) : Prop :=
  ∀ row, v.Holds (.instance row) → ∃ expected, r.readCall s expected = .ok (.instance row)

theorem readsCall_of_scalar (hparts : v.parts = []) (hv : ∀ row, v ≠ .instance row) :
    r.ReadsCall s v := by
  intro row hrow
  exact absurd hrow (not_holds_of_scalar hparts hv)

/-! ## Calls -/

/-- An argument is added as a text under some name. -/
theorem exists_insert_of_addArgument {struct : String} {position : Nat} {argument : Span}
    {fields fields' : Entries Value} {named named' : Bool}
    (h : addArgument struct position argument fields named = .ok (fields', named')) :
    ∃ name t, fields' = Entries.insert name (.text t) fields := by
  unfold addArgument at h
  split at h
  · cases h
    exact ⟨_, _, rfl⟩
  · split at h
    · cases h
    · cases h
      exact ⟨_, _, rfl⟩

/-- Arguments cannot be collected only if a positional one follows named ones. -/
theorem eq_of_collectArguments_error {struct : String} {position : Nat} {spans : List Span}
    {fields : Entries Value} {named : Bool} {fault : Fault}
    (h : collectArguments struct position fields named spans = .error fault) :
    fault = .positionalAfterNamed struct := by
  induction spans generalizing position fields named with
  | nil => cases h
  | cons s spans ih =>
      rw [collectArguments] at h
      split at h
      · exact ih h
      · split at h
        · next hadd =>
          cases h
          unfold addArgument at hadd
          split at hadd
          · cases hadd
          · split at hadd <;> cases hadd
            rfl
        · exact ih h

/-- What holds of no arguments and still holds when a text is added holds of the arguments that a
call collects. -/
theorem collectArguments_induction {P : Entries Value → Prop}
    (hinsert : ∀ name t fields, P fields → P (Entries.insert name (.text t) fields))
    {struct : String} {position : Nat} {spans : List Span} {fields fields' : Entries Value}
    {named : Bool} (hfields : P fields)
    (h : collectArguments struct position fields named spans = .ok fields') : P fields' := by
  induction spans generalizing position fields named with
  | nil =>
      cases h
      exact hfields
  | cons s spans ih =>
      rw [collectArguments] at h
      split at h
      · exact ih hfields h
      · split at h
        · cases h
        · next hadd =>
          obtain ⟨name, t, rfl⟩ := exists_insert_of_addArgument hadd
          exact ih (hinsert name t _ hfields) h

/-- The arguments that a call collects are texts under names of their own. -/
theorem texts_of_collectArguments {struct : String} {position : Nat} {spans : List Span}
    {fields : Entries Value} {named : Bool}
    (h : collectArguments struct position [] named spans = .ok fields) :
    (Entries.names fields).Nodup ∧ ∀ v ∈ Entries.values fields, ∃ t, v = .text t := by
  refine collectArguments_induction
    (P := fun es => (Entries.names es).Nodup ∧ ∀ v ∈ Entries.values es, ∃ t, v = .text t) ?_ ?_ h
  · rintro name t es ⟨hnodup, htexts⟩
    refine ⟨Entries.nodup_names_insert hnodup, ?_⟩
    intro v hv
    obtain ⟨entry, hentry, rfl⟩ := List.mem_map.mp hv
    rcases Entries.eq_or_mem_of_mem_insert hentry with rfl | hentry
    · exact ⟨t, rfl⟩
    · exact htexts _ (Entries.mem_values_of_mem hentry)
  · refine ⟨List.nodup_nil, ?_⟩
    intro v hv
    cases hv

/-- A call reads as an inline row of a declared struct, which holds what the arguments in its
brackets are collected to. -/
theorem exists_of_readCall {expected : String} (h : r.readCall s expected = .ok (.instance row)) :
    ∃ name arguments fields, splitCall? s = some (name, arguments) ∧
      expected ∈ Entries.names r.tables ∧ row = ⟨expected, fields, some (r.place s)⟩ ∧
        collectArguments expected 0 [] false arguments.arguments = .ok fields := by
  unfold readCall at h
  split at h
  · cases h
  · next name arguments hsplit =>
    split at h
    · cases h
    · split at h
      · next hinline =>
        obtain ⟨fields, hcollect, hrow⟩ := map_eq_ok_iff.mp h
        cases hrow
        refine ⟨name, arguments, fields, hsplit, ?_, rfl, hcollect⟩
        apply Entries.exists_get?_iff.mp
        cases hget : Entries.get? r.tables expected with
        | none =>
            rw [hget] at hinline
            cases hinline
        | some t => exact ⟨t, rfl⟩
      · obtain ⟨key, -, hrow⟩ := map_eq_ok_iff.mp h
        cases hrow

/-- A call that was just read holds no other row. -/
theorem readsCall_of_readCall {expected : String} (h : r.readCall s expected = .ok v) :
    r.ReadsCall s v := by
  intro row hrow
  cases v with
  | «instance» call =>
      rcases holds_iff.mp hrow with heq | ⟨p, hp, hrow⟩
      · cases heq
        exact ⟨expected, h⟩
      · obtain ⟨name, arguments, fields, -, -, rfl, hcollect⟩ := exists_of_readCall h
        obtain ⟨t, rfl⟩ := (texts_of_collectArguments hcollect).2 p hp
        exact absurd hrow (not_holds_of_scalar rfl nofun)
  | array items =>
      -- a call is read as a row or a reference
      unfold readCall at h
      split at h
      · cases h
      · split at h
        · cases h
        · split at h
          · obtain ⟨fields, -, heq⟩ := map_eq_ok_iff.mp h
            cases heq
          · obtain ⟨key, -, heq⟩ := map_eq_ok_iff.mp h
            cases heq
  | _ => exact absurd hrow (not_holds_of_scalar rfl nofun)

/-! ## Tokens -/

theorem readsCall_of_readScalar {type : ScalarType} (h : r.readScalar s type = .ok v) :
    r.ReadsCall s v := by
  unfold readScalar at h
  cases type with
  | struct name => exact readsCall_of_readCall h
  | bool =>
      simp only at h
      split at h
      · cases h; exact readsCall_of_scalar rfl nofun
      · cases h; exact readsCall_of_scalar rfl nofun
      · cases h
  | int =>
      simp only at h
      split at h
      · cases h; exact readsCall_of_scalar rfl nofun
      · cases h
  | float =>
      simp only at h
      split at h
      · cases h; exact readsCall_of_scalar rfl nofun
      · cases h
  | _ =>
      -- the four textual types
      obtain ⟨t, -, rfl⟩ := map_eq_ok_iff.mp h
      exact readsCall_of_scalar rfl nofun

theorem readsCall_of_readElement {type : ScalarType} (h : r.readElement s type = .ok v) :
    r.ReadsCall s v := by
  unfold readElement at h
  split at h
  · cases h
    exact readsCall_of_scalar rfl nofun
  · exact readsCall_of_readScalar h

theorem readsCall_of_readElements {type : ScalarType} {spans : List Span} {items : List Value}
    (h : r.readElements type spans = .ok items) :
    ∀ v ∈ items, ∃ s ∈ spans, r.ReadsCall s.trimmed v := by
  induction spans generalizing items with
  | nil =>
      cases h
      intro v hv
      cases hv
  | cons s spans ih =>
      have hmore : ∀ {items}, r.readElements type spans = .ok items →
          ∀ v ∈ items, ∃ s' ∈ s :: spans, r.ReadsCall s'.trimmed v := by
        intro items hitems v hv
        obtain ⟨s', hs', hread⟩ := ih hitems v hv
        exact ⟨s', List.mem_cons_of_mem _ hs', hread⟩
      rw [readElements] at h
      split at h
      · exact hmore h
      · split at h
        · cases h
        · next v hread =>
          obtain ⟨items', hitems, rfl⟩ := map_eq_ok_iff.mp h
          intro w hw
          rcases List.mem_cons.mp hw with rfl | hw
          · exact ⟨s, List.mem_cons_self, readsCall_of_readElement hread⟩
          · exact hmore hitems w hw

/-- The spans of a token that are read at a scalar type: the whole token, and the elements of a
list. -/
inductive ReadsSpan (token : List Char) : Span → Prop
  | whole : ReadsSpan token (Span.mk token 0).trimmed
  | element {inner piece : Span} : (Span.mk token 0).trimmed.inside? '[' ']' = some inner →
      piece ∈ inner.arguments → ReadsSpan token piece.trimmed

/-- The inline rows in what a reader makes of a token are made of calls in the token. -/
theorem exists_readCall_of_read {token : List Char} {type : FieldType}
    (h : r.read token type = .ok v) (hrow : v.Holds (.instance row)) :
    ∃ s expected, ReadsSpan token s ∧ r.readCall s expected = .ok (.instance row) := by
  unfold read at h
  simp only at h
  split at h
  · cases h
    exact absurd hrow (not_holds_of_scalar rfl nofun)
  · split at h
    · -- the rows in an array are those in its elements
      unfold readArray at h
      split at h
      · cases h
      · next inner hinner =>
        obtain ⟨items, hitems, rfl⟩ := map_eq_ok_iff.mp h
        rcases holds_iff.mp hrow with heq | ⟨p, hp, hrow⟩
        · cases heq
        · obtain ⟨piece, hpiece, hreads⟩ := readsCall_of_readElements hitems p hp
          obtain ⟨expected, hread⟩ := hreads row hrow
          exact ⟨piece.trimmed, expected, .element hinner hpiece, hread⟩
    · obtain ⟨expected, hread⟩ := readsCall_of_readScalar h row hrow
      exact ⟨_, expected, .whole, hread⟩

/-- What is read for a field is read at its type. -/
theorem read_of_readFor {token : List Char} {field : Field} (h : r.readFor token field = .ok v) :
    r.read token field.type = .ok v := by
  unfold readFor at h
  split at h
  · cases h
  · next hread =>
    obtain ⟨_, -, rfl⟩ := map_eq_ok_iff.mp h
    exact hread

/-- What a reader makes of a token is written, the structs declared where it stands. -/
theorem written_of_read {token : List Char} {type : FieldType} (h : r.read token type = .ok v) :
    v.Written (Entries.names r.tables) := by
  intro row hrow
  obtain ⟨s, expected, -, hread⟩ := exists_readCall_of_read h hrow
  obtain ⟨name, arguments, fields, -, hdeclared, rfl, -⟩ := exists_of_readCall hread
  exact ⟨rfl, hdeclared⟩

theorem written_of_readFor {token : List Char} {field : Field}
    (h : r.readFor token field = .ok v) : v.Written (Entries.names r.tables) :=
  written_of_read (read_of_readFor h)

end Reader

end RowConfig
