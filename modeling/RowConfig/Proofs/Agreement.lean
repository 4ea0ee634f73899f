import RowConfig.Proofs.Reading

/-!
# Agreement of two runs

Two runs agree when both fail, with whatever faults, or both succeed with related results. The main
case is a token that is read at two places: it makes a value at both or at neither, and the two
values are the same but for the places that the calls in them remember (`Reader.agree_read`).
-/

namespace RowConfig

variable {α β γ δ ε : Type} {R : α → β → Prop} {S : γ → δ → Prop}

/-- Both runs fail, or both succeed with related results. -/
inductive Agree (R : α → β → Prop) : Except ε α → Except ε β → Prop
  | ok {a : α} {b : β} : R a b → Agree R (.ok a) (.ok b)
  | error (e e' : ε) : Agree R (.error e) (.error e')

namespace Agree

variable {x : Except ε α} {y : Except ε β}

theorem refl {R : α → α → Prop} (hrefl : ∀ a, R a a) (x : Except ε α) : Agree R x x := by
  cases x with
  | error e => exact .error e e
  | ok a => exact .ok (hrefl a)

theorem map {f : α → γ} {g : β → δ} (h : Agree R x y) (hfg : ∀ a b, R a b → S (f a) (g b)) :
    Agree S (x.map f) (y.map g) := by
  cases h with
  | error e e' => exact .error e e'
  | ok hab => exact .ok (hfg _ _ hab)

theorem map_right {g : β → δ} {S : α → δ → Prop} (h : Agree R x y) (hg : ∀ a b, R a b → S a (g b)) :
    Agree S x (y.map g) := by
  cases h with
  | error e e' => exact .error e e'
  | ok hab => exact .ok (hg _ _ hab)

theorem bind {f : α → Except ε γ} {g : β → Except ε δ} (h : Agree R x y)
    (hfg : ∀ a b, R a b → Agree S (f a) (g b)) : Agree S (x.bind f) (y.bind g) := by
  cases h with
  | error e e' => exact .error e e'
  | ok hab => exact hfg _ _ hab

/-- Where one run succeeds, so does the other. -/
theorem exists_right {a : α} (h : Agree R x y) (hx : x = .ok a) : ∃ b, y = .ok b ∧ R a b := by
  subst hx
  cases h with
  | ok hab => exact ⟨_, rfl, hab⟩

/-- Where one run fails, so does the other. -/
theorem exists_error {e : ε} (h : Agree R x y) (hx : x = .error e) : ∃ e', y = .error e' := by
  subst hx
  cases h with
  | error _ e' => exact ⟨e', rfl⟩

end Agree

namespace Value

/-- The value holds nothing and is no instance. -/
def IsLeaf (v : Value) : Prop := v.parts = [] ∧ ∀ row, v ≠ .instance row

/-- Two values read from one token: the same but for the places that their calls remember. The
calls are of declared structs, and no name repeats among their arguments, which are texts. -/
inductive Alike (structs : List String) : Value → Value → Prop
  | leaf {v : Value} : v.IsLeaf → Alike structs v v
  | call {struct : String} {arguments : Entries Value} {place place' : Location} :
      struct ∈ structs → (Entries.names arguments).Nodup →
      (∀ v ∈ Entries.values arguments, v.IsLeaf) →
      Alike structs (.instance ⟨struct, arguments, some place⟩)
        (.instance ⟨struct, arguments, some place'⟩)
  | array {items items' : List Value} :
      List.Forall₂ (Alike structs) items items' → Alike structs (.array items) (.array items')

theorem isLeaf_null : Value.null.IsLeaf := ⟨rfl, fun _ h => by cases h⟩

theorem isLeaf_text (t : Text) : (Value.text t).IsLeaf := ⟨rfl, fun _ h => by cases h⟩

end Value

open Value

namespace Reader

variable {r r' : Reader} {s : Span} {structs : List String}

/-! ## Texts and calls -/

theorem agree_escapedText (r r' : Reader) (body : Span) :
    Agree (· = ·) (r.escapedText body) (r'.escapedText body) := by
  unfold escapedText
  split
  · exact .error _ _
  · exact .refl (fun _ => rfl) _

theorem agree_readText (r r' : Reader) (s : Span) :
    Agree (· = ·) (r.readText s) (r'.readText s) := by
  unfold readText
  split
  · split
    · exact .error _ _
    · split
      · exact agree_escapedText r r' _
      · exact .ok rfl
  · exact .ok rfl

/-- A text makes a leaf, wherever it is read. -/
theorem agree_readText_map (r r' : Reader) (s : Span) {f : Text → Value}
    (hf : ∀ t, (f t).IsLeaf) :
    Agree (Alike structs) ((r.readText s).map f) ((r'.readText s).map f) :=
  (agree_readText r r' s).map fun _ _ h => by
    rw [h]
    exact .leaf (hf _)

theorem agree_readCall (htables : r'.tables = r.tables) (s : Span) (expected : String) :
    Agree (Alike (Entries.names r.tables)) (r.readCall s expected) (r'.readCall s expected) := by
  unfold readCall
  rw [htables]
  split
  · exact .error _ _
  · next name arguments hcall =>
    split
    · exact .error _ _
    · split
      · next hinline =>
        obtain ⟨t, ht, -⟩ := (Option.any_eq_true _ _).mp hinline
        have hdeclared : expected ∈ Entries.names r.tables := Entries.exists_get?_iff.mp ⟨t, ht⟩
        cases hcollect : collectArguments expected 0 [] false arguments.arguments with
        | error e => exact .error e e
        | ok fields =>
            obtain ⟨hnodup, htexts⟩ := texts_of_collectArguments hcollect
            refine .ok (.call hdeclared hnodup fun v hv => ?_)
            obtain ⟨t, rfl⟩ := htexts v hv
            exact isLeaf_text t
      · exact agree_readText_map r r' _ fun _ => ⟨rfl, fun _ h => by cases h⟩

/-! ## Tokens -/

theorem agree_readScalar (htables : r'.tables = r.tables) (s : Span) (type : ScalarType) :
    Agree (Alike (Entries.names r.tables)) (r.readScalar s type) (r'.readScalar s type) := by
  have hleaf : ∀ v : Value, v.parts = [] → (∀ row, v ≠ .instance row) →
      Agree (ε := Fault) (Alike (Entries.names r.tables)) (.ok v) (.ok v) :=
    fun v hparts hv => .ok (.leaf ⟨hparts, hv⟩)
  unfold readScalar
  cases type with
  | struct name => exact agree_readCall htables s name
  | bool =>
      simp only
      split
      · exact hleaf _ rfl (by simp)
      · exact hleaf _ rfl (by simp)
      · exact .error _ _
  | int =>
      simp only
      split
      · exact hleaf _ rfl (by simp)
      · exact .error _ _
  | float =>
      simp only
      split
      · exact hleaf _ rfl (by simp)
      · exact .error _ _
  | _ =>
      -- the four textual types
      exact agree_readText_map r r' s fun _ => ⟨rfl, fun _ h => by cases h⟩

theorem agree_readElement (htables : r'.tables = r.tables) (s : Span) (type : ScalarType) :
    Agree (Alike (Entries.names r.tables)) (r.readElement s type) (r'.readElement s type) := by
  unfold readElement
  split
  · exact .ok (.leaf isLeaf_null)
  · exact agree_readScalar htables s type

theorem agree_readElements (htables : r'.tables = r.tables) (type : ScalarType)
    (spans : List Span) :
    Agree (List.Forall₂ (Alike (Entries.names r.tables))) (r.readElements type spans)
      (r'.readElements type spans) := by
  induction spans with
  | nil => exact .ok .nil
  | cons s spans ih =>
      rw [readElements, readElements]
      split
      · exact ih
      · have hfirst := agree_readElement htables s.trimmed type
        cases hv : r.readElement s.trimmed type with
        | error e =>
            obtain ⟨e', he'⟩ := hfirst.exists_error hv
            rw [he']
            exact .error _ _
        | ok v =>
            obtain ⟨w, hw, hvw⟩ := hfirst.exists_right hv
            rw [hw]
            exact ih.map fun _ _ hmore => .cons hvw hmore

/-- A token is read alike at two places where the same structs are declared. -/
theorem agree_read (htables : r'.tables = r.tables) (token : List Char) (type : FieldType) :
    Agree (Alike (Entries.names r.tables)) (r.read token type) (r'.read token type) := by
  unfold read
  simp only
  split
  · exact .ok (.leaf isLeaf_null)
  · split
    · unfold readArray
      split
      · exact .error _ _
      · exact (agree_readElements htables _ _).map fun _ _ hitems => .array hitems
    · exact agree_readScalar htables _ _

/-- Alike values show the same text, by which choices are compared. -/
theorem render_eq_of_alike {v w : Value} (h : Alike structs v w) :
    v.isNull = w.isNull ∧ v.render = w.render := by
  cases h <;> exact ⟨rfl, rfl⟩

variable (r r') in
theorem agree_readFor (htables : r'.tables = r.tables) (token : List Char) (field : Field) :
    Agree (Alike (Entries.names r.tables)) (r.readFor token field) (r'.readFor token field) := by
  have hread := agree_read htables token field.type
  unfold readFor
  cases hv : r.read token field.type with
  | error e =>
      obtain ⟨e', he'⟩ := hread.exists_error hv
      rw [he']
      exact .error _ _
  | ok v =>
      obtain ⟨w, hw, hvw⟩ := hread.exists_right hv
      rw [hw]
      obtain ⟨hnull, hrender⟩ := render_eq_of_alike hvw
      have hcheck : field.checkChoice w = field.checkChoice v := by
        unfold Field.checkChoice Field.allows
        rw [hnull, hrender]
      simp only
      rw [hcheck]
      exact (Agree.refl (fun _ => rfl) (field.checkChoice v)).map (R := (· = ·)) fun _ _ _ => hvw

end Reader

end RowConfig
