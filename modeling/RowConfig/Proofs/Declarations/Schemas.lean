import RowConfig.Proofs.Declarations.Marks

/-!
# The schema of a struct

Field lines declare the fields of a struct, anew or in the place of an old one, and overrides give
and take away defaults and choices. Whatever lines come in whatever order, after each of them the
fields have different names, in the order of their first declaration, the key is one of them, and
their defaults and choices are values of the types that they have at the time (`Table.DeclaredBy`).
-/

namespace RowConfig

/-! ## Choices -/

namespace Field

/-- Choices that a field may have: at least one, all of the type of the field, which is neither an
array nor of a struct. -/
structure MayOffer (f : Field) (choices : List Value) : Prop where
  nonempty : choices ≠ []
  single : f.type.array = false
  builtIn : f.type.scalar.isStruct = false
  conforms : ∀ v ∈ choices, v.Conforms f.type

/-- The choices, if there are any, are such that the field may have them. -/
def ChoicesSound (f : Field) : Prop := ∀ choices, f.choices = some choices → f.MayOffer choices

theorem Bare.choicesSound {f : Field} (h : f.Bare) : f.ChoicesSound := by
  intro choices hchoices
  rw [h.2] at hchoices
  cases hchoices

end Field

/-- What fits the scalar type conforms to a type that is not an array's. -/
theorem Value.Fits.conforms {type : FieldType} {v : Value} (h : v.Fits type.scalar)
    (hsingle : type.array = false) : v.Conforms type := by
  obtain ⟨scalar, array⟩ := type
  subst hsingle
  rcases h with rfl | hv
  · exact .null _
  · exact .single hv

/-- A list that is read for a field has choices that the field may have. -/
theorem Reader.mayOffer_of_readChoices {r : Reader} {token : List Char} {f : Field}
    {choices : List Value} (h : r.readChoices token f = .ok choices) : f.MayOffer choices := by
  unfold readChoices at h
  simp only at h
  split at h
  · cases h
  · next hsingle =>
    have hsingle : f.type.array = false := Bool.eq_false_iff.mpr hsingle
    split at h
    · cases h
    · next hscalar =>
      split at h
      · cases h
      · split at h
        · cases h
        · cases h
        · next items hne hitems =>
          cases h
          constructor
          case nonempty =>
            rintro rfl
            exact hne rfl
          case single => exact hsingle
          case builtIn => exact Bool.eq_false_iff.mpr hscalar
          case conforms =>
            intro v hv
            exact (fits_of_readElements hitems v hv).conforms hsingle

namespace Field

/-- A line keeps choices that it does not give, and gives only such as the field may have. -/
theorem Drafted.choicesSound {old : Option Field} {g : Field} (h : Drafted old g)
    (hold : ∀ f, old = some f → f.ChoicesSound) : g.ChoicesSound := by
  intro choices hchoices
  cases h with
  | bare hbare => exact hbare.choicesSound choices hchoices
  | default f hbase _ =>
      -- the type is that of `f`
      have hsound : f.MayOffer choices := by
        rcases hbase with hbare | hf
        · exact hbare.choicesSound choices hchoices
        · exact hold f hf choices hchoices
      exact ⟨hsound.nonempty, hsound.single, hsound.builtIn, hsound.conforms⟩
  | choices f _ hread =>
      cases hchoices
      have hsound := Reader.mayOffer_of_readChoices hread
      exact ⟨hsound.nonempty, hsound.single, hsound.builtIn, hsound.conforms⟩

end Field

/-- After every line the choices of a field are such that the field may have them. -/
theorem Builder.choicesSound_fieldsOf {lines : List LogicalLine} {b : Builder}
    (h : start.run lines = .ok b) (struct : String) :
    ∀ f ∈ b.document.fieldsOf struct, f.ChoicesSound := by
  refine fieldsOf_induction (P := fun fields => ∀ f ∈ fields, f.ChoicesSound) ?_ ?_ h struct
  · intro f hf
    cases hf
  · intro fields g hfields hg f hf
    rcases Table.eq_or_mem_of_mem_placeField hf with rfl | hf
    · apply hg.choicesSound
      intro f' hf'
      exact hfields f' (List.mem_of_find?_eq_some hf')
    · exact hfields f hf

/-! ## Structs -/

/-- The fields and the key of a struct are as declarations leave them, and what the fields hold is
of their types. -/
structure Table.DeclaredBy (declared : List (String × Bool)) (t : Table) : Prop where
  distinct : t.fieldNames.Nodup
  /-- Fields stand in the order of their first declaration. -/
  order : t.fieldNames = (declared.map Prod.fst).eraseDups
  key : ∀ name, t.key = some name → name ∈ t.fieldNames
  defaults : ∀ f ∈ t.fields, f.Sound
  choices : ∀ f ∈ t.fields, f.ChoicesSound

namespace Document

variable {d : Document} {lines : List LogicalLine}

/-- Every struct of the document is declared by the lines under its headers. -/
def DeclaredBy (lines : List LogicalLine) (d : Document) : Prop :=
  ∀ struct t, d.table? struct = some t → t.DeclaredBy (declarations lines struct)

theorem declaredBy_of_changesTo
    (hchanges : ∀ struct, ChangesTo (declarations lines struct) struct .empty d)
    (hdefaults : ∀ struct, ∀ f ∈ d.fieldsOf struct, f.Sound)
    (hchoices : ∀ struct, ∀ f ∈ d.fieldsOf struct, f.ChoicesSound) : d.DeclaredBy lines := by
  intro struct t ht
  have hmarked : t.MarkedBy (declarations lines struct) := (hchanges struct).markedBy ht
  have hfields : d.fieldsOf struct = t.fields := fieldsOf_of_table? ht
  constructor
  case distinct => exact hmarked.nodup_fieldNames
  case order => exact hmarked.names
  case key => exact fun name => hmarked.mem_fieldNames_of_key
  case defaults => exact hfields ▸ hdefaults struct
  case choices => exact hfields ▸ hchoices struct

/-- After every line the structs are those that the lines so far declare. -/
theorem declaredBy_of_run {b : Builder} (h : Builder.start.run lines = .ok b) :
    b.document.DeclaredBy lines :=
  declaredBy_of_changesTo (Builder.changesTo_of_run h) (Builder.sound_fieldsOf h)
    (Builder.choicesSound_fieldsOf h)

/-- Completing the last row changes no declaration. -/
theorem declaredBy_of_ofLines (h : ofLines lines = .ok d) : d.DeclaredBy lines := by
  obtain ⟨b, hrun, hfields⟩ := exists_run_of_ofLines h
  apply declaredBy_of_changesTo (changesTo_of_ofLines h)
  · intro struct
    rw [hfields]
    exact Builder.sound_fieldsOf hrun struct
  · intro struct
    rw [hfields]
    exact Builder.choicesSound_fieldsOf hrun struct

end Document

/-- The lines of a document that is read are read up to each of them. -/
theorem Builder.exists_run_take {lines : List LogicalLine} {b : Builder} (h : start.run lines = .ok b)
    (n : Nat) : ∃ before, start.run (lines.take n) = .ok before := by
  rw [← List.take_append_drop n lines, run_append, bind_eq_ok_iff] at h
  obtain ⟨before, hbefore, -⟩ := h
  exact ⟨before, hbefore⟩

/-- In a document that is read, and after every line on the way, the fields of every struct have
different names, in the order of their first declaration, the key is one of them, their defaults and
choices conform to the types that they have then, and choices, at least one, are for fields that are
neither arrays nor of a struct. -/
theorem declaredBy_of_readDocument {s : Sources} {input : Input} {d : Document}
    (h : readDocument s input = .ok d) :
    ∃ physical lines, input.lines s = .ok physical ∧ assemble physical = .ok lines ∧
      d.DeclaredBy lines ∧
      ∀ n, ∃ b, Builder.start.run (lines.take n) = .ok b ∧
        b.document.DeclaredBy (lines.take n) := by
  obtain ⟨physical, lines, hphysical, hlines, hd⟩ := readDocument_eq_ok_iff.mp h
  obtain ⟨b, hrun, -⟩ := Document.exists_run_of_ofLines hd
  refine ⟨physical, lines, hphysical, hlines, Document.declaredBy_of_ofLines hd, ?_⟩
  intro n
  obtain ⟨before, hbefore⟩ := Builder.exists_run_take hrun n
  exact ⟨before, hbefore, Document.declaredBy_of_run hbefore⟩

/-- A struct that is opened again; a field of it is declared again, another one is cleared. -/
def redeclaringText : String :=
  "Host:\n  *str name: a\n  str role: (a, b)\nPort:\n  int number: 80\n" ++
    "Host:\n  role: b\n  name:\n  int role:\n  role: (1, 2)\n"

/-- The structs of `redeclaringText`. -/
def redeclaredDocument : Document :=
  ⟨[], [("Host", ⟨"Host", [{ Field.ofType "name" ⟨.str, false⟩ with isKey := true },
      { Field.ofType "role" ⟨.int, false⟩ with choices := some [.int 1, .int 2] }],
      some "name", [], []⟩),
    ("Port", ⟨"Port", [{ Field.ofType "number" ⟨.int, false⟩ with default := some (.int 80) }],
      none, [], []⟩)]⟩

theorem declaredBy_of_readDocument_redeclaring :
    readDocument .empty (.text "/" redeclaringText) = .ok redeclaredDocument ∧
      ∃ physical lines, (Input.text "/" redeclaringText).lines .empty = .ok physical ∧
        assemble physical = .ok lines ∧ redeclaredDocument.DeclaredBy lines ∧
        ∀ n, ∃ b, Builder.start.run (lines.take n) = .ok b ∧
          b.document.DeclaredBy (lines.take n) := by
  have hread : readDocument .empty (.text "/" redeclaringText) = .ok redeclaredDocument := by
    decide +kernel
  exact ⟨hread, declaredBy_of_readDocument hread⟩

end RowConfig
