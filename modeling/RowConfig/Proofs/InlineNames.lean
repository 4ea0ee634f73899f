import RowConfig.Proofs.Binding.Typed
import RowConfig.Proofs.InlineRows
import RowConfig.Proofs.KeptArguments

/-!
# Where the arguments of a call go

A call keeps its arguments as texts under their names, the positional ones under names made from
their positions, and binding takes every name of this form for a position again. An argument
therefore goes to the field at the position for which its key stands, and to the field of its own
name only if the key stands for none (`Reader.lands_of_readCall`). The argument gets there unless
another name leads to the same field.
-/

namespace RowConfig

open Binding Chars Value

/-! ## Where they go -/

namespace Binding

variable {tables : Entries Table} {t : Table} {f g : Field} {key : String} {count : Nat}
  {before after arguments typed typed' : Entries Value} {v : Value} {r : Reader} {fault : Fault}

theorem mem_fields_of_argumentField? (h : t.argumentField? key = some f) : f ∈ t.fields := by
  have hfield : fieldFor t 0 key = .ok f := fieldFor_eq_ok_iff.mpr h
  exact mem_fields_of_fieldFor hfield

/-- A key leads to the field at the position that it stands for, or to the field of its name. -/
theorem eq_of_argumentField? (h : t.argumentField? key = some f) :
    (position? key = none → f.name = key) ∧ ∀ i, position? key = some i → t.fields[i]? = some f := by
  unfold Table.argumentField? at h
  split at h
  · next i hi =>
    rw [hi]
    exact ⟨nofun, fun _ heq => Option.some.inj heq ▸ h⟩
  · next hnone =>
    rw [hnone]
    have hfound := List.find?_some h
    exact ⟨fun _ => beq_iff_eq.mp hfound, nofun⟩

/-- The last argument that leads to a field is the one for it. -/
theorem argument?_append (hkey : t.argumentField? key = some f)
    (hafter : ∀ e ∈ after, ∀ g, t.argumentField? e.1 = some g → g.name ≠ f.name) :
    t.argument? (before ++ (key, v) :: after) f.name = some v := by
  induction before with
  | nil =>
      have hnone : t.argument? after f.name = none := by
        rw [Table.argument?, Option.map_eq_none_iff, List.find?_eq_none]
        intro e he hleads
        cases hg : t.argumentField? e.1 with
        | none =>
            rw [hg] at hleads
            cases hleads
        | some g =>
            rw [hg] at hleads
            exact hafter e (List.mem_reverse.mp he) g hg (beq_iff_eq.mp hleads)
      rw [List.nil_append, argument?_cons, hnone, hkey]
      simp
  | cons e before ih => rw [List.cons_append, argument?_cons, ih, Option.some_or]

/-- Names made from different positions lead to different fields. -/
theorem argumentField?_position_ne (hfields : t.fieldNames.Nodup) {i j : Nat} (hi : i < positionBound)
    (hj : j < positionBound) (hne : i ≠ j) (hf : t.argumentField? ("_arg" ++ toString i) = some f)
    (hg : t.argumentField? ("_arg" ++ toString j) = some g) : f.name ≠ g.name := by
  have hfield : ∀ {k : Nat} {f : Field}, k < positionBound →
      t.argumentField? ("_arg" ++ toString k) = some f → t.fieldNames[k]? = some f.name := by
    intro k f hk hf
    unfold Table.argumentField? at hf
    rw [position?_of_position hk] at hf
    have hf : t.fields[k]? = some f := hf
    rw [Table.fieldNames, List.getElem?_map, hf]
    rfl
  intro heq
  have hi := hfield hi hf
  have hlt : i < t.fieldNames.length := by
    by_contra hle
    rw [List.getElem?_eq_none (by omega)] at hi
    cases hi
  exact hne ((List.getElem?_inj hlt hfields).mp (by rw [hi, hfield hj hg, heq]))

/-- Typing succeeds only if every argument leads to a field. -/
theorem exists_argumentField?_of_typeArguments
    (h : typeArguments r t count typed arguments = .ok typed') :
    ∀ e ∈ arguments, ∃ f, t.argumentField? e.1 = some f := by
  induction arguments generalizing typed with
  | nil => nofun
  | cons argument arguments ih =>
      rw [typeArguments] at h
      split at h
      · cases h
      · next field hfield =>
        split at h
        · cases h
        · exact List.forall_mem_cons.mpr ⟨⟨field, fieldFor_eq_ok_iff.mp hfield⟩, ih h⟩

theorem exists_argumentField?_of_bindWithin {depth : Nat} {path : List String} {row row' : Instance}
    {place : Location} (ht : Entries.get? tables row.struct = some t) (hcall : row.call = some place)
    (h : bindWithin tables depth path row = .ok row') :
    ∀ e ∈ row.fields, ∃ f, t.argumentField? e.1 = some f := by
  cases depth with
  | zero => cases h
  | succ depth =>
      obtain ⟨arranged, -, harranged, -, -⟩ := bindWithin_succ_eq_ok_iff.mp h
      rw [arrangeInstance_of_call ht hcall] at harranged
      obtain ⟨typed, htyped, -⟩ := map_eq_ok_iff.mp harranged
      obtain ⟨count, -, htyped⟩ := typeCall_eq_ok_iff.mp htyped
      exact exists_argumentField?_of_typeArguments htyped

/-- The argument is at fault: it leads to no field, or it cannot be read at its field. -/
def FaultOf (r : Reader) (t : Table) (count : Nat) (argument : String × Value) (fault : Fault) :
    Prop :=
  fieldFor t count argument.1 = .error fault ∨ ∃ field, fieldFor t count argument.1 = .ok field ∧
    r.readFor argument.2.render.toList field = .error fault

/-- An argument that is at fault is the cause of the fault, or one before it is. -/
theorem faultOf_of_typeArguments {argument : String × Value}
    (h : typeArguments r t count typed (before ++ argument :: after) = .error fault)
    {cause : Fault} (hcause : fieldFor t count argument.1 = .error cause) :
    fault = cause ∨ ∃ e ∈ before, FaultOf r t count e fault := by
  induction before generalizing typed with
  | nil =>
      rw [List.nil_append, typeArguments, hcause] at h
      cases h
      exact .inl rfl
  | cons e before ih =>
      rw [List.cons_append, typeArguments] at h
      split at h
      · next e' hfield =>
        cases h
        exact .inr ⟨e, List.mem_cons_self, .inl hfield⟩
      · next field hfield =>
        split at h
        · next e' hread =>
          cases h
          exact .inr ⟨e, List.mem_cons_self, .inr ⟨field, hfield, hread⟩⟩
        · rcases ih h with hcause | ⟨e', he', hfault⟩
          · exact .inl hcause
          · exact .inr ⟨e', List.mem_cons_of_mem _ he', hfault⟩

/-- The fault of a call with an argument whose key leads to no field: the name of the field is
unknown, or there is no field for the position, unless an argument that is kept before has a
fault. -/
inductive StrayFault (r : Reader) (t : Table) (count : Nat) (before : Entries Value) (key : String) :
    Fault → Prop
  | unknown : position? key = none → StrayFault r t count before key (t.unknownField key)
  | surplus {i : Nat} : position? key = some i → t.fields.length ≤ i → i < count →
      StrayFault r t count before key (.tooManyArguments t.name count t.fields.length)
  | earlier {e : String × Value} {fault : Fault} : e ∈ before → FaultOf r t count e fault →
      StrayFault r t count before key fault

theorem exists_strayFault (hfield : t.argumentField? key = none)
    (hcount : ∀ i, position? key = some i → i < count) :
    ∃ fault, fieldFor t count key = .error fault ∧ StrayFault r t count before key fault := by
  unfold Table.argumentField? at hfield
  unfold fieldFor
  cases hposition : position? key with
  | none =>
      simp only [hposition] at hfield ⊢
      rw [hfield]
      exact ⟨_, rfl, .unknown hposition⟩
  | some i =>
      simp only [hposition] at hfield ⊢
      rw [hfield]
      exact ⟨_, rfl, .surplus hposition (List.getElem?_eq_none_iff.mp hfield) (hcount i hposition)⟩

section Calls

variable {struct : String} {place : Location} {depth : Nat} {path : List String} {row' : Instance}
  {token : List Char}

/-- The last argument for a field is read there. -/
theorem exists_readFor_of_bindWithin (ht : Entries.get? tables struct = some t)
    (hfields : t.fieldNames.Nodup)
    (h : bindWithin tables depth path ⟨struct, arguments, some place⟩ = .ok row') (hf : f ∈ t.fields)
    (hlast : t.argument? arguments f.name = some (keptText token)) :
    ∃ v w, (Reader.mk tables place).readFor token f = .ok v ∧ Binds tables v w ∧
      row'.get? f.name = some w := by
  obtain ⟨v, w, hfills, hvw, hw⟩ := exists_fills_of_bindWithin ht hfields h hf
  refine ⟨v, w, ?_, hvw, hw⟩
  cases hfills with
  | present hcall _ => cases hcall
  | typed hcall hargument hread =>
      rw [hlast] at hargument
      cases hargument
      cases hcall
      have htoken : (keptText token).render.toList = token := String.toList_ofList
      rwa [htoken] at hread
  | absent _ hargument =>
      rw [hlast] at hargument
      cases hargument rfl

/-- A call with an argument that leads to no field is not bound. -/
theorem exists_fault_of_bindWithin (ht : Entries.get? tables struct = some t)
    (hfield : t.argumentField? key = none) :
    ∃ fault, bindWithin tables (depth + 1) path ⟨struct, before ++ (key, v) :: after, some place⟩ =
      .error fault ∧
        ((fault = .overflow ∧ NamesLast (Entries.names (before ++ (key, v) :: after))) ∨
          ∃ count, countPositions (Entries.names (before ++ (key, v) :: after)) = .ok count ∧
            StrayFault ⟨tables, place⟩ t count before key fault) := by
  rw [bindWithin_call ht]
  cases htyped : typeCall ⟨tables, place⟩ t (before ++ (key, v) :: after) with
  | ok typed =>
      -- every argument would lead to a field
      obtain ⟨count, -, htyped⟩ := typeCall_eq_ok_iff.mp htyped
      obtain ⟨f, hleads⟩ := exists_argumentField?_of_typeArguments htyped (key, v)
        (List.mem_append_right _ List.mem_cons_self)
      rw [hfield] at hleads
      cases hleads
  | error fault =>
      refine ⟨fault, rfl, ?_⟩
      rcases typeCall_eq_error_iff.mp htyped with hcount | ⟨count, hcount, htyped⟩
      · exact .inl (countPositions_eq_error_iff.mp hcount)
      · have hkey : key ∈ Entries.names (before ++ (key, v) :: after) :=
          Entries.mem_names_of_mem (List.mem_append_right _ List.mem_cons_self)
        obtain ⟨cause, hcause, hstray⟩ := exists_strayFault hfield
          fun i hi => lt_count_of_countPositions hcount hkey hi
        rcases faultOf_of_typeArguments htyped hcause with rfl | ⟨e, he, hfault⟩
        · exact .inr ⟨count, hcount, hstray⟩
        · exact .inr ⟨count, hcount, .earlier he hfault⟩

end Calls

end Binding

namespace Reader

variable {r : Reader} {s arguments : Span} {struct key : String} {name token : List Char}
  {row : Instance} {tables : Entries Table} {t : Table}

/-- A call that is read as an inline row keeps its arguments. -/
theorem collectArguments_of_readCall (hread : r.readCall s struct = .ok (.instance row))
    (hsplit : splitCall? s = some (name, arguments)) :
    ∃ fields, row = ⟨struct, fields, some (r.place s)⟩ ∧
      collectArguments struct 0 [] false arguments.arguments = .ok fields := by
  obtain ⟨name', arguments', fields, hsplit', -, hrow, hcollect⟩ := exists_of_readCall hread
  rw [hsplit] at hsplit'
  cases hsplit'
  exact ⟨fields, hrow, hcollect⟩

/-- An argument of a call, named or positional, goes to the field at the position for which its key
stands, and to the field of its name only if the key stands for none. There its text is read, unless
another name in the call leads to the same field. Without such a field the call is not bound, and
the fault is that of this argument or of one that is kept before it, if the positions can be
counted: they cannot if a name that is given stands for the last position of all. -/
theorem lands_of_readCall (hread : r.readCall s struct = .ok (.instance row))
    (hsplit : splitCall? s = some (name, arguments))
    (hlength : arguments.text.length < positionBound)
    (hkeeps : KeepsArgument (Scan.start.pieces ',' arguments.text) key token)
    (ht : Entries.get? tables struct = some t) (hfields : t.fieldNames.Nodup) :
    (∀ depth path row', bindWithin tables depth path row = .ok row' →
      ∃ f ∈ t.fields, (position? key = none → f.name = key) ∧
        (∀ i, position? key = some i → t.fields[i]? = some f) ∧
        ((∀ m ∈ argumentNames arguments.text, m ≠ key → t.argumentField? m ≠ some f) →
          ∃ v w, (Reader.mk tables (r.place s)).readFor token f = .ok v ∧ Binds tables v w ∧
            row'.get? f.name = some w)) ∧
      (t.argumentField? key = none → ∃ before after,
        row.fields = before ++ (key, keptText token) :: after ∧
          ∀ depth path, ∃ fault, bindWithin tables (depth + 1) path row = .error fault ∧
            ((fault = .overflow ∧ NamesLast (argumentNames arguments.text)) ∨
              ∃ count, countPositions (Entries.names row.fields) = .ok count ∧
                StrayFault ⟨tables, r.place s⟩ t count before key fault)) := by
  obtain ⟨fields, rfl, hcollect⟩ := collectArguments_of_readCall hread hsplit
  have hpieces : arguments.arguments.map Span.text = Scan.start.pieces ',' arguments.text :=
    map_text_place _ _
  have hbound : arguments.arguments.length ≤ positionBound := by
    have hle := Scan.length_pieces_le ',' Scan.start arguments.text
    rw [← hpieces, List.length_map] at hle
    omega
  rw [← hpieces] at hkeeps
  obtain ⟨before, after, rfl, hafter⟩ := exists_append_of_keepsArgument hcollect hbound hkeeps
  rw [hpieces] at hafter
  refine ⟨fun depth path row' hbind => ?_, fun hfield => ⟨before, after, rfl, fun depth path => ?_⟩⟩
  · obtain ⟨f, hleads⟩ := exists_argumentField?_of_bindWithin ht rfl hbind
      (key, keptText token) (List.mem_append_right _ List.mem_cons_self)
    have hf := mem_fields_of_argumentField? hleads
    obtain ⟨hname, hposition⟩ := eq_of_argumentField? hleads
    refine ⟨f, hf, hname, hposition, fun halone => ?_⟩
    have hlast : t.argument? (before ++ (key, keptText token) :: after) f.name =
        some (keptText token) := by
      refine argument?_append hleads fun e he g hg hname => ?_
      obtain ⟨hne, hgiven | ⟨i, hi, j, hj, heq, hkey⟩⟩ := hafter e he
      · have hgf : g = f :=
          List.inj_on_of_nodup_map hfields (mem_fields_of_argumentField? hg) hf hname
        exact halone e.1 hgiven hne (hgf ▸ hg)
      · -- both are positions, and not the same
        rw [heq, hkey] at hne
        rw [heq] at hg
        rw [hkey] at hleads
        have hij : i ≠ j := by
          rintro rfl
          exact hne rfl
        exact argumentField?_position_ne hfields hi hj hij hg hleads hname
    exact exists_readFor_of_bindWithin ht hfields hbind hf hlast
  · obtain ⟨fault, hbind, hfault⟩ := exists_fault_of_bindWithin ht hfield
    refine ⟨fault, hbind, hfault.imp_left fun ⟨hoverflow, hlast⟩ => ⟨hoverflow, ?_⟩⟩
    exact (namesLast_of_collectArguments hcollect hlast).resolve_right (by omega)

/-- A call with one argument at a position and one with a name. -/
def pointCall : Span := ⟨"Point(1, y: 2)".toList, 0⟩

/-- The arguments of the call. -/
def pointArguments : Span := ⟨"1, y: 2".toList, 6⟩

/-- The row that the call is read as. -/
def pointRow : Instance :=
  ⟨"Point", [("_arg0", .text (.plain "1")), ("y", .text (.plain "2"))], some ⟨none, 1, 1, 14, ""⟩⟩

def pointTable : Table :=
  ⟨"Point", [.ofType "x" ⟨.int, false⟩, .ofType "y" ⟨.int, false⟩], none, [], []⟩

def pointReader : Reader := ⟨[("Point", pointTable)], ⟨none, 1, 1, 14, ""⟩⟩

/-- A call with the name made from a position that the struct has no field for. -/
def strayCall : Span := ⟨"Point(_arg5: 2)".toList, 0⟩

/-- The argument of the call. -/
def strayArguments : Span := ⟨"_arg5: 2".toList, 6⟩

/-- The row that the call is read as. -/
def strayRow : Instance :=
  ⟨"Point", [("_arg5", .text (.plain "2"))], some ⟨none, 1, 1, 15, ""⟩⟩

/-- The named argument of the first call goes to its field, and that of the second, which stands for
the sixth position, is one too many. -/
theorem lands_of_readCall_point :
    (pointReader.readCall pointCall "Point" = .ok (.instance pointRow) ∧
      splitCall? pointCall = some ("Point".toList, pointArguments) ∧
      pointArguments.text.length < positionBound ∧
      KeepsArgument (Scan.start.pieces ',' pointArguments.text) "y" ['2'] ∧
      pointTable.fieldNames.Nodup ∧
      (∃ row', bindWithin pointReader.tables 1 [] pointRow = .ok row') ∧
      ∀ depth path row', bindWithin pointReader.tables depth path pointRow = .ok row' →
        ∃ f ∈ pointTable.fields, f.name = "y" ∧ ∃ v w,
          pointReader.readFor ['2'] f = .ok v ∧ Binds pointReader.tables v w ∧
            row'.get? f.name = some w) ∧
    pointReader.readCall strayCall "Point" = .ok (.instance strayRow) ∧
      splitCall? strayCall = some ("Point".toList, strayArguments) ∧
      strayArguments.text.length < positionBound ∧
      KeepsArgument (Scan.start.pieces ',' strayArguments.text) "_arg5" ['2'] ∧
      pointTable.argumentField? "_arg5" = none ∧
      ∀ depth path, bindWithin pointReader.tables (depth + 1) path strayRow =
        .error (.tooManyArguments "Point" 6 2) := by
  have hread : pointReader.readCall pointCall "Point" = .ok (.instance pointRow) := by rfl
  have hsplit : splitCall? pointCall = some ("Point".toList, pointArguments) := by rfl
  have hlength : pointArguments.text.length < positionBound := by decide
  have hkeeps : KeepsArgument (Scan.start.pieces ',' pointArguments.text) "y" ['2'] :=
    ⟨[['1']], " y: 2".toList, [], rfl, rfl, rfl, nofun⟩
  have ht : Entries.get? pointReader.tables "Point" = some pointTable := by rfl
  have hfields : pointTable.fieldNames.Nodup := by decide
  have hread' : pointReader.readCall strayCall "Point" = .ok (.instance strayRow) := by rfl
  have hsplit' : splitCall? strayCall = some ("Point".toList, strayArguments) := by rfl
  have hlength' : strayArguments.text.length < positionBound := by decide
  have hkeeps' : KeepsArgument (Scan.start.pieces ',' strayArguments.text) "_arg5" ['2'] :=
    ⟨[], "_arg5: 2".toList, [], rfl, rfl, rfl, nofun⟩
  refine ⟨⟨hread, hsplit, hlength, hkeeps, hfields, ⟨_, rfl⟩, fun depth path row' hbind => ?_⟩,
    hread', hsplit', hlength', hkeeps', rfl, fun depth path => ?_⟩
  · obtain ⟨f, hf, hname, -, hlands⟩ :=
      (lands_of_readCall hread hsplit hlength hkeeps ht hfields).1 depth path row' hbind
    refine ⟨f, hf, hname rfl, hlands fun m hm hne => ?_⟩
    have hnames : argumentNames pointArguments.text = ["y"] := by decide
    rw [hnames] at hm
    exact absurd (List.mem_singleton.mp hm) hne
  · obtain ⟨before, after, hrow, hstray⟩ :=
      (lands_of_readCall hread' hsplit' hlength' hkeeps' ht hfields).2 rfl
    obtain ⟨fault, hbind, ⟨-, hlast⟩ | ⟨count, hcount, hfault⟩⟩ := hstray depth path
    · obtain ⟨name, hname, hposition⟩ := hlast
      have hnames : argumentNames strayArguments.text = ["_arg5"] := by decide
      rw [hnames, List.mem_singleton] at hname
      rw [hname] at hposition
      exact absurd hposition (by decide)
    · have hsix : countPositions (Entries.names strayRow.fields) = .ok 6 := by rfl
      rw [hsix] at hcount
      cases hcount
      rw [hbind]
      cases hfault with
      | unknown hnone => exact absurd hnone (by decide)
      | surplus => rfl
      | earlier he =>
          obtain ⟨rfl, -⟩ | ⟨rest, rfl, hrest⟩ := List.cons_eq_append_iff.mp hrow
          · cases he
          · exact absurd hrest (by simp)

end Reader

/-- A struct with one field, and a call that gives its argument the name made from a position. -/
def misnamedText : String := "P:\n  str x:\nP g: P(_arg0: \"a\")\n"

/-- The struct has no field of the name, and its field gets the value. -/
theorem compile_misnamedText : ∃ d t, compile .empty (.text "/" misnamedText) = .ok d ∧
    d.table? "P" = some t ∧ t.key = none ∧ t.field? "_arg0" = none ∧
    d.global? "g" = some (.instance (.ofFields "P" [("x", .text (.plain "a"))])) := by
  have hcompile : compile .empty (.text "/" misnamedText) =
      .ok ⟨[("g", .instance (.ofFields "P" [("x", .text (.plain "a"))]))],
        [("P", ⟨"P", [.ofType "x" ⟨.str, false⟩], none, [], []⟩)]⟩ := by
    decide +kernel
  exact ⟨_, _, hcompile, rfl, rfl, rfl, rfl⟩

end RowConfig
