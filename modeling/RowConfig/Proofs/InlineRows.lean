import Mathlib
import RowConfig.Proofs.Agreement
import RowConfig.Proofs.Binding
import RowConfig.Proofs.GlobalLines
import RowConfig.Proofs.KeptArguments
import RowConfig.Proofs.Rows

/-!
# Rows and inline calls

A row on a line of its own types its arguments one by one as it is read; an inline call keeps them
as texts under names, own names or names made from positions, and types them when it is bound. Both
come to the same (`RowText.agree_call`): the texts that a call keeps are listed by `keptArguments`,
and reading a row does to the pieces of its text what typing does to that list
(`agree_typeArguments`). Values that differ only in the places their calls remember are bound to
equal ones (`agree_mapInstances`).
-/

namespace RowConfig

open Binding Chars Value

/-! ## Typing the arguments -/

section Typing

variable {tables : Entries Table} {t : Table} {n : Nat} {place : Location}
  {typed : Entries Value} {kept : Except Fault (Entries Value)} {name : String}

theorem typeArguments_cons (r : Reader) (t : Table) (n : Nat) (typed : Entries Value)
    (name : String) (token : Value) (more : Entries Value) :
    typeArguments r t n typed ((name, token) :: more) =
      (fieldFor t n name).bind fun field =>
        (r.readFor token.render.toList field).bind fun v =>
          typeArguments r t n (Entries.insert field.name v typed) more := by
  rw [typeArguments]
  cases fieldFor t n name with
  | error e => rfl
  | ok field =>
      simp only [Except.bind]
      cases r.readFor token.render.toList field <;> rfl

theorem bind_map_typeArguments (r : Reader) (e : String × Value) :
    (kept.map (e :: ·)).bind (typeArguments r t n typed) =
      kept.bind fun es => typeArguments r t n typed (e :: es) := by
  cases kept <;> rfl

/-- A row and a call read an argument for the same field alike, if they go on alike. -/
theorem agree_argument {R : Entries Value → Entries Value → Prop} {field : Field} {at_ : Location}
    {token : List Char} {readMore : Value → Except Fault (Entries Value)}
    (hfield : fieldFor t n name = .ok field)
    (hmore : ∀ v w, Alike (Entries.names tables) v w → Agree R (readMore v)
      (kept.bind (typeArguments ⟨tables, place⟩ t n (Entries.insert field.name w typed)))) :
    Agree R
      (match (Reader.mk tables at_).readFor token field with
        | .error e => .error e
        | .ok v => readMore v)
      ((kept.map ((name, .text (.plain (String.ofList token))) :: ·)).bind
        (typeArguments ⟨tables, place⟩ t n typed)) := by
  have hread := Reader.agree_readFor ⟨tables, at_⟩ ⟨tables, place⟩ rfl token field
  have htoken : (Value.text (.plain (String.ofList token))).render.toList = token :=
    String.toList_ofList
  rw [bind_map_typeArguments]
  simp only [typeArguments, hfield, htoken]
  cases hv : (Reader.mk tables at_).readFor token field with
  | error e =>
      obtain ⟨e', he'⟩ := hread.exists_error hv
      rw [he']
      cases kept <;> exact .error _ _
  | ok v =>
      obtain ⟨w, hw, hvw⟩ := hread.exists_right hv
      rw [hw]
      exact hmore v w hvw

/-- An argument for no field fails in a row and in a call. -/
theorem agree_fault {R : Entries Value → Entries Value → Prop} {e e' : Fault} {v : Value}
    (hfield : fieldFor t n name = .error e') :
    Agree R (.error e)
      ((kept.map ((name, v) :: ·)).bind (typeArguments ⟨tables, place⟩ t n typed)) := by
  rw [bind_map_typeArguments]
  simp only [typeArguments, hfield]
  cases kept <;> exact .error _ _

/-- Reading a row types its arguments as binding types the arguments that a call keeps. -/
theorem agree_typeArguments {r : RowText} {count position : Nat} {named : Bool}
    {fields : Entries Value} {pieces : List (List Char)} (start : Nat)
    (hbound : position + pieces.length ≤ positionBound)
    (hgiven : ∀ name ∈ givenNames pieces, ¬ IsPositional name)
    (hfields : Entries.Pointwise (Alike (Entries.names tables)) fields typed) :
    Agree (Entries.Pointwise (Alike (Entries.names tables)))
      (readRow tables t r count position named fields (placePieces ',' start pieces))
      ((keptArguments t.name position named pieces).bind
        (typeArguments ⟨tables, place⟩ t n typed)) := by
  induction pieces generalizing position named start fields typed with
  | nil => exact .ok hfields
  | cons piece pieces ih =>
      rw [List.length_cons] at hbound
      have hmore : ∀ name ∈ givenNames pieces, ¬ IsPositional name :=
        fun name hname => hgiven name (givenNames_subset_cons piece pieces hname)
      rw [placePieces, readRow, keptArguments]
      cases hempty : (trim piece).isEmpty with
      | true =>
          simp only [if_true]
          exact ih _ (by omega) hmore hfields
      | false =>
          simp only [Bool.false_eq_true, if_false]
          unfold assignArgument
          cases hsplit : splitNamed? (trim piece) with
          | some a =>
              -- the name that is given is that of the field in either case
              have hname : position? (String.ofList a.name) = none := by
                refine position?_of_mem_givenNames hgiven ?_
                rw [givenNames_cons, hsplit]
                exact List.mem_cons_self
              simp only
              cases hfield : t.field? (String.ofList a.name) with
              | none =>
                  have hfault : fieldFor t n (String.ofList a.name) =
                      .error (t.unknownField (String.ofList a.name)) := by
                    simp only [fieldFor, hname, hfield]
                  exact agree_fault hfault
              | some field =>
                  have hfor : fieldFor t n (String.ofList a.name) = .ok field := by
                    simp only [fieldFor, hname, hfield]
                  exact agree_argument hfor fun v w hvw =>
                    ih _ (by omega) hmore (hfields.insert field.name hvw)
          | none =>
              cases named with
              | true => exact .error _ _
              | false =>
                  -- the name made from the position leads back to it
                  have hname := position?_of_position (i := position) (by omega)
                  simp only [Bool.false_eq_true, if_false]
                  cases hfield : t.fields[position]? with
                  | none =>
                      have hfault : fieldFor t n ("_arg" ++ toString position) =
                          .error (.tooManyArguments t.name n t.fields.length) := by
                        simp only [fieldFor, hname, hfield]
                      exact agree_fault hfault
                  | some field =>
                      have hfor : fieldFor t n ("_arg" ++ toString position) = .ok field := by
                        simp only [fieldFor, hname, hfield]
                      exact agree_argument hfor fun v w hvw =>
                        ih _ (by omega) hmore (hfields.insert field.name hvw)

end Typing

/-! ## Binding alike values -/

section Passes

variable {α β : Type} {f g : α → Except Fault β}

theorem mapItems_cons (bind : Instance → Except Fault Instance) (v : Value) (vs : List Value) :
    mapItems bind (v :: vs) =
      (mapInstances bind v).bind fun w => (mapItems bind vs).map (w :: ·) := by
  rw [mapItems]
  cases mapInstances bind v <;> rfl

theorem agree_tryMapValues {es fs : Entries α}
    (h : Entries.Pointwise (fun v w => Agree (· = ·) (f v) (g w)) es fs) :
    Agree (· = ·) (Entries.tryMapValues f es) (Entries.tryMapValues g fs) := by
  induction h with
  | nil => exact .ok rfl
  | @cons e e' es fs hee' _ ih =>
      obtain ⟨name, v⟩ := e
      obtain ⟨name', w⟩ := e'
      obtain ⟨rfl, hvw⟩ := hee'
      rw [Entries.tryMapValues_cons, Entries.tryMapValues_cons]
      refine hvw.bind fun x y hxy => ?_
      rw [hxy]
      exact ih.map fun _ _ hmore => by rw [hmore]

theorem agree_mapItems {bind : Instance → Except Fault Instance} {items items' : List Value}
    (h : List.Forall₂ (fun v w => Agree (· = ·) (mapInstances bind v) (mapInstances bind w))
      items items') : Agree (· = ·) (mapItems bind items) (mapItems bind items') := by
  induction h with
  | nil => exact .ok rfl
  | @cons v w vs ws hvw _ ih =>
      rw [mapItems_cons, mapItems_cons]
      refine hvw.bind fun x y hxy => ?_
      rw [hxy]
      exact ih.map fun _ _ hmore => by rw [hmore]

end Passes

/-- Related values, or their absence on both sides, fill a field with related values. -/
theorem rel_filled {R : Value → Value → Prop} (hrefl : ∀ v, R v v) (default : Option Value)
    {x y : Option Value} (h : Option.Rel R x y) :
    R ((x.orElse fun _ => default).getD .null) ((y.orElse fun _ => default).getD .null) := by
  cases h with
  | none => exact hrefl _
  | some hvw => exact hvw

/-- Arranging keeps a relation that every value has to itself. -/
theorem pointwise_arrange {R : Value → Value → Prop} (hrefl : ∀ v, R v v) (fields : List Field)
    {present present' : Entries Value} (h : Entries.Pointwise R present present') :
    Entries.Pointwise R (arrange fields present) (arrange fields present') := by
  induction fields generalizing present present' with
  | nil => exact h
  | cons f fields ih =>
      exact .cons ⟨rfl, rel_filled hrefl f.default (h.get?_rel f.name)⟩ (ih (h.erase f.name))

section Bind

variable {tables : Entries Table} {t : Table} {structs : List String}

/-- Alike values are bound to the same, if calls at two places are. -/
theorem agree_mapInstances {bind : Instance → Except Fault Instance}
    (hcall : ∀ struct ∈ structs, ∀ arguments place place',
      Agree (· = ·) (bind ⟨struct, arguments, some place⟩) (bind ⟨struct, arguments, some place'⟩))
    {v w : Value} (h : Alike structs v w) :
    Agree (· = ·) (mapInstances bind v) (mapInstances bind w) := by
  induction v using Value.contents_induction generalizing w with
  | step v ih =>
      cases h with
      | leaf _ => exact .refl (fun _ => rfl) _
      | call hstruct _ _ => exact (hcall _ hstruct _ _ _).map fun _ _ heq => by rw [heq]
      | array hitems =>
          exact (agree_mapItems (forall₂_imp_of_mem (fun p hp q hpq => ih p hp hpq) hitems)).map
            fun _ _ heq => by rw [heq]

/-- Binds what the fields of an arranged instance hold. -/
def bindFields (tables : Entries Table) (depth : Nat) (path : List String) (row : Instance) :
    Except Fault Instance :=
  (Entries.tryMapValues (mapInstances (bindWithin tables depth (path ++ [row.struct])))
    row.fields).map fun fields => { row with fields := fields }

theorem bindWithin_succ (depth : Nat) (path : List String) (row : Instance) :
    bindWithin tables (depth + 1) path row =
      (arrangeInstance tables row).bind (bindFields tables depth path) := by
  rw [bindWithin]
  cases arrangeInstance tables row <;> rfl

/-- What is arranged and bound of a row whose fields hold these values. -/
def bindPresent (tables : Entries Table) (t : Table) (depth : Nat) (path : List String)
    (struct : String) (present : Entries Value) : Except Fault Instance :=
  bindFields tables depth path (.ofFields struct (arrange t.fields present))

theorem bindWithin_bound (ht : Entries.get? tables t.name = some t) (depth : Nat)
    (path : List String) (fields : Entries Value) :
    bindWithin tables (depth + 1) path (.ofFields t.name fields) =
      bindPresent tables t depth path t.name fields := by
  rw [bindWithin_succ, arrangeInstance_of_bound ht rfl]
  rfl

theorem bindWithin_call {struct : String} (ht : Entries.get? tables struct = some t) (depth : Nat)
    (path : List String) (arguments : Entries Value) (place : Location) :
    bindWithin tables (depth + 1) path ⟨struct, arguments, some place⟩ =
      (typeCall ⟨tables, place⟩ t arguments).bind (bindPresent tables t depth path struct) := by
  rw [bindWithin_succ, arrangeInstance_of_call ht rfl]
  cases typeCall ⟨tables, place⟩ t arguments <;> rfl

/-- Arguments are typed alike at two places. -/
theorem agree_typeArguments_places (place place' : Location) (n : Nat) (arguments : Entries Value)
    {typed typed' : Entries Value}
    (h : Entries.Pointwise (Alike (Entries.names tables)) typed typed') :
    Agree (Entries.Pointwise (Alike (Entries.names tables)))
      (typeArguments ⟨tables, place⟩ t n typed arguments)
      (typeArguments ⟨tables, place'⟩ t n typed' arguments) := by
  induction arguments generalizing typed typed' with
  | nil => exact .ok h
  | cons argument arguments ih =>
      obtain ⟨name, token⟩ := argument
      rw [typeArguments_cons, typeArguments_cons]
      refine (Agree.refl (fun _ => rfl) (fieldFor t n name)).bind (R := (· = ·)) fun field _ heq => ?_
      subst heq
      have hread := Reader.agree_readFor ⟨tables, place⟩ ⟨tables, place'⟩ rfl
        token.render.toList field
      exact hread.bind fun v w hvw => ih (h.insert field.name hvw)

theorem agree_typeCall (place place' : Location) (arguments : Entries Value) :
    Agree (Entries.Pointwise (Alike (Entries.names tables)))
      (typeCall ⟨tables, place⟩ t arguments) (typeCall ⟨tables, place'⟩ t arguments) := by
  unfold typeCall
  cases countPositions (Entries.names arguments) with
  | error e => exact .error _ _
  | ok count => exact agree_typeArguments_places place place' count arguments .nil

/-- The fields of an arranged row that hold the same values or alike ones are bound to the same, if
calls at two places are. -/
theorem agree_bindFields {depth : Nat} (path : List String) (struct : String)
    (hcall : ∀ path, ∀ struct ∈ Entries.names tables, ∀ arguments place place',
      Agree (· = ·) (bindWithin tables depth path ⟨struct, arguments, some place⟩)
        (bindWithin tables depth path ⟨struct, arguments, some place'⟩))
    {fields fields' : Entries Value}
    (h : Entries.Pointwise (fun v w => v = w ∨ Alike (Entries.names tables) v w) fields fields') :
    Agree (· = ·) (bindFields tables depth path (.ofFields struct fields))
      (bindFields tables depth path (.ofFields struct fields')) := by
  refine (agree_tryMapValues (h.imp_of_mem fun v _ w hvw => ?_)).map fun _ _ heq => by
    rw [heq]
    rfl
  rcases hvw with rfl | halike
  · exact .refl (fun _ => rfl) _
  · exact agree_mapInstances (hcall _) halike

/-- A row is bound from alike values to the same, if calls at two places are. -/
theorem agree_bindPresent {depth : Nat} (path : List String) (struct : String)
    (hcall : ∀ path, ∀ struct ∈ Entries.names tables, ∀ arguments place place',
      Agree (· = ·) (bindWithin tables depth path ⟨struct, arguments, some place⟩)
        (bindWithin tables depth path ⟨struct, arguments, some place'⟩))
    {present present' : Entries Value}
    (h : Entries.Pointwise (Alike (Entries.names tables)) present present') :
    Agree (· = ·) (bindPresent tables t depth path struct present)
      (bindPresent tables t depth path struct present') := by
  -- defaults are filled in on both sides
  have harranged := pointwise_arrange (R := fun v w => v = w ∨ Alike (Entries.names tables) v w)
    (fun _ => .inl rfl) t.fields (h.imp_of_mem fun _ _ _ halike => .inr halike)
  exact agree_bindFields path struct hcall harranged

/-- A call is bound alike at two places. The induction is on the levels left to go. -/
theorem agree_bindWithin (depth : Nat) (path : List String) {struct : String}
    (hstruct : struct ∈ Entries.names tables) (arguments : Entries Value) (place place' : Location) :
    Agree (· = ·) (bindWithin tables depth path ⟨struct, arguments, some place⟩)
      (bindWithin tables depth path ⟨struct, arguments, some place'⟩) := by
  induction depth generalizing path struct arguments place place' with
  | zero => exact .error _ _
  | succ depth ih =>
      obtain ⟨t, ht⟩ := Entries.exists_get?_iff.mpr hstruct
      rw [bindWithin_call ht, bindWithin_call ht]
      refine (agree_typeCall place place' arguments).bind fun _ _ htyped => ?_
      exact agree_bindPresent path struct
        (fun path struct hstruct => ih path hstruct) htyped

end Bind

/-! ## The two ways to write a row -/

variable {tables : Entries Table} {t : Table} {r : RowText}

/-- A row that is read is bound from the values that were read. -/
theorem RowText.bind_read (ht : Entries.get? tables t.name = some t) (r : RowText) :
    (r.read tables t).bind (bindInstance tables) =
      (readRow tables t r (splitTop ',' r.text).length 0 false [] (splitTop ',' r.text)).bind
        (bindPresent tables t (maxDepth - 1) [] t.name) := by
  unfold RowText.read
  simp only
  cases readRow tables t r (splitTop ',' r.text).length 0 false [] (splitTop ',' r.text) with
  | error e => rfl
  | ok fields => exact bindWithin_bound ht (maxDepth - 1) [] fields

/-- A call is bound from its typed arguments. -/
theorem bindValue_call (ht : Entries.get? tables t.name = some t) (arguments : Entries Value)
    (place : Location) :
    bindValue tables (.instance ⟨t.name, arguments, some place⟩) =
      ((typeCall ⟨tables, place⟩ t arguments).bind
        (bindPresent tables t (maxDepth - 1) [] t.name)).map .instance := by
  rw [bindValue, mapInstances]
  exact congrArg (Except.map Value.instance) (bindWithin_call ht (maxDepth - 1) [] arguments place)

/-- A row of a struct without a key and a call of the struct with the same text both fail to be read
and bound, or both make the same instance. No two arguments in the text have one name, and no name
is that of a position; the length of the text, and with it every position, fits a 64-bit word. -/
theorem RowText.agree_call (hname : isIdentifier t.name.toList)
    (ht : Entries.get? tables t.name = some t) (hkey : t.key = none) (hbalanced : isBalanced r.text)
    (hlength : r.text.length < positionBound) (hnodup : (argumentNames r.text).Nodup)
    (hgiven : ∀ name ∈ argumentNames r.text, ¬ IsPositional name) (place : Location) :
    Agree (fun row v => v = .instance row)
      ((r.read tables t).bind (bindInstance tables))
      (((Reader.mk tables place).read (bracketed t.name.toList '(' ')' r.text)
        ⟨.struct t.name, false⟩).bind (bindValue tables)) := by
  have hbound : 0 + (Scan.start.pieces ',' r.text).length ≤ positionBound := by
    have hpieces := Scan.length_pieces_le ',' Scan.start r.text
    omega
  obtain ⟨callPlace, hread⟩ := Reader.read_call (r := ⟨tables, place⟩) hname ht hkey hbalanced
  have hcollect : Reader.collectArguments t.name 0 [] false
      (Span.arguments ⟨r.text, t.name.toList.length + 1⟩) =
        keptArguments t.name 0 false (Scan.start.pieces ',' r.text) := by
    rw [Span.arguments, collectArguments_eq _ fun es hes =>
      nodup_of_keptArguments hes hbound hnodup hgiven]
    cases keptArguments t.name 0 false (Scan.start.pieces ',' r.text) <;> rfl
  rw [hread, hcollect]
  -- the arguments are typed alike, whatever the number of positions among them
  have htyped : ∀ n, Agree (Entries.Pointwise (Alike (Entries.names tables)))
      (readRow tables t r (splitTop ',' r.text).length 0 false [] (splitTop ',' r.text))
      ((keptArguments t.name 0 false (Scan.start.pieces ',' r.text)).bind
        (typeArguments ⟨tables, callPlace⟩ t n [])) :=
    fun n => agree_typeArguments 0 hbound hgiven .nil
  rw [r.bind_read ht]
  cases hkept : keptArguments t.name 0 false (Scan.start.pieces ',' r.text) with
  | error e =>
      -- no arguments are typed, and the row fails too
      have hfail := htyped 0
      rw [hkept] at hfail
      cases hread : readRow tables t r (splitTop ',' r.text).length 0 false []
        (splitTop ',' r.text) with
      | error e' => exact .error _ _
      | ok fields =>
          rw [hread] at hfail
          cases hfail
  | ok arguments =>
      rw [hkept] at hcollect
      -- the positions can be counted: the text is not too long, and no name that is given stands
      -- for one
      have hcounted : ¬ NamesLast (Entries.names arguments) := by
        intro hlast
        rcases Reader.namesLast_of_collectArguments hcollect hlast with ⟨name, hname, hposition⟩ |
          hlong
        · rw [position?_of_mem_givenNames hgiven hname] at hposition
          cases hposition
        · omega
      obtain ⟨count, hcount⟩ := exists_countPositions_iff.mpr hcounted
      have htypes : typeCall ⟨tables, callPlace⟩ t arguments =
          typeArguments ⟨tables, callPlace⟩ t count [] arguments := by rw [typeCall, hcount]
      have hargs := htyped count
      rw [hkept] at hargs
      have hbind := hargs.bind fun _ _ hpresent => agree_bindPresent (t := t) [] t.name
        (fun path struct hstruct => agree_bindWithin (maxDepth - 1) path hstruct) hpresent
      show Agree _ _ (bindValue tables (.instance ⟨t.name, arguments, some callPlace⟩))
      rw [bindValue_call ht, htypes]
      exact hbind.map_right fun _ _ heq => by rw [heq]

/-- A struct with a point, and the struct of the point. -/
def pinTables : Entries Table :=
  [("Point", ⟨"Point", [.ofType "x" ⟨.int, false⟩, .ofType "y" ⟨.int, false⟩], none, [], []⟩),
    ("Pin", pin)]
where
  pin : Table :=
    ⟨"Pin", [.ofType "id" ⟨.str, false⟩, .ofType "at" ⟨.struct "Point", false⟩], none, [], []⟩

def pinRow : RowText :=
  ⟨"Pin", ⟨"a, at: Point(1, y: 2)".toList, ⟨"- a, at: Point(1, y: 2)", ⟨"", none, 1⟩⟩, 2⟩, []⟩

def boundPin : Instance :=
  .ofFields "Pin" [("id", .text (.plain "a")),
    ("at", .instance (.ofFields "Point" [("x", .int 1), ("y", .int 2)]))]

theorem RowText.agree_call_pin :
    isBalanced pinRow.text ∧ (argumentNames pinRow.text).Nodup ∧
      (pinRow.read pinTables pinTables.pin).bind (bindInstance pinTables) = .ok boundPin ∧
      ((Reader.mk pinTables ⟨none, 1, 1, 25, ""⟩).read "Pin(a, at: Point(1, y: 2))".toList
        ⟨.struct "Pin", false⟩).bind (bindValue pinTables) = .ok (.instance boundPin) := by
  have hbalanced : isBalanced pinRow.text := by decide
  have hnames : argumentNames pinRow.text = ["at"] := by decide
  have hnodup : (argumentNames pinRow.text).Nodup := by
    rw [hnames]
    exact List.nodup_singleton _
  have hgiven : ∀ name ∈ argumentNames pinRow.text, ¬ IsPositional name := by
    rw [hnames]
    rintro name hname ⟨digits, -, -, hdigits⟩
    rw [List.mem_singleton.mp hname] at hdigits
    cases hdigits
  have hrow : (pinRow.read pinTables pinTables.pin).bind (bindInstance pinTables) =
      .ok boundPin := by cbv
  obtain ⟨v, hcall, hv⟩ := (RowText.agree_call (t := pinTables.pin) (by decide) rfl rfl hbalanced
    (by decide) hnodup hgiven ⟨none, 1, 1, 25, ""⟩).exists_right hrow
  rw [hv] at hcall
  exact ⟨hbalanced, hnodup, hrow, hcall⟩

end RowConfig
