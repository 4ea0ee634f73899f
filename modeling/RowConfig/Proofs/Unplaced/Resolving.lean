import RowConfig.Proofs.Equality
import RowConfig.Proofs.Linking
import RowConfig.Proofs.Positions
import RowConfig.Proofs.Unplaced.Building

/-!
# The output does not tell where lines come from

Every pass commutes with forgetting places: binding, building indexes, linking and rendering make of
a document without places what they make of the document, without its places. The output has no
places at all. Hence lists of lines with the same texts have the same output, or the same fault up
to the file and the number of its line (`same_outcome_of_texts`).
-/

namespace RowConfig

open Value (unplacedRow unplacedItems unplacedFields unplacedTarget)

variable {α β γ δ : Type}

namespace Entries

theorem erase_mapValues (f : α → β) (name : String) (es : Entries α) :
    erase name (mapValues f es) = mapValues f (erase name es) := by
  induction es with
  | nil => rfl
  | cons e es ih =>
      obtain ⟨k, v⟩ := e
      show (if k = name then mapValues f es else (k, f v) :: erase name (mapValues f es)) = _
      rw [erase, ih]
      split <;> rfl

theorem mapValues_comm {f : α → β} {f' : γ → δ} {u : α → γ} {v : β → δ} {es : Entries α}
    (h : ∀ a, f' (u a) = v (f a)) : mapValues f' (mapValues u es) = mapValues v (mapValues f es) := by
  simp only [mapValues, List.map_map]
  exact List.map_congr_left fun e _ => congrArg (Prod.mk e.1) (h e.2)

/-- A pass that commutes with forgetting places for each value does so for all. -/
theorem tryMapValues_unplaced {f : α → Except Fault β} {f' : γ → Except Fault δ} {u : α → γ}
    {v : β → δ} {es : Entries α} (h : ∀ a, f' (u a) = unplacedResult v (f a)) :
    tryMapValues f' (mapValues u es) = unplacedResult (mapValues v) (tryMapValues f es) := by
  induction es with
  | nil => rfl
  | cons e es ih =>
      obtain ⟨name, a⟩ := e
      show tryMapValues f' ((name, u a) :: mapValues u es) = _
      rw [tryMapValues, tryMapValues, h]
      cases f a with
      | error fault => rfl
      | ok b =>
          simp only [unplacedResult_ok]
          rw [ih]
          exact map_unplacedResult fun _ => rfl

end Entries

/-! ## Binding -/

namespace Binding

theorem fieldFor_unplaced (t : Table) (count : Nat) (name : String) :
    fieldFor t.unplaced count name = unplacedResult Field.unplaced (fieldFor t count name) := by
  unfold fieldFor
  cases position? name with
  | some position =>
      simp only
      rw [Table.getElem?_fields_unplaced, Table.length_fields_unplaced]
      cases t.fields[position]? <;> rfl
  | none =>
      simp only
      rw [Table.field?_unplaced]
      cases t.field? name with
      | some field => rfl
      | none =>
          simp only [Option.map_none, unplacedResult_error]
          rw [Table.unknownField_unplaced]

theorem typeArguments_unplaced (r : Reader) (t : Table) (count : Nat) (typed : Entries Value)
    (arguments : List (String × Value)) :
    typeArguments r.unplaced t.unplaced count (unplacedFields typed) (unplacedFields arguments) =
      unplacedResult unplacedFields (typeArguments r t count typed arguments) := by
  induction arguments generalizing typed with
  | nil => rfl
  | cons argument arguments ih =>
      obtain ⟨name, token⟩ := argument
      rw [unplacedFields, typeArguments, typeArguments, fieldFor_unplaced, Value.render_unplaced]
      cases fieldFor t count name with
      | error fault => rfl
      | ok field =>
          simp only [unplacedResult_ok]
          rw [Reader.readFor_unplaced]
          cases r.readFor token.render.toList field with
          | error fault => rfl
          | ok v =>
              simp only [unplacedResult_ok]
              rw [← ih, ← insert_unplacedFields, Field.name_unplaced]

theorem typeCall_unplaced (r : Reader) (t : Table) (arguments : Entries Value) :
    typeCall r.unplaced t.unplaced (unplacedFields arguments) =
      unplacedResult unplacedFields (typeCall r t arguments) := by
  have hnames : Entries.names (unplacedFields arguments) = Entries.names arguments := by
    rw [unplacedFields_eq_mapValues, Entries.names_mapValues]
  unfold typeCall
  rw [hnames]
  cases hcount : countPositions (Entries.names arguments) with
  | error fault =>
      -- an overflow has no place
      obtain ⟨rfl, -⟩ := countPositions_eq_error_iff.mp hcount
      rfl
  | ok count => exact typeArguments_unplaced r t count [] arguments

theorem arrange_unplaced (fields : List Field) (present : Entries Value) :
    arrange (fields.map Field.unplaced) (unplacedFields present) =
      unplacedFields (arrange fields present) := by
  induction fields generalizing present with
  | nil => rfl
  | cons f fields ih =>
      rw [List.map_cons, arrange, arrange, unplacedFields]
      simp only [Field.name_unplaced]
      congr 1
      · congr 1
        rw [unplacedFields_eq_mapValues, Entries.get?_mapValues]
        show Option.getD (Option.orElse _ fun _ => f.default.map Value.unplaced) .null = _
        cases Entries.get? present f.name with
        | some v => rfl
        | none => cases f.default <;> rfl
      · rw [unplacedFields_eq_mapValues, Entries.erase_mapValues, ← unplacedFields_eq_mapValues, ih]

theorem arrangeInstance_unplaced (tables : Entries Table) (row : Instance) :
    arrangeInstance (Entries.mapValues Table.unplaced tables) (unplacedRow row) =
      unplacedResult unplacedRow (arrangeInstance tables row) := by
  obtain ⟨struct, fields, call⟩ := row
  unfold arrangeInstance
  simp only [unplacedRow, Table.get?_unplaced]
  cases Entries.get? tables struct with
  | none => rfl
  | some t =>
      have harrange : ∀ fields : Entries Value,
          Record.ofFields struct (arrange t.unplaced.fields (unplacedFields fields)) =
            unplacedRow (.ofFields struct (arrange t.fields fields)) :=
        fun fields => congrArg (Record.ofFields struct) (arrange_unplaced t.fields fields)
      cases call with
      | none => exact congrArg Except.ok (harrange fields)
      | some location =>
          have htyped := typeCall_unplaced ⟨tables, location⟩ t fields
          exact (congrArg (Except.map _) htyped).trans (map_unplacedResult harrange)

mutual

theorem mapInstances_unplaced {bind bind' : Instance → Except Fault Instance}
    (h : ∀ row, bind' (unplacedRow row) = unplacedResult unplacedRow (bind row)) :
    ∀ v : Value, mapInstances bind' v.unplaced = unplacedResult Value.unplaced (mapInstances bind v)
  | .array items => by
      rw [Value.unplaced, mapInstances, mapInstances, mapItems_unplaced h items]
      exact map_unplacedResult fun _ => rfl
  | .instance row => by
      rw [Value.unplaced, mapInstances, mapInstances, h]
      exact map_unplacedResult fun _ => rfl
  | .null | .bool _ | .int _ | .float _ | .text _ | .date _ | .time _ | .dateTime _
  | .reference _ _ _ => rfl

theorem mapItems_unplaced {bind bind' : Instance → Except Fault Instance}
    (h : ∀ row, bind' (unplacedRow row) = unplacedResult unplacedRow (bind row)) :
    ∀ items : List Value,
      mapItems bind' (unplacedItems items) = unplacedResult unplacedItems (mapItems bind items)
  | [] => rfl
  | v :: vs => by
      rw [unplacedItems, mapItems, mapItems, mapInstances_unplaced h v]
      cases mapInstances bind v with
      | error fault => rfl
      | ok w =>
          simp only [unplacedResult_ok]
          rw [mapItems_unplaced h vs]
          exact map_unplacedResult fun _ => rfl

end

theorem bindWithin_unplaced (tables : Entries Table) (depth : Nat) (path : List String)
    (row : Instance) :
    bindWithin (Entries.mapValues Table.unplaced tables) depth path (unplacedRow row) =
      unplacedResult unplacedRow (bindWithin tables depth path row) := by
  induction depth generalizing path row with
  | zero =>
      obtain ⟨struct, fields, call⟩ := row
      rfl
  | succ depth ih =>
      rw [bindWithin, bindWithin, arrangeInstance_unplaced]
      cases arrangeInstance tables row with
      | error fault => rfl
      | ok arranged =>
          obtain ⟨struct, fields, call⟩ := arranged
          simp only [unplacedResult_ok, unplacedRow, unplacedFields_eq_mapValues]
          rw [Entries.tryMapValues_unplaced (mapInstances_unplaced (ih (path ++ [struct])))]
          refine map_unplacedResult fun bound => ?_
          rw [unplacedRow, unplacedFields_eq_mapValues]

end Binding

open Binding

theorem bindRows_unplaced (tables : Entries Table) (rows : List Instance) :
    bindRows (Entries.mapValues Table.unplaced tables) (rows.map unplacedRow) =
      unplacedResult (List.map unplacedRow) (bindRows tables rows) := by
  induction rows with
  | nil => rfl
  | cons row rows ih =>
      rw [List.map_cons, bindRows, bindRows, bindInstance, bindWithin_unplaced, ← bindInstance]
      cases bindInstance tables row with
      | error fault => rfl
      | ok bound =>
          simp only [unplacedResult_ok]
          rw [ih]
          exact map_unplacedResult fun _ => rfl

theorem Document.bind_unplaced (d : Document) :
    d.unplaced.bind = unplacedResult unplaced d.bind := by
  have hvalue : ∀ v : Value, bindValue (Entries.mapValues Table.unplaced d.tables) v.unplaced =
      unplacedResult Value.unplaced (bindValue d.tables v) :=
    mapInstances_unplaced fun row => bindWithin_unplaced d.tables maxDepth [] row
  have htable : ∀ t : Table,
      ((bindRows (Entries.mapValues Table.unplaced d.tables) t.unplaced.rows).map fun rows =>
        { t.unplaced with rows := rows }) =
      unplacedResult Table.unplaced
        ((bindRows d.tables t.rows).map fun rows => { t with rows := rows }) := by
    intro t
    refine (congrArg (Except.map _) (bindRows_unplaced d.tables t.rows)).trans ?_
    exact map_unplacedResult fun _ => rfl
  unfold bind
  rw [unplaced, Entries.tryMapValues_unplaced hvalue]
  cases Entries.tryMapValues (bindValue d.tables) d.globals with
  | error fault => rfl
  | ok globals =>
      simp only [unplacedResult_ok]
      rw [Entries.tryMapValues_unplaced htable]
      exact map_unplacedResult fun _ => rfl

/-! ## Indexes -/

namespace Table

theorem keyText?_unplaced (key : String) (row : Instance) :
    keyText? key (unplacedRow row) = keyText? key row := by
  obtain ⟨struct, fields, call⟩ := row
  unfold keyText? Record.get?
  rw [unplacedRow, unplacedFields_eq_mapValues, Entries.get?_mapValues]
  cases Entries.get? fields key with
  | none => rfl
  | some v => simp

theorem indexRows_unplaced (key : String) (position : Nat) (index : Entries Nat)
    (rows : List Instance) :
    indexRows key position index (rows.map unplacedRow) = indexRows key position index rows := by
  induction rows generalizing position index with
  | nil => rfl
  | cons row rows ih =>
      rw [List.map_cons, indexRows, indexRows, keyText?_unplaced]
      exact ih _ _

theorem buildIndex_unplaced (t : Table) : t.unplaced.buildIndex = t.buildIndex.unplaced := by
  obtain ⟨name, fields, key, rows, index⟩ := t
  cases key with
  | none => rfl
  | some key =>
      simp only [buildIndex, unplaced, indexRows_unplaced]

theorem find?_unplaced (t : Table) (key : String) :
    t.unplaced.find? key = (t.find? key).map unplacedRow := by
  show ((Entries.get? t.index key).bind fun position => (t.rows.map unplacedRow)[position]?) = _
  rw [find?]
  cases Entries.get? t.index key with
  | none => rfl
  | some position => exact List.getElem?_map

end Table

theorem Document.buildIndexes_unplaced (d : Document) :
    d.unplaced.buildIndexes = d.buildIndexes.unplaced := by
  unfold buildIndexes unplaced Entries.mapValues
  simp only [List.map_map]
  congr 1
  exact List.map_congr_left fun e _ => congrArg (Prod.mk e.1) (Table.buildIndex_unplaced e.2)

/-! ## Linking -/

namespace Linking

section References

variable {follow follow' : RowName → Except Fault Instance}

mutual

theorem mapReferences_unplaced (h : ∀ name, follow' name = unplacedResult unplacedRow (follow name)) :
    ∀ v : Value,
      mapReferences follow' v.unplaced = unplacedResult Value.unplaced (mapReferences follow v)
  | .array items => by
      rw [Value.unplaced, mapReferences, mapReferences, mapItems_unplaced h items]
      exact map_unplacedResult fun _ => rfl
  | .instance row => by
      rw [Value.unplaced, mapReferences, mapReferences, mapRow_unplaced h row]
      exact map_unplacedResult fun _ => rfl
  | .reference struct key target => by
      rw [Value.unplaced, mapReferences, mapReferences, h]
      exact map_unplacedResult fun _ => rfl
  | .null | .bool _ | .int _ | .float _ | .text _ | .date _ | .time _ | .dateTime _ => rfl

theorem mapItems_unplaced (h : ∀ name, follow' name = unplacedResult unplacedRow (follow name)) :
    ∀ items : List Value,
      mapItems follow' (unplacedItems items) = unplacedResult unplacedItems (mapItems follow items)
  | [] => rfl
  | v :: vs => by
      rw [unplacedItems, mapItems, mapItems, mapReferences_unplaced h v]
      cases mapReferences follow v with
      | error fault => rfl
      | ok w =>
          simp only [unplacedResult_ok]
          rw [mapItems_unplaced h vs]
          exact map_unplacedResult fun _ => rfl

theorem mapRow_unplaced (h : ∀ name, follow' name = unplacedResult unplacedRow (follow name)) :
    ∀ row : Record Value,
      mapRow follow' (unplacedRow row) = unplacedResult unplacedRow (mapRow follow row)
  | ⟨struct, fields, call⟩ => by
      rw [unplacedRow, mapRow, mapRow, mapFields_unplaced h fields]
      exact map_unplacedResult fun _ => rfl

theorem mapFields_unplaced (h : ∀ name, follow' name = unplacedResult unplacedRow (follow name)) :
    ∀ fields : List (String × Value),
      mapFields follow' (unplacedFields fields) =
        unplacedResult unplacedFields (mapFields follow fields)
  | [] => rfl
  | (name, v) :: more => by
      rw [unplacedFields, mapFields, mapFields, mapReferences_unplaced h v]
      cases mapReferences follow v with
      | error fault => rfl
      | ok w =>
          simp only [unplacedResult_ok]
          rw [mapFields_unplaced h more]
          exact map_unplacedResult fun _ => rfl

end

end References

theorem findRow_unplaced (d : Document) (name : RowName) :
    findRow d.unplaced name = unplacedResult unplacedRow (findRow d name) := by
  unfold findRow
  rw [Document.table?_unplaced, Document.structNames_unplaced]
  cases d.table? name.1 with
  | none => rfl
  | some t =>
      simp only [Option.map_some]
      rw [Table.find?_unplaced]
      cases t.find? name.2 <;> rfl

theorem follow_unplaced (d : Document) (trail : List RowName) (name : RowName) :
    follow d.unplaced trail name = unplacedResult unplacedRow (follow d trail name) := by
  induction trail, name using follow.induct d with
  | case1 trail name fault hfound =>
      rw [follow_eq, follow_eq, findRow_unplaced, hfound]
      rfl
  | case2 trail name row hfound hmet =>
      rw [follow_eq, follow_eq, findRow_unplaced, hfound]
      simp only [unplacedResult_ok, hmet, if_true]
      rfl
  | case3 trail name row hfound hmet ih =>
      rw [follow_eq, follow_eq, findRow_unplaced, hfound]
      simp only [unplacedResult_ok, hmet, if_false, Bool.false_eq_true]
      exact mapRow_unplaced ih row

theorem linkRows_unplaced (d : Document) (rows : List Instance) :
    linkRows d.unplaced (rows.map unplacedRow) =
      unplacedResult (List.map unplacedRow) (linkRows d rows) := by
  induction rows with
  | nil => rfl
  | cons row rows ih =>
      rw [List.map_cons, linkRows, linkRows, mapRow_unplaced (follow_unplaced d [])]
      cases mapRow (follow d []) row with
      | error fault => rfl
      | ok linked =>
          simp only [unplacedResult_ok]
          rw [ih]
          exact map_unplacedResult fun _ => rfl

end Linking

open Linking

theorem Document.link_unplaced (d : Document) :
    d.unplaced.link = unplacedResult unplaced d.link := by
  have htable : ∀ t : Table,
      ((linkRows d.unplaced t.unplaced.rows).map fun rows => { t.unplaced with rows := rows }) =
      unplacedResult Table.unplaced
        ((linkRows d t.rows).map fun rows => { t with rows := rows }) := by
    intro t
    refine (congrArg (Except.map _) (linkRows_unplaced d t.rows)).trans ?_
    exact map_unplacedResult fun _ => rfl
  have hglobals := Linking.mapFields_unplaced (follow_unplaced d []) d.globals
  rw [unplacedFields_eq_mapValues] at hglobals
  unfold link
  rw [show d.unplaced.globals = Entries.mapValues Value.unplaced d.globals from rfl, hglobals]
  cases mapFields (follow d []) d.globals with
  | error fault => rfl
  | ok globals =>
      simp only [unplacedResult_ok]
      rw [show d.unplaced.tables = Entries.mapValues Table.unplaced d.tables from rfl,
        Entries.tryMapValues_unplaced htable]
      refine map_unplacedResult fun tables => ?_
      rw [unplaced, unplacedFields_eq_mapValues]

/-! ## Rendering -/

namespace Value

theorem field?_unplaced (v : Value) (name : String) :
    v.unplaced.field? name = (v.field? name).map unplaced := by
  have hrow : ∀ row : Record Value, (unplacedRow row).get? name = (row.get? name).map unplaced := by
    rintro ⟨struct, fields, call⟩
    rw [unplacedRow, unplacedFields_eq_mapValues]
    exact Entries.get?_mapValues unplaced fields name
  cases v with
  | «instance» row => exact hrow row
  | reference struct key target =>
      cases target with
      | none => rfl
      | some row => exact hrow row
  | _ => rfl

end Value

namespace Scope

def unplaced (s : Scope) : Scope :=
  ⟨s.row.map unplacedFields, unplacedFields s.globals⟩

theorem descend_unplaced (v : Value) (path : List String) :
    descend v.unplaced path = (descend v path).map Value.unplaced := by
  induction path generalizing v with
  | nil => rfl
  | cons name path ih =>
      rw [descend, descend, Value.field?_unplaced]
      cases v.field? name with
      | none => rfl
      | some w => exact ih w

theorem walk_unplaced (fields : Entries Value) (path : List Char) :
    walk (unplacedFields fields) path = (walk fields path).map Value.unplaced := by
  unfold walk
  split
  · rfl
  · next first more _ =>
    rw [unplacedFields_eq_mapValues, Entries.get?_mapValues]
    cases Entries.get? fields first with
    | none => rfl
    | some v => exact descend_unplaced v more

theorem lookup_unplaced (s : Scope) (path : List Char) :
    s.unplaced.lookup path = (s.lookup path).map Value.unplaced := by
  obtain ⟨row, globals⟩ := s
  unfold lookup
  split
  · exact walk_unplaced globals _
  · simp only [unplaced, walk_unplaced]
    cases row with
    | none => rfl
    | some fields =>
        simp only [Option.map_some, Option.bind_some, walk_unplaced]
        cases walk fields path <;> rfl

theorem shown_unplaced (s : Scope) (segment : Segment) :
    segment.shown s.unplaced = segment.shown s := by
  cases segment with
  | literal text => rfl
  | placeholder path =>
      unfold Segment.shown
      simp only
      rw [lookup_unplaced]
      cases s.lookup (Chars.trim path) with
      | none => rfl
      | some v => simp

end Scope

theorem Text.rendered_unplaced (s : Scope) (t : Text) : t.rendered s.unplaced = t.rendered s := by
  cases t with
  | plain text => rfl
  | template source escapes =>
      unfold Text.rendered renderSource
      rw [funext (Scope.shown_unplaced s)]

namespace Value

mutual

theorem rendered_unplaced (s : Scope) :
    ∀ v : Value, v.unplaced.rendered s.unplaced = (v.rendered s).unplaced
  | .text t => congrArg text (Text.rendered_unplaced s t)
  | .array items => congrArg array (renderedItems_unplaced s items)
  | .instance row => congrArg «instance» (renderedRow_unplaced s.globals row)
  | .reference struct key target =>
      congrArg (reference struct key) (renderedTarget_unplaced s.globals target)
  | .null | .bool _ | .int _ | .float _ | .date _ | .time _ | .dateTime _ => rfl
termination_by structural v => v

theorem renderedItems_unplaced (s : Scope) :
    ∀ items : List Value,
      renderedItems s.unplaced (unplacedItems items) = unplacedItems (renderedItems s items)
  | [] => rfl
  | v :: vs => by
      rw [unplacedItems, renderedItems, renderedItems, unplacedItems, rendered_unplaced s v,
        renderedItems_unplaced s vs]
termination_by structural items => items

theorem renderedRow_unplaced (globals : Entries Value) :
    ∀ row : Record Value,
      renderedRow (unplacedFields globals) (unplacedRow row) = unplacedRow (renderedRow globals row)
  | ⟨struct, fields, call⟩ => by
      have hfields := renderedFields_unplaced globals [] fields
      rw [unplacedRow, renderedRow, renderedRow, unplacedRow, ← hfields]
      rfl
termination_by structural row => row

theorem renderedFields_unplaced (globals : Entries Value) (done : List (String × Value)) :
    ∀ fields : List (String × Value),
      renderedFields (unplacedFields globals) (unplacedFields done) (unplacedFields fields) =
        unplacedFields (renderedFields globals done fields)
  | [] => rfl
  | (name, v) :: more => by
      have happend : ∀ front back : Entries Value,
          unplacedFields (front ++ back) = unplacedFields front ++ unplacedFields back := by
        intro front back
        simp only [unplacedFields_eq_mapValues, Entries.mapValues, List.map_append]
      rw [unplacedFields, renderedFields, renderedFields, ← renderedFields_unplaced globals _ more,
        happend]
      have hscope : (⟨some (unplacedFields done ++ (name, v.unplaced) :: unplacedFields more),
          unplacedFields globals⟩ : Scope) =
          Scope.unplaced ⟨some (done ++ (name, v) :: more), globals⟩ := by
        rw [Scope.unplaced, Option.map_some, happend]
        rfl
      rw [hscope, rendered_unplaced _ v]
      rfl
termination_by structural fields => fields

theorem renderedTarget_unplaced (globals : Entries Value) :
    ∀ target : Option (Record Value),
      renderedTarget (unplacedFields globals) (unplacedTarget target) =
        unplacedTarget (renderedTarget globals target)
  | none => rfl
  | some row => congrArg some (renderedRow_unplaced globals row)
termination_by structural target => target

end

/-! ## Output -/

mutual

/-- Output trees have no places. -/
theorem toNode_unplaced : ∀ v : Value, v.unplaced.toNode = v.toNode
  | .array items => congrArg Node.array (nodesOfItems_unplaced items)
  | .instance row => nodeOfRow_unplaced row
  | .reference _ _ target => nodeOfTarget_unplaced target
  | .null | .bool _ | .int _ | .float _ | .text _ | .date _ | .time _ | .dateTime _ => rfl

theorem nodesOfItems_unplaced :
    ∀ items : List Value, nodesOfItems (unplacedItems items) = nodesOfItems items
  | [] => rfl
  | v :: vs => by
      rw [unplacedItems, nodesOfItems, nodesOfItems, toNode_unplaced v, nodesOfItems_unplaced vs]

theorem nodeOfRow_unplaced : ∀ row : Record Value, nodeOfRow (unplacedRow row) = nodeOfRow row
  | ⟨_, fields, _⟩ => congrArg Node.object (membersOfFields_unplaced fields)

theorem membersOfFields_unplaced :
    ∀ fields : List (String × Value), membersOfFields (unplacedFields fields) = membersOfFields fields
  | [] => rfl
  | (name, v) :: more => by
      rw [unplacedFields, membersOfFields, membersOfFields, toNode_unplaced v,
        membersOfFields_unplaced more]

theorem nodeOfTarget_unplaced :
    ∀ target : Option (Record Value), nodeOfTarget (unplacedTarget target) = nodeOfTarget target
  | none => rfl
  | some row => nodeOfRow_unplaced row

end

end Value

namespace Document

theorem render_unplaced (d : Document) : d.unplaced.render = d.render.unplaced := by
  have hglobals : Entries.mapValues Value.unplaced d.globals = unplacedFields d.globals :=
    (unplacedFields_eq_mapValues d.globals).symm
  have hvalue : ∀ v : Value,
      v.unplaced.rendered ⟨none, Entries.mapValues Value.unplaced d.globals⟩ =
        (v.rendered ⟨none, d.globals⟩).unplaced := by
    rw [hglobals]
    exact Value.rendered_unplaced ⟨none, d.globals⟩
  have htable : ∀ t : Table, t.unplaced.rendered (Entries.mapValues Value.unplaced d.globals) =
      (t.rendered d.globals).unplaced := by
    intro t
    simp only [hglobals, Table.rendered, Table.unplaced, List.map_map, Function.comp_def,
      Value.renderedRow_unplaced]
  exact congrArg₂ Document.mk (Entries.mapValues_comm hvalue) (Entries.mapValues_comm htable)

theorem rowsNode_unplaced (t : Table) : rowsNode t.unplaced = rowsNode t := by
  simp only [rowsNode, Table.unplaced, List.map_map, Function.comp_def, Value.nodeOfRow_unplaced]

theorem toNode_unplaced (d : Document) : d.unplaced.toNode = d.toNode := by
  have hglobals : Entries.mapValues Value.toNode (Entries.mapValues Value.unplaced d.globals) =
      Entries.mapValues Value.toNode d.globals := by
    simp only [Entries.mapValues, List.map_map, Function.comp_def, Value.toNode_unplaced]
  have htables : (Entries.mapValues Table.unplaced d.tables).filter (fun e => e.2.key.isSome) =
      Entries.mapValues Table.unplaced (d.tables.filter fun e => e.2.key.isSome) := by
    rw [Entries.mapValues, Entries.mapValues, List.filter_map]
    rfl
  unfold toNode exportEntries
  rw [unplaced, htables, hglobals]
  unfold Entries.mapValues
  rw [List.foldl_map]
  simp only [rowsNode_unplaced]

/-- Resolving commutes with forgetting places. -/
theorem resolve_unplaced (d : Document) : d.unplaced.resolve = unplacedResult unplaced d.resolve := by
  unfold resolve
  rw [bind_unplaced]
  cases d.bind with
  | error fault => rfl
  | ok bound =>
      simp only [unplacedResult_ok]
      rw [buildIndexes_unplaced, link_unplaced]
      exact map_unplacedResult render_unplaced

end Document

/-- The output of a document that physical lines declare. -/
def outputOf (lines : List SourceLine) : Except Fault Node :=
  ((Document.ofSource lines).bind Document.resolve).map Document.toNode

theorem outputOf_unplaced (lines : List SourceLine) :
    outputOf (lines.map SourceLine.unplaced) = unplacedResult id (outputOf lines) := by
  unfold outputOf
  rw [Document.ofSource_unplaced]
  cases Document.ofSource lines with
  | error fault => rfl
  | ok d =>
      show (d.unplaced.resolve).map Document.toNode = _
      rw [Document.resolve_unplaced]
      exact map_unplacedResult Document.toNode_unplaced

/-- Lines of the same texts have the same output wherever they come from, or the same fault, which
is located on other lines but at the same column, with the same length and on the same text. -/
theorem same_outcome_of_texts {lines lines' : List SourceLine}
    (h : lines.map SourceLine.text = lines'.map SourceLine.text) :
    (∃ node, outputOf lines = .ok node ∧ outputOf lines' = .ok node) ∨
      ∃ fault fault', outputOf lines = .error fault ∧ outputOf lines' = .error fault' ∧
        fault.unplaced = fault'.unplaced := by
  -- without places the lines are the same
  have hlines : lines.map SourceLine.unplaced = lines'.map SourceLine.unplaced := by
    have hmap := congrArg (List.map fun text => SourceLine.mk text none 0) h
    rw [List.map_map, List.map_map] at hmap
    exact hmap
  have houtput : unplacedResult id (outputOf lines) = unplacedResult id (outputOf lines') := by
    rw [← outputOf_unplaced, ← outputOf_unplaced, hlines]
  cases hfirst : outputOf lines with
  | ok node =>
      cases hsecond : outputOf lines' with
      | ok node' =>
          rw [hfirst, hsecond] at houtput
          cases houtput
          exact .inl ⟨node, rfl, rfl⟩
      | error fault' =>
          rw [hfirst, hsecond] at houtput
          cases houtput
  | error fault =>
      cases hsecond : outputOf lines' with
      | ok node' =>
          rw [hfirst, hsecond] at houtput
          cases houtput
      | error fault' =>
          rw [hfirst, hsecond] at houtput
          exact .inr ⟨fault, fault', rfl, rfl, Except.error.inj houtput⟩

/-- A global whose value is no number, on some line of some file. -/
def portLine (file : Option String) (number : Nat) : SourceLine := ⟨"int port: x", file, number⟩

def portFault (file : Option String) (number : Nat) : Fault :=
  .typeMismatch ⟨file, number, 11, 1, "int port: x"⟩ .int "x"

theorem same_outcome_of_texts_moved :
    [portLine (some "/a") 1].map SourceLine.text = [portLine none 7].map SourceLine.text ∧
      outputOf [portLine (some "/a") 1] = .error (portFault (some "/a") 1) ∧
      outputOf [portLine none 7] = .error (portFault none 7) ∧
      (portFault (some "/a") 1).unplaced = (portFault none 7).unplaced := by
  have hfirst : outputOf [portLine (some "/a") 1] = .error (portFault (some "/a") 1) := by
    rw [outputOf, show Document.ofSource [portLine (some "/a") 1] =
      .error (portFault (some "/a") 1) by decide +kernel]
    rfl
  have hsecond : outputOf [portLine none 7] = .error (portFault none 7) := by
    rw [outputOf, show Document.ofSource [portLine none 7] = .error (portFault none 7) by
      decide +kernel]
    rfl
  have htexts : [portLine (some "/a") 1].map SourceLine.text =
      [portLine none 7].map SourceLine.text := rfl
  refine ⟨htexts, hfirst, hsecond, ?_⟩
  rcases same_outcome_of_texts htexts with ⟨node, hok, -⟩ | ⟨fault, fault', hfault, hfault', heq⟩
  · rw [hfirst] at hok
    cases hok
  · rw [hfirst] at hfault
    rw [hsecond] at hfault'
    cases hfault
    cases hfault'
    exact heq

end RowConfig
