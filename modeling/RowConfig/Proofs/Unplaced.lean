import RowConfig.Proofs.Pointwise
import RowConfig.Reader

/-!
# Forgetting where lines come from

A physical line knows its file and its number, and whatever is read from it may remember them:
logical lines, rows that wait, inline rows that are not bound, faults. `unplaced` takes file and
number out of all of these and keeps the rest. Reading a token without places gives what reading the
token gives, without its places (`Reader.read_unplaced`): file and number go nowhere but into
locations.
-/

namespace RowConfig

variable {α β γ δ : Type}

/-! ## Data without places -/

/-- The span without the file and the number of its line. -/
def Location.unplaced (l : Location) : Location := { l with file := none, line := 0 }

/-- The text of a line. -/
def SourceLine.unplaced (l : SourceLine) : SourceLine := { l with file := none, number := 0 }

/-- The fault with everything that it says, but for the file and the line. -/
def Fault.unplaced : Fault → Fault
  | .unexpectedLine l problem => .unexpectedLine l.unplaced problem
  | .unclosedString l multiline quote => .unclosedString l.unplaced multiline quote
  | .invalidEscape l sequence problem => .invalidEscape l.unplaced sequence problem
  | .unclosedList l => .unclosedList l.unplaced
  | .outsideStruct l line => .outsideStruct l.unplaced line
  | .includeNotFound l path => .includeNotFound l.unplaced path
  | .typeMismatch l expected found => .typeMismatch l.unplaced expected found
  | .malformedArray l found => .malformedArray l.unplaced found
  | .malformedCall l found expected => .malformedCall l.unplaced found expected
  | .invalidChoices l field problem => .invalidChoices l.unplaced field problem
  | fault => fault

namespace Value

mutual

/-- A value whose calls do not remember the file and the line that they are written on. -/
def unplaced : Value → Value
  | .array items => .array (unplacedItems items)
  | .instance row => .instance (unplacedRow row)
  | .reference struct key target => .reference struct key (unplacedTarget target)
  | v => v

def unplacedItems : List Value → List Value
  | [] => []
  | v :: vs => unplaced v :: unplacedItems vs

def unplacedRow : Record Value → Record Value
  | ⟨struct, fields, call⟩ => ⟨struct, unplacedFields fields, call.map Location.unplaced⟩

def unplacedFields : List (String × Value) → List (String × Value)
  | [] => []
  | (name, v) :: more => (name, unplaced v) :: unplacedFields more

def unplacedTarget : Option (Record Value) → Option (Record Value)
  | none => none
  | some row => some (unplacedRow row)

end

end Value

open Value

def Field.unplaced (f : Field) : Field :=
  { f with
    default := f.default.map Value.unplaced
    choices := f.choices.map (List.map Value.unplaced) }

def Table.unplaced (t : Table) : Table :=
  { t with
    fields := t.fields.map Field.unplaced
    rows := t.rows.map unplacedRow }

/-- A result without places, also where it is a fault. -/
def unplacedResult (f : α → β) : Except Fault α → Except Fault β
  | .ok a => .ok (f a)
  | .error fault => .error fault.unplaced

@[simp] theorem unplacedResult_ok (f : α → β) (a : α) : unplacedResult f (.ok a) = .ok (f a) := rfl

@[simp] theorem unplacedResult_error (f : α → β) (fault : Fault) :
    unplacedResult f (.error fault) = .error fault.unplaced := rfl

theorem map_unplacedResult {f : α → β} {f' : γ → δ} {u : α → γ} {v : β → δ} {x : Except Fault α}
    (h : ∀ a, f' (u a) = v (f a)) :
    (unplacedResult u x).map f' = unplacedResult v (x.map f) := by
  cases x with
  | error fault => rfl
  | ok a => exact congrArg Except.ok (h a)

/-! ## Entries and values -/

namespace Entries

variable {ε : Type}

@[simp] theorem names_mapValues (f : α → β) (es : Entries α) : names (mapValues f es) = names es :=
  (pointwise_mapValues f es).names_eq.symm

theorem insert_mapValues (f : α → β) (name : String) (v : α) (es : Entries α) :
    insert name (f v) (mapValues f es) = mapValues f (insert name v es) := by
  induction es with
  | nil => rfl
  | cons e es ih =>
      obtain ⟨k, w⟩ := e
      show (if k = name then (k, f v) :: mapValues f es
        else (k, f w) :: insert name (f v) (mapValues f es)) =
          mapValues f (insert name v ((k, w) :: es))
      rw [insert]
      split
      · rfl
      · rw [ih]
        rfl

end Entries

theorem unplacedItems_eq_map (items : List Value) : unplacedItems items = items.map unplaced := by
  induction items with
  | nil => rfl
  | cons v vs ih => rw [unplacedItems, ih, List.map_cons]

theorem unplacedFields_eq_mapValues (fields : Entries Value) :
    unplacedFields fields = Entries.mapValues unplaced fields := by
  induction fields with
  | nil => rfl
  | cons field fields ih =>
      obtain ⟨name, v⟩ := field
      rw [unplacedFields, ih]
      rfl

theorem insert_unplacedFields (name : String) (v : Value) (fields : Entries Value) :
    Entries.insert name v.unplaced (unplacedFields fields) =
      unplacedFields (Entries.insert name v fields) := by
  rw [unplacedFields_eq_mapValues, unplacedFields_eq_mapValues, Entries.insert_mapValues]

namespace Value

@[simp] theorem isNull_unplaced (v : Value) : v.unplaced.isNull = v.isNull := by cases v <;> rfl

/-- The text of a value does not tell where it comes from. -/
@[simp] theorem render_unplaced (v : Value) : v.unplaced.render = v.render := by cases v <;> rfl

end Value

namespace Field

@[simp] theorem name_unplaced (f : Field) : f.unplaced.name = f.name := rfl

@[simp] theorem type_unplaced (f : Field) : f.unplaced.type = f.type := rfl

theorem allows_unplaced (choices : List Value) (v : Value) :
    allows (choices.map Value.unplaced) v.unplaced = allows choices v := by
  unfold allows
  rw [isNull_unplaced, render_unplaced, List.any_map]
  simp [Function.comp_def]

theorem checkChoice_unplaced (f : Field) (v : Value) :
    f.unplaced.checkChoice v.unplaced = unplacedResult id (f.checkChoice v) := by
  obtain ⟨name, type, isKey, nullable, default, choices⟩ := f
  cases choices with
  | none => rfl
  | some choices =>
      have hrender : (choices.map Value.unplaced).map Value.render = choices.map Value.render := by
        rw [List.map_map]
        exact List.map_congr_left fun v _ => render_unplaced v
      simp only [checkChoice, unplaced, Option.map_some]
      rw [allows_unplaced, render_unplaced, hrender]
      split <;> rfl

end Field

namespace Table

theorem get?_unplaced (tables : Entries Table) (struct : String) :
    Entries.get? (Entries.mapValues unplaced tables) struct =
      (Entries.get? tables struct).map unplaced :=
  Entries.get?_mapValues unplaced tables struct

@[simp] theorem fieldNames_unplaced (t : Table) : t.unplaced.fieldNames = t.fieldNames := by
  show (t.fields.map Field.unplaced).map Field.name = t.fields.map Field.name
  rw [List.map_map]
  rfl

@[simp] theorem getElem?_fields_unplaced (t : Table) (position : Nat) :
    t.unplaced.fields[position]? = t.fields[position]?.map Field.unplaced := List.getElem?_map

@[simp] theorem length_fields_unplaced (t : Table) : t.unplaced.fields.length = t.fields.length :=
  List.length_map Field.unplaced

theorem field?_unplaced (t : Table) (name : String) :
    t.unplaced.field? name = (t.field? name).map Field.unplaced := by
  show (t.fields.map Field.unplaced).find? _ = (t.fields.find? _).map _
  rw [List.find?_map]
  rfl

@[simp] theorem unknownField_unplaced (t : Table) (name : String) :
    t.unplaced.unknownField name = (t.unknownField name).unplaced := by
  unfold unknownField
  rw [fieldNames_unplaced]
  rfl

end Table

/-! ## Reading -/

namespace Reader

/-- What a token is read against, without the place of the token. -/
def unplaced (r : Reader) : Reader :=
  ⟨Entries.mapValues Table.unplaced r.tables, r.location.unplaced⟩

theorem escapedText_unplaced (r : Reader) (body : Span) :
    r.unplaced.escapedText body = unplacedResult id (r.escapedText body) := by
  unfold escapedText
  cases Escape.decode body.text with
  | error m => rfl
  | ok decoded =>
      cases hasPlaceholder true body.text <;> rfl

theorem readText_unplaced (r : Reader) (s : Span) :
    r.unplaced.readText s = unplacedResult id (r.readText s) := by
  unfold readText
  split
  · split
    · rfl
    · split
      · exact escapedText_unplaced r _
      · rfl
  · rfl

theorem addArgument_unplaced (struct : String) (position : Nat) (argument : Span)
    (fields : Entries Value) (named : Bool) :
    addArgument struct position argument (unplacedFields fields) named =
      unplacedResult (fun read => (unplacedFields read.1, read.2))
        (addArgument struct position argument fields named) := by
  unfold addArgument
  split
  · rw [unplacedResult_ok, ← insert_unplacedFields]
    rfl
  · split
    · rfl
    · rw [unplacedResult_ok, ← insert_unplacedFields]
      rfl

theorem collectArguments_unplaced (struct : String) (position : Nat) (fields : Entries Value)
    (named : Bool) (spans : List Span) :
    collectArguments struct position (unplacedFields fields) named spans =
      unplacedResult unplacedFields (collectArguments struct position fields named spans) := by
  induction spans generalizing position fields named with
  | nil => rfl
  | cons s spans ih =>
      rw [collectArguments, collectArguments]
      split
      · exact ih _ _ _
      · rw [addArgument_unplaced]
        cases addArgument struct position s.trimmed fields named with
        | error fault => rfl
        | ok read => exact ih _ _ _

theorem readCall_unplaced (r : Reader) (s : Span) (expected : String) :
    r.unplaced.readCall s expected = unplacedResult Value.unplaced (r.readCall s expected) := by
  have hinline : (Entries.get? r.unplaced.tables expected).any (fun t => t.key.isNone) =
      (Entries.get? r.tables expected).any fun t => t.key.isNone := by
    rw [unplaced, Table.get?_unplaced, Option.any_map]
    rfl
  unfold readCall
  rw [hinline]
  split
  · rfl
  · next name arguments _ =>
    split
    · rfl
    · split
      · have hcollect := collectArguments_unplaced expected 0 [] false arguments.arguments
        exact (congrArg (Except.map _) hcollect).trans (map_unplacedResult fun _ => rfl)
      · rw [readText_unplaced]
        exact map_unplacedResult fun _ => rfl

theorem readScalar_unplaced (r : Reader) (s : Span) (type : ScalarType) :
    r.unplaced.readScalar s type = unplacedResult Value.unplaced (r.readScalar s type) := by
  unfold readScalar
  cases type with
  | struct name => exact readCall_unplaced r s name
  | bool => simp only; split <;> rfl
  | int => simp only; split <;> rfl
  | float => simp only; split <;> rfl
  | str | date | time | dateTime =>
      simp only
      rw [readText_unplaced]
      exact map_unplacedResult fun _ => rfl

theorem readElement_unplaced (r : Reader) (s : Span) (type : ScalarType) :
    r.unplaced.readElement s type = unplacedResult Value.unplaced (r.readElement s type) := by
  unfold readElement
  split
  · rfl
  · exact readScalar_unplaced r s type

theorem readElements_unplaced (r : Reader) (type : ScalarType) (spans : List Span) :
    r.unplaced.readElements type spans =
      unplacedResult (List.map Value.unplaced) (r.readElements type spans) := by
  induction spans with
  | nil => rfl
  | cons s spans ih =>
      rw [readElements, readElements]
      split
      · exact ih
      · rw [readElement_unplaced]
        cases r.readElement s.trimmed type with
        | error fault => rfl
        | ok v =>
            simp only [unplacedResult_ok]
            rw [ih]
            exact map_unplacedResult fun _ => rfl

/-- Where a token stands does not change what it means. -/
theorem read_unplaced (r : Reader) (token : List Char) (type : FieldType) :
    r.unplaced.read token type = unplacedResult Value.unplaced (r.read token type) := by
  unfold read
  simp only
  split
  · rfl
  · split
    · unfold readArray
      split
      · rfl
      · rw [readElements_unplaced]
        refine map_unplacedResult fun items => ?_
        rw [Value.unplaced, unplacedItems_eq_map]
    · exact readScalar_unplaced r _ _

theorem readFor_unplaced (r : Reader) (token : List Char) (field : Field) :
    r.unplaced.readFor token field.unplaced =
      unplacedResult Value.unplaced (r.readFor token field) := by
  unfold readFor
  rw [Field.type_unplaced, read_unplaced]
  cases r.read token field.type with
  | error fault => rfl
  | ok v =>
      simp only [unplacedResult_ok]
      rw [Field.checkChoice_unplaced]
      exact map_unplacedResult fun _ => rfl

theorem readChoices_unplaced (r : Reader) (token : List Char) (field : Field) :
    r.unplaced.readChoices token field.unplaced =
      unplacedResult (List.map Value.unplaced) (r.readChoices token field) := by
  unfold readChoices
  simp only [Field.type_unplaced, Field.name_unplaced]
  by_cases harray : field.type.array
  · simp only [harray, if_true]
    rfl
  · by_cases hstruct : field.type.scalar.isStruct
    · simp only [harray, hstruct, if_true]
      rfl
    · simp only [harray, hstruct]
      cases (Span.mk token 0).trimmed.inside? '(' ')' with
      | none => rfl
      | some inner =>
          simp only
          rw [readElements_unplaced]
          cases r.readElements field.type.scalar inner.arguments with
          | error fault => rfl
          | ok choices => cases choices <;> rfl

end Reader

end RowConfig
