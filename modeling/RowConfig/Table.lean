import RowConfig.Fault
import RowConfig.Value

/-!
# Tables

A table is what a document says about one struct: its fields in the order of their declaration, its
primary key, its rows, and an index from the text of a key to the position of a row. The index is as
it was last built; changing rows does not touch it.
-/

namespace RowConfig

/-- A declared field of a struct. -/
structure Field where
  name : String
  type : FieldType
  isKey : Bool
  nullable : Bool
  /-- The value of a row that does not give one. -/
  default : Option Value
  /-- The values that are allowed, if they are restricted. -/
  choices : Option (List Value)

namespace Field

def ofType (name : String) (type : FieldType) : Field := ⟨name, type, false, false, none, none⟩

/-- The text of a value is that of one of the choices. Null is always allowed. -/
def allows (choices : List Value) (v : Value) : Bool :=
  v.isNull || choices.any fun choice => choice.render == v.render

/-- Refuses a value that is not among the field's choices. -/
def checkChoice (f : Field) (v : Value) : Except Fault Unit :=
  match f.choices with
  | none => .ok ()
  | some choices =>
    if allows choices v then .ok ()
    else .error (.choiceViolation f.name v.render (choices.map Value.render))

def equal (f g : Field) : Bool :=
  f.name == g.name && f.type == g.type && f.isKey == g.isKey && f.nullable == g.nullable &&
    (match f.default, g.default with
      | none, none => true
      | some v, some w => v.equal w
      | _, _ => false) &&
    (match f.choices, g.choices with
      | none, none => true
      | some vs, some ws => Value.equalItems vs ws
      | _, _ => false)

end Field

/-- A struct with its rows. -/
structure Table where
  name : String
  fields : List Field
  /-- The name of the primary key field. -/
  key : Option String
  rows : List Instance
  /-- The position of a row by the text of its key. -/
  index : Entries Nat

namespace Table

def empty (name : String) : Table := ⟨name, [], none, [], []⟩

def field? (t : Table) (name : String) : Option Field := t.fields.find? (·.name == name)

def fieldNames (t : Table) : List String := t.fields.map Field.name

/-- Puts a field in the place of the one with its name, or last. -/
def placeField (f : Field) : List Field → List Field
  | [] => [f]
  | g :: more => if g.name = f.name then f :: more else g :: placeField f more

/-- Declares a field. A field that is declared again takes its old place; the last field marked as
primary key is the key. -/
def addField (t : Table) (f : Field) : Table :=
  { t with
    key := if f.isKey then some f.name else t.key
    fields := placeField f t.fields }

/-- The fault of naming a field that the struct does not have. -/
def unknownField (t : Table) (name : String) : Fault := .unknownField t.name name t.fieldNames

def changeFirst (name : String) (change : Field → Field) : List Field → List Field
  | [] => []
  | f :: more => if f.name = name then change f :: more else f :: changeFirst name change more

def changeField (t : Table) (name : String) (change : Field → Field) : Except Fault Table :=
  match t.field? name with
  | none => .error (t.unknownField name)
  | some _ => .ok { t with fields := changeFirst name change t.fields }

/-- Gives a field a default, or takes it away. -/
def setDefault (t : Table) (name : String) (default : Option Value) : Except Fault Table :=
  t.changeField name fun f => { f with default := default }

/-- Restricts a field to choices, or lifts the restriction. -/
def setChoices (t : Table) (name : String) (choices : Option (List Value)) : Except Fault Table :=
  t.changeField name fun f => { f with choices := choices }

def addRow (t : Table) (row : Instance) : Table := { t with rows := t.rows ++ [row] }

/-- Leaves out the row at a position, if there is one. -/
def removeRow (t : Table) (position : Nat) : Table := { t with rows := t.rows.eraseIdx position }

/-- The text under which a row is found: that of its key field, unless it is absent or null. -/
def keyText? (key : String) (row : Instance) : Option String :=
  match row.get? key with
  | some v => if v.isNull then none else some v.render
  | none => none

/-- The positions of rows by their key, the first of them at `position`; of rows with one text the
last counts. -/
def indexRows (key : String) (position : Nat) (index : Entries Nat) : List Instance → Entries Nat
  | [] => index
  | row :: rows =>
    let index :=
      match keyText? key row with
      | some text => Entries.insert text position index
      | none => index
    indexRows key (position + 1) index rows

/-- Builds the index from the rows as they are. -/
def buildIndex (t : Table) : Table :=
  { t with index := match t.key with | some key => indexRows key 0 [] t.rows | none => [] }

/-- The row with a key, by the index as it was last built. -/
def find? (t : Table) (key : String) : Option Instance :=
  (Entries.get? t.index key).bind fun position => t.rows[position]?

/-- Equality of the indices of two structs. -/
def equalIndex (a b : Entries Nat) : Bool :=
  a.length == b.length && a.all fun (key, position) => Entries.get? b key == some position

/-- Equality of structs: fields, key, rows and index. -/
def equal (t u : Table) : Bool :=
  t.name == u.name && t.key == u.key &&
    t.fields.length == u.fields.length && (t.fields.zip u.fields).all (fun (f, g) => f.equal g) &&
    t.rows.length == u.rows.length &&
      (t.rows.zip u.rows).all (fun (a, b) => Value.equalRows a b) &&
    equalIndex t.index u.index

end Table

end RowConfig
