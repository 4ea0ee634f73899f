import RowConfig.Document
import RowConfig.Reader

/-!
# Binding

Binding types the argument texts of inline rows against the structs that are declared in the end,
gives every instance the fields of its struct in their order, and fills absent fields from defaults.
A default may hold further inline rows, which are bound in turn; the depth to which instances may
nest is bounded, so that a struct whose default holds itself is found out.
-/

namespace RowConfig

open Chars Number

/-- The greatest depth to which instances may nest. -/
def maxDepth : Nat := 64

/-- The end of a path from the last place where it was at its final step before. -/
def repeatingTail (path : List String) : List String :=
  match path.getLast? with
  | none => path
  | some last =>
    let earlier := path.dropLast
    let since := (earlier.reverse.takeWhile (· != last)).length
    if since < earlier.length then path.drop (earlier.length - 1 - since) else path

namespace Binding

/-- The number of a position fits a 64-bit word. -/
def positionBound : Nat := UInt64.size

/-- The position that the name of a positional argument stands for. A plus sign may stand before its
digits, though no identifier has one. -/
def position? (name : String) : Option Nat :=
  (stripStart? "_arg".toList name.toList).bind fun digits =>
    (natural? 10 ((stripStart? ['+'] digits).getD digits)).filter (· < positionBound)

/-- One more than the greatest position among the names of arguments; zero where there are no
positional arguments. The sum is computed in a 64-bit word, where one more than the last position of
all overflows. -/
def countPositions (names : List String) : Except Fault Nat :=
  match (names.filterMap position?).max? with
  | none => .ok 0
  | some last => if last + 1 < positionBound then .ok (last + 1) else .error .overflow

/-- The field that an argument is for. -/
def fieldFor (t : Table) (count : Nat) (name : String) : Except Fault Field :=
  match position? name with
  | some position =>
    match t.fields[position]? with
    | some field => .ok field
    | none => .error (.tooManyArguments t.name count t.fields.length)
  | none =>
    match t.field? name with
    | some field => .ok field
    | none => .error (t.unknownField name)

/-- Types the arguments of an inline row, `count` being the number of positions among all of
them. -/
def typeArguments (r : Reader) (t : Table) (count : Nat) (typed : Entries Value) :
    List (String × Value) → Except Fault (Entries Value)
  | [] => .ok typed
  | (name, token) :: more =>
    match fieldFor t count name with
    | .error e => .error e
    | .ok field =>
      match r.readFor token.render.toList field with
      | .error e => .error e
      | .ok v => typeArguments r t count (Entries.insert field.name v typed) more

/-- Types all arguments of an inline row. Positions are counted before anything is typed. -/
def typeCall (r : Reader) (t : Table) (arguments : Entries Value) : Except Fault (Entries Value) :=
  match countPositions (Entries.names arguments) with
  | .error e => .error e
  | .ok count => typeArguments r t count [] arguments

/-- The fields of a struct in their order, each with its value among `present`, else its default,
else null; the values that the struct has no field for follow in their order. The fields have
different names: a struct keeps one field of a name (`Table.addField`). -/
def arrange : List Field → Entries Value → Entries Value
  | [], present => present
  | f :: more, present =>
    let value := ((Entries.get? present f.name).orElse fun _ => f.default).getD .null
    (f.name, value) :: arrange more (Entries.erase f.name present)

/-- The typed and arranged fields of an instance; what they hold is not yet bound. An instance of a
struct that is not declared stays as it is. -/
def arrangeInstance (tables : Entries Table) (row : Instance) : Except Fault Instance :=
  match Entries.get? tables row.struct with
  | none => .ok row
  | some t =>
    let present : Except Fault (Entries Value) :=
      match row.call with
      | none => .ok row.fields
      | some location => typeCall ⟨tables, location⟩ t row.fields
    present.map fun fields => .ofFields row.struct (arrange t.fields fields)

mutual

/-- Replaces the instances of a value, inside arrays too, but not those inside instances. -/
def mapInstances (bind : Instance → Except Fault Instance) : Value → Except Fault Value
  | .array items => (mapItems bind items).map .array
  | .instance row => (bind row).map .instance
  | v => .ok v

def mapItems (bind : Instance → Except Fault Instance) : List Value → Except Fault (List Value)
  | [] => .ok []
  | v :: vs =>
    match mapInstances bind v with
    | .error e => .error e
    | .ok w => (mapItems bind vs).map (w :: ·)

end

/-- Binds an instance inside instances of the structs on `path`, with `depth` levels to go. -/
def bindWithin (tables : Entries Table) : Nat → List String → Instance → Except Fault Instance
  | 0, path, row => .error (.circular (repeatingTail (path ++ [row.struct])))
  | depth + 1, path, row =>
    match arrangeInstance tables row with
    | .error e => .error e
    | .ok row =>
      let inner := bindWithin tables depth (path ++ [row.struct])
      (Entries.tryMapValues (mapInstances inner) row.fields).map fun fields =>
        { row with fields := fields }

end Binding

open Binding

/-- Binds an instance and everything in it. -/
def bindInstance (tables : Entries Table) (row : Instance) : Except Fault Instance :=
  bindWithin tables maxDepth [] row

def bindValue (tables : Entries Table) (v : Value) : Except Fault Value :=
  mapInstances (bindInstance tables) v

def bindRows (tables : Entries Table) : List Instance → Except Fault (List Instance)
  | [] => .ok []
  | row :: rows =>
    match bindInstance tables row with
    | .error e => .error e
    | .ok bound => (bindRows tables rows).map (bound :: ·)

/-- Binds the globals and rows of a document against its structs. -/
def Document.bind (d : Document) : Except Fault Document :=
  match Entries.tryMapValues (bindValue d.tables) d.globals with
  | .error e => .error e
  | .ok globals =>
    (Entries.tryMapValues
      (fun t => (bindRows d.tables t.rows).map fun rows => { t with rows := rows }) d.tables).map
      fun tables => ⟨globals, tables⟩

end RowConfig
