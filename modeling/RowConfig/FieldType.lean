import RowConfig.Chars.Blank
import RowConfig.Chars.Affix

/-!
# Types of fields

A field holds values of a scalar type, or arrays of them. A name that is no built-in type is the
name of a struct, declared or not.
-/

namespace RowConfig

open Chars

/-- The type of one value. -/
inductive ScalarType where
  | bool
  | int
  | float
  | str
  | date
  | time
  | dateTime
  /-- Rows of a struct, written `Name(…)`. -/
  | struct (name : String)
deriving DecidableEq, Repr

namespace ScalarType

/-- The type that a name stands for in a declaration. -/
def ofName : String → ScalarType
  | "bool" => bool
  | "int" => int
  | "float" => float
  | "str" => str
  | "date" => date
  | "time" => time
  | "datetime" => dateTime
  | name => struct name

def name : ScalarType → String
  | bool => "bool"
  | int => "int"
  | float => "float"
  | str => "str"
  | date => "date"
  | time => "time"
  | dateTime => "datetime"
  | struct name => name

def isStruct : ScalarType → Bool
  | struct _ => true
  | _ => false

end ScalarType

/-- The type of a field: a scalar type or an array of it. -/
structure FieldType where
  scalar : ScalarType
  array : Bool
deriving DecidableEq, Repr

namespace FieldType

/-- The mark of an array type. -/
def arrayMark : List Char := ['[', ']']

/-- Reads a descriptor such as `int` or `Host[]`. -/
def ofDescriptor (cs : List Char) : FieldType :=
  let cs := trim cs
  match stripEnd? arrayMark cs with
  | some element => ⟨.ofName (String.ofList (trimEnd element)), true⟩
  | none => ⟨.ofName (String.ofList cs), false⟩

def element (t : FieldType) : FieldType := { t with array := false }

def display (t : FieldType) : String := t.scalar.name ++ if t.array then "[]" else ""

end FieldType

end RowConfig
