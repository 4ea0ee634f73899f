import RowConfig.Entries
import RowConfig.Location
import RowConfig.Number.Layout

/-!
# Values

The values of a document. A row of a struct is a `Record` of named values, whether it is written on
a line of its own or inside another value; a reference names a row by its key and, once it is
resolved, holds a copy of that row.
-/

namespace RowConfig

open Number

/-- Text, finished or waiting to be rendered. -/
inductive Text where
  | plain (text : String)
  /-- Text with placeholders. Escape sequences are still encoded if `escapes` is set. -/
  | template (source : String) (escapes : Bool)
deriving DecidableEq, Repr

/-- The characters of a text as they are stored. -/
def Text.content : Text → String
  | plain text => text
  | template source _ => source

/-- Named values of a struct. -/
structure Record (α : Type) where
  /-- The name of the struct. -/
  struct : String
  fields : List (String × α)
  /-- While the fields still hold the argument texts of an inline call: where the call is
  written. -/
  call : Option Location

/-- A value of a document. -/
inductive Value where
  | null
  | bool (b : Bool)
  | int (n : Int)
  | float (x : Binary64)
  | text (t : Text)
  | date (s : String)
  | time (s : String)
  | dateTime (s : String)
  | array (items : List Value)
  | instance (row : Record Value)
  | reference (struct key : String) (target : Option (Record Value))

/-- A row of a struct. -/
abbrev Instance := Record Value

/-- A row whose fields hold values. -/
def Record.ofFields {α : Type} (struct : String) (fields : Entries α) : Record α :=
  ⟨struct, fields, none⟩

/-- The fields hold values, not argument texts. -/
def Record.isBound {α : Type} (r : Record α) : Bool := r.call.isNone

def Record.get? {α : Type} (r : Record α) (field : String) : Option α := Entries.get? r.fields field

namespace Value

/-- The word for the kind of a value. -/
def kind : Value → String
  | null => "null"
  | bool _ => "bool"
  | int _ => "int"
  | float _ => "float"
  | text _ => "str"
  | date _ => "date"
  | time _ => "time"
  | dateTime _ => "datetime"
  | array _ => "array"
  | .instance _ => "instance"
  | reference .. => "reference"

def isNull : Value → Bool
  | null => true
  | _ => false

/-- The text of a value that is stored as text. -/
def asText? : Value → Option String
  | text t => some t.content
  | date s | time s | dateTime s => some s
  | _ => none

/-- A field of an instance, or of the row that a resolved reference holds. -/
def field? (v : Value) (name : String) : Option Value :=
  match v with
  | .instance row => row.get? name
  | reference _ _ (some row) => row.get? name
  | _ => none

/-- Floats in texts have no point if they are whole, and a tie between shortest decimals goes away
from zero. -/
def floatLayout : Layout := ⟨.away, "", "", "NaN", "inf", "-inf"⟩

/-- The text of a value, as templates show it and as primary keys are compared. Arrays, instances
and null have the empty text. -/
def render : Value → String
  | bool b => toString b
  | int n => toString n
  | float x => floatLayout.render x
  | text t => t.content
  | date s | time s | dateTime s => s
  | reference _ key _ => key
  | null | array _ | .instance _ => ""

mutual

/-- A one-line description of a value. -/
def display : Value → String
  | null => "null"
  | array items => "[" ++ ", ".intercalate (displayItems items) ++ "]"
  | .instance row => displayRow row
  | reference struct key _ => struct ++ "(" ++ key ++ ")"
  | bool b => render (bool b)
  | int n => render (int n)
  | float x => render (float x)
  | text t => render (text t)
  | date s => s
  | time s => s
  | dateTime s => s

def displayItems : List Value → List String
  | [] => []
  | v :: vs => display v :: displayItems vs

def displayRow : Record Value → String
  | ⟨struct, fields, _⟩ => struct ++ "(" ++ ", ".intercalate (displayFields fields) ++ ")"

def displayFields : List (String × Value) → List String
  | [] => []
  | (name, v) :: more => (name ++ ": " ++ display v) :: displayFields more

end

mutual

/-- Equality of values. Floats compare as numbers, and the order of an instance's fields does not
count. -/
def equal : Value → Value → Bool
  | null, null => true
  | bool a, bool b => a == b
  | int a, int b => a == b
  | float a, float b => a.equal b
  | text a, text b => a == b
  | date a, date b => a == b
  | time a, time b => a == b
  | dateTime a, dateTime b => a == b
  | array a, array b => equalItems a b
  | .instance a, .instance b => equalRows a b
  | reference s k t, reference s' k' t' => s == s' && k == k' && equalTargets t t'
  | _, _ => false

def equalItems : List Value → List Value → Bool
  | [], [] => true
  | a :: as, b :: bs => equal a b && equalItems as bs
  | _, _ => false

def equalRows : Record Value → Record Value → Bool
  | ⟨s, fs, c⟩, r =>
    s == r.struct && fs.length == r.fields.length && c == r.call && equalFields fs r.fields

/-- Each named value has an equal one of the same name in `others`. -/
def equalFields : List (String × Value) → List (String × Value) → Bool
  | [], _ => true
  | (name, v) :: more, others =>
    (match Entries.get? others name with
      | some w => equal v w
      | none => false) && equalFields more others

def equalTargets : Option (Record Value) → Option (Record Value) → Bool
  | none, none => true
  | some a, some b => equalRows a b
  | _, _ => false

end

end Value

end RowConfig
