import RowConfig.Number.Integer
import RowConfig.Value

/-!
# Output trees

What a document exports: a tree of scalars, arrays and objects with ordered keys, from which every
output format is written.
-/

namespace RowConfig

open Number

/-- An output tree. -/
inductive Node where
  | null
  | bool (b : Bool)
  | int (n : Int)
  | float (x : Binary64)
  | string (s : String)
  | array (items : List Node)
  | object (members : List (String × Node))

namespace Node

/-- An index written as decimal digits, perhaps after a plus sign; indices have 64 bits. -/
def index? (segment : String) : Option Nat :=
  let digits :=
    match segment.toList with
    | '+' :: cs => cs
    | cs => cs
  (natural? 10 digits).filter (· < UInt64.size)

/-- The node reached from a node by keys of objects and indices of arrays. -/
def at? (node : Node) : List String → Option Node
  | [] => some node
  | segment :: path =>
    match node with
    | object members => (Entries.get? members segment).bind (at? · path)
    | array items => ((index? segment).bind (items[·]?)).bind (at? · path)
    | _ => none

def members? : Node → Option (List (String × Node))
  | object members => some members
  | _ => none

def items? : Node → Option (List Node)
  | array items => some items
  | _ => none

def string? : Node → Option String
  | string s => some s
  | _ => none

end Node

namespace Value

mutual

/-- The output tree of a value. A reference shows the row that it holds, or null. -/
def toNode : Value → Node
  | null => .null
  | bool b => .bool b
  | int n => .int n
  | float x => .float x
  | text t => .string t.content
  | date s => .string s
  | time s => .string s
  | dateTime s => .string s
  | array items => .array (nodesOfItems items)
  | .instance row => nodeOfRow row
  | reference _ _ target => nodeOfTarget target

def nodesOfItems : List Value → List Node
  | [] => []
  | v :: vs => toNode v :: nodesOfItems vs

/-- The object of a row's fields. -/
def nodeOfRow : Record Value → Node
  | ⟨_, fields, _⟩ => .object (membersOfFields fields)

def membersOfFields : List (String × Value) → List (String × Node)
  | [] => []
  | (name, v) :: more => (name, toNode v) :: membersOfFields more

/-- The object of the row that a reference holds. -/
def nodeOfTarget : Option (Record Value) → Node
  | none => .null
  | some row => nodeOfRow row

end

end Value

end RowConfig
