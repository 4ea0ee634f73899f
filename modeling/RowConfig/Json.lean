import RowConfig.Node

/-!
# JSON

Output trees as JSON, on one line or indented. A float that is not finite becomes `null`, which is
the only thing lost.
-/

namespace RowConfig.Json

open Number

/-- Whole floats keep a point, powers of ten have a sign, and ties go to the even digit. Words for
what is not finite are never used. -/
def floatLayout : Layout := ⟨.even, ".0", "+", "null", "null", "null"⟩

/-- The text of a float. -/
def renderFloat (x : Binary64) : String := if x.isFinite then floatLayout.render x else "null"

/-- A hexadecimal digit in lower case. -/
def hexDigit (n : Nat) : Char := Nat.digitChar n

/-- A character inside quotes: quote, backslash and control characters are escaped. -/
def escapeChar (c : Char) : List Char :=
  if c = '"' then ['\\', '"']
  else if c = '\\' then ['\\', '\\']
  else if c = '\x08' then ['\\', 'b']
  else if c = '\x0C' then ['\\', 'f']
  else if c = '\n' then ['\\', 'n']
  else if c = '\r' then ['\\', 'r']
  else if c = '\t' then ['\\', 't']
  else if c.toNat < 0x20 then
    ['\\', 'u', '0', '0', hexDigit (c.toNat / 16), hexDigit (c.toNat % 16)]
  else [c]

def quoted (s : String) : String :=
  String.ofList ('"' :: s.toList.flatMap escapeChar ++ ['"'])

mutual

/-- A tree on one line, without blanks. -/
def render : Node → String
  | .null => "null"
  | .bool b => toString b
  | .int n => toString n
  | .float x => renderFloat x
  | .string s => quoted s
  | .array items => "[" ++ ",".intercalate (renderItems items) ++ "]"
  | .object members => "\x7b" ++ ",".intercalate (renderMembers members) ++ "\x7d"

def renderItems : List Node → List String
  | [] => []
  | n :: ns => render n :: renderItems ns

def renderMembers : List (String × Node) → List String
  | [] => []
  | (key, n) :: more => (quoted key ++ ":" ++ render n) :: renderMembers more

end

/-- The margin of a line at some depth: two blanks for each level. -/
def margin (depth : Nat) : String := String.ofList (List.replicate (2 * depth) ' ')

/-- Parts between brackets, each on a line of its own one level deeper. -/
def bracketed (opening closing : String) (depth : Nat) (parts : List String) : String :=
  if parts.isEmpty then opening ++ closing
  else
    opening ++ "\n" ++ ",\n".intercalate (parts.map (margin (depth + 1) ++ ·)) ++ "\n" ++
      margin depth ++ closing

mutual

/-- A tree with each element and member on a line of its own. -/
def renderIndented (depth : Nat) : Node → String
  | .null => "null"
  | .bool b => toString b
  | .int n => toString n
  | .float x => renderFloat x
  | .string s => quoted s
  | .array items => bracketed "[" "]" depth (renderIndentedItems (depth + 1) items)
  | .object members => bracketed "\x7b" "\x7d" depth (renderIndentedMembers (depth + 1) members)
termination_by structural n => n

def renderIndentedItems (depth : Nat) : List Node → List String
  | [] => []
  | n :: ns => renderIndented depth n :: renderIndentedItems depth ns
termination_by structural ns => ns

def renderIndentedMembers (depth : Nat) : List (String × Node) → List String
  | [] => []
  | (key, n) :: more =>
    (quoted key ++ ": " ++ renderIndented depth n) :: renderIndentedMembers depth more
termination_by structural members => members

end

mutual

/-- A tree with the members of every object in the order of their keys, by code point. -/
def sortKeys : Node → Node
  | .array items => .array (sortItems items)
  | .object members =>
    .object ((sortMembers members).mergeSort fun a b => decide (¬ b.1 < a.1))
  | .null => .null
  | .bool b => .bool b
  | .int n => .int n
  | .float x => .float x
  | .string s => .string s

def sortItems : List Node → List Node
  | [] => []
  | n :: ns => sortKeys n :: sortItems ns

def sortMembers : List (String × Node) → List (String × Node)
  | [] => []
  | (key, n) :: more => (key, sortKeys n) :: sortMembers more

end

end RowConfig.Json
