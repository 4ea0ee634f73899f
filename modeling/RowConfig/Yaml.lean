import RowConfig.Node
import RowConfig.Yaml.Scalar

/-!
# YAML

Output trees in the block style of YAML. Elements of a sequence begin with a dash, members of a
mapping with their key; a sequence that is the value of a key is not indented further. Empty
collections are written in brackets.
-/

namespace RowConfig.Yaml

open Number

/-- Whole floats keep a point, and ties go to the even digit. -/
def floatLayout : Layout := ⟨.even, ".0", "", ".nan", ".inf", "-.inf"⟩

/-- Ends a line, unless the text ends with a line break already. -/
def terminated (cs : List Char) : List Char :=
  if cs.getLast?.any isBreak then cs else cs ++ ['\n']

/-- What stands between a dash or a colon and a nested collection. -/
inductive Lead where
  /-- The collection begins on the same line. -/
  | sameLine
  /-- The collection begins on the next line. -/
  | nextLine
deriving DecidableEq, Repr

/-- A key and its colon, and where a nested collection begins after it. A key that does not fit on
the line of its value is marked with `?`. -/
def renderKey (indent : Nat) (key : List Char) : List Char × Lead :=
  if isSimpleKey key then (renderString (indent + 2) key ++ [':'], .nextLine)
  else
    ('?' :: ' ' :: terminated (renderString (indent + 2) key) ++ blanks indent ++ [':'], .sameLine)

/-- A collection that is the value of a key; `shift` is its indentation below the key where it
begins on the next line. -/
def nested (indent shift : Nat) (render : Nat → List Char) : Lead → List Char
  | .sameLine => ' ' :: render (indent + 2)
  | .nextLine => '\n' :: blanks (indent + shift) ++ render (indent + shift)

mutual

/-- A tree after a dash or a colon of a collection that is indented by `indent`, to the end of its
last line. Scalars and empty collections follow on the line. -/
def renderAfter (indent : Nat) (lead : Lead) : Node → List Char
  | .null => " null\n".toList
  | .bool b => ' ' :: (toString b).toList ++ ['\n']
  | .int n => ' ' :: (toString n).toList ++ ['\n']
  | .float x => ' ' :: (floatLayout.render x).toList ++ ['\n']
  | .string s => ' ' :: terminated (renderString (indent + 2) s.toList)
  | .array items =>
    if items.isEmpty then " []\n".toList
    else nested indent 0 (fun indent => renderSequence indent true items) lead
  | .object members =>
    if members.isEmpty then " \x7b\x7d\n".toList
    else nested indent 2 (fun indent => renderMapping indent true members) lead
termination_by structural n => n

/-- The elements of a sequence; the first stands where the text is if `placed`. -/
def renderSequence (indent : Nat) (placed : Bool) : List Node → List Char
  | [] => []
  | n :: ns =>
    (if placed then [] else blanks indent) ++
      '-' :: renderAfter indent .sameLine n ++ renderSequence indent false ns
termination_by structural ns => ns

/-- The members of a mapping; the first stands where the text is if `placed`. -/
def renderMapping (indent : Nat) (placed : Bool) : List (String × Node) → List Char
  | [] => []
  | (key, n) :: more =>
    (if placed then [] else blanks indent) ++
      (renderKey indent key.toList).1 ++ renderAfter indent (renderKey indent key.toList).2 n ++
      renderMapping indent false more
termination_by structural members => members

end

/-- A whole tree. -/
def render (n : Node) : String :=
  String.ofList <|
    match n with
    | .array (n :: ns) => renderSequence 0 true (n :: ns)
    | .object (m :: ms) => renderMapping 0 true (m :: ms)
    | n => (renderAfter 0 .sameLine n).drop 1

end RowConfig.Yaml
