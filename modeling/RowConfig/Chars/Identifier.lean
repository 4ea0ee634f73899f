/-!
# Identifiers

Names of structs, fields and globals are ASCII: a letter or underscore, then letters, digits and
underscores.
-/

namespace RowConfig.Chars

/-- An ASCII letter or an underscore. -/
def isIdentifierStart (c : Char) : Bool := c.isAlpha || c == '_'

/-- An ASCII letter or digit, or an underscore. -/
def isIdentifierPart (c : Char) : Bool := c.isAlphanum || c == '_'

/-- The text is an identifier from end to end. -/
def isIdentifier : List Char → Bool
  | [] => false
  | c :: cs => isIdentifierStart c && cs.all isIdentifierPart

/-- The identifier at the start of a text, empty where none starts. A run that begins with a digit
is no identifier, and neither is a part of it. -/
def leadingIdentifier (cs : List Char) : List Char :=
  let run := cs.takeWhile isIdentifierPart
  if isIdentifier run then run else []

end RowConfig.Chars
