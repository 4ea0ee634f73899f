/-!
# Physical lines

A text is cut at line feeds. A carriage return right before a line feed belongs to the line break,
and a line feed that ends the text starts no further line.
-/

namespace RowConfig.Chars

/-- The physical lines of a text, without their line breaks. -/
def lines : List Char → List (List Char)
  | [] => []
  | '\r' :: '\n' :: cs => [] :: lines cs
  | '\n' :: cs => [] :: lines cs
  | c :: cs =>
    match lines cs with
    | [] => [[c]]
    | l :: ls => (c :: l) :: ls

end RowConfig.Chars
