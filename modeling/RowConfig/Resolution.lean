import RowConfig.Binding
import RowConfig.Linking
import RowConfig.Rendering

/-!
# Resolution

A document as it is written is resolved in four passes: inline rows are bound to their structs, the
key indexes are built, references are linked to the rows that they name, and templates are rendered.
-/

namespace RowConfig

/-- Resolves a document. -/
def Document.resolve (d : Document) : Except Fault Document :=
  match d.bind with
  | .error e => .error e
  | .ok bound => bound.buildIndexes.link.map Document.render

end RowConfig
