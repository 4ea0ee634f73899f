import RowConfig.Node
import RowConfig.Table

/-!
# Documents

A document has globals and structs, each in the order of their first declaration. It exports its
globals, then the rows of every struct that has a primary key; other structs exist to be written
inside values.
-/

namespace RowConfig

/-- The globals and structs of a document. -/
structure Document where
  globals : Entries Value
  tables : Entries Table

namespace Document

def empty : Document := ⟨[], []⟩

def structNames (d : Document) : List String := Entries.names d.tables

def table? (d : Document) (name : String) : Option Table := Entries.get? d.tables name

def global? (d : Document) (name : String) : Option Value := Entries.get? d.globals name

def setGlobal (d : Document) (name : String) (v : Value) : Document :=
  { d with globals := Entries.insert name v d.globals }

def modifyTable (d : Document) (name : String) (change : Table → Table) : Document :=
  { d with tables := Entries.modify name change d.tables }

def buildIndexes (d : Document) : Document :=
  { d with tables := Entries.mapValues Table.buildIndex d.tables }

/-- Equality of documents; the order of declarations does not count. -/
def equal (d e : Document) : Bool :=
  d.globals.length == e.globals.length && Value.equalFields d.globals e.globals &&
    d.tables.length == e.tables.length &&
    d.tables.all fun (name, t) => (e.table? name).any t.equal

/-- The array of a struct's rows. -/
def rowsNode (t : Table) : Node := .array (t.rows.map Value.nodeOfRow)

/-- The entries that a document exports. A struct with the name of a global takes its place. -/
def exportEntries (d : Document) : Entries Node :=
  (d.tables.filter fun (_, t) => t.key.isSome).foldl
    (fun es (name, t) => Entries.insert name (rowsNode t) es)
    (Entries.mapValues Value.toNode d.globals)

def toNode (d : Document) : Node := .object (exportEntries d)

end Document

end RowConfig
