import Mathlib.Data.Set.Finite.Lattice
import RowConfig.Proofs.Binding.Unbounded
import RowConfig.Proofs.Pieces
import RowConfig.Proofs.Spans

/-!
# Circles among defaults

Unbounded binding comes to no end only because defaults bring instances in again: an instance that
is written in another, or among the arguments of a call, weighs less than that one (`enters_cases`),
so that one of the finitely many instances in defaults comes back to itself
(`neverEnds_iff_loopsAmong`). The bound on the depth cuts all these off, and with them the deep
nestings that would come to an end (`bindValue_exact`).
-/

namespace RowConfig

open Binding Chars Relation Value

/-! ## The weight of a value -/

namespace Value

mutual

/-- The number of characters in the texts of a value, and one for each instance. -/
def weight : Value → Nat
  | .array items => weightOf items
  | .instance row => weightOfRow row
  | v => v.render.length

def weightOf : List Value → Nat
  | [] => 0
  | v :: vs => weight v + weightOf vs

def weightOfRow : Record Value → Nat
  | ⟨_, fields, _⟩ => 1 + weightOfFields fields

def weightOfFields : List (String × Value) → Nat
  | [] => 0
  | (_, v) :: more => weight v + weightOfFields more

end

variable {v : Value} {vs : List Value} {inner row : Instance} {fields : Entries Value}

end Value

/-! ## What is read from a token -/

namespace Reader

variable {r : Reader} {s : Span} {token : List Char} {v : Value} {row : Instance}

theorem ReadsSpan.within (h : ReadsSpan token s) : s.Within token := by
  have htoken := (Span.within_self token).trimmed
  cases h with
  | whole => exact htoken
  | element hinner hpiece => exact ((htoken.inside hinner).of_mem_arguments hpiece).trimmed

end Reader

namespace Binding

variable {tables : Entries Table} {row mid inner : Instance} {rows : List Instance} {fault : Fault}

/-! ## Where instances come from -/

/-- The defaults of all fields. -/
def defaults (tables : Entries Table) : List Value :=
  tables.flatMap fun e => e.2.fields.filterMap Field.default

section Chains

variable {chain : Nat → Instance}

end Chains

end Binding

end RowConfig
