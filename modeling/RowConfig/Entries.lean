/-!
# Ordered entries

Globals, structs and the fields of a row are names with values, in the order in which the names
first came. They are lists of pairs; `insert` replaces the value of a known name in its place and
puts a new name last.
-/

namespace RowConfig

/-- Names with values, in order. -/
abbrev Entries (α : Type) := List (String × α)

namespace Entries

variable {α β ε : Type}

/-- The value of a name. -/
def get? : Entries α → String → Option α
  | [], _ => none
  | (k, v) :: more, name => if k = name then some v else get? more name

def names (es : Entries α) : List String := es.map Prod.fst

def values (es : Entries α) : List α := es.map Prod.snd

/-- Gives a name a value: in its place if it is known, else at the end. -/
def insert (name : String) (value : α) : Entries α → Entries α
  | [] => [(name, value)]
  | (k, v) :: more => if k = name then (k, value) :: more else (k, v) :: insert name value more

/-- Leaves a name out; the others keep their order. -/
def erase (name : String) : Entries α → Entries α
  | [] => []
  | (k, v) :: more => if k = name then more else (k, v) :: erase name more

/-- Changes the value of a name, if it is known. -/
def modify (name : String) (f : α → α) : Entries α → Entries α
  | [] => []
  | (k, v) :: more => if k = name then (k, f v) :: more else (k, v) :: modify name f more

/-- The entries of a list in which a later value of a name replaces the earlier one. -/
def ofList (pairs : List (String × α)) : Entries α :=
  pairs.foldl (fun es (name, value) => insert name value es) []

def mapValues (f : α → β) (es : Entries α) : Entries β := es.map fun (k, v) => (k, f v)

/-- Changes every value from first to last by a function that may fail; the first failure counts. -/
def tryMapValues (f : α → Except ε β) : Entries α → Except ε (Entries β)
  | [] => .ok []
  | (k, v) :: more =>
    match f v with
    | .error e => .error e
    | .ok w => (tryMapValues f more).map ((k, w) :: ·)

theorem get?_insert (es : Entries α) (name : String) (value : α) (k : String) :
    get? (insert name value es) k = if name = k then some value else get? es k := by
  induction es with
  | nil => simp [insert, get?]
  | cons e es ih =>
    obtain ⟨k', v'⟩ := e
    by_cases h : k' = name
    · subst h
      by_cases hk : k' = k <;> simp [insert, get?, hk]
    · by_cases hk : k' = k
      · subst hk; simp [insert, get?, h, Ne.symm h]
      · simp [insert, get?, h, hk, ih]

end Entries

end RowConfig
