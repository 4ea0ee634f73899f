/-!
# Known parts of a text

`stripStart? p cs` and `stripEnd? p cs` remove `p` from one end of `cs` where it stands there;
`splitOnce?` and `splitAll` cut a text at a separator.
-/

namespace RowConfig.Chars

/-- What follows `p` at the start of a text. -/
def stripStart? : List Char → List Char → Option (List Char)
  | [], cs => some cs
  | _ :: _, [] => none
  | p :: ps, c :: cs => if p = c then stripStart? ps cs else none

/-- What precedes `p` at the end of a text. -/
def stripEnd? (p cs : List Char) : Option (List Char) :=
  (stripStart? p.reverse cs.reverse).map List.reverse

theorem stripStart?_eq_some_iff {p cs rest : List Char} :
    stripStart? p cs = some rest ↔ cs = p ++ rest := by
  induction p generalizing cs with
  | nil => simp [stripStart?, eq_comm]
  | cons a p ih =>
    cases cs with
    | nil => simp [stripStart?]
    | cons c cs =>
      by_cases h : a = c
      · subst h; simp [stripStart?, ih]
      · simp [stripStart?, h, Ne.symm h]

theorem stripEnd?_eq_some_iff {p cs rest : List Char} :
    stripEnd? p cs = some rest ↔ cs = rest ++ p := by
  simp only [stripEnd?, Option.map_eq_some_iff, stripStart?_eq_some_iff]
  constructor
  · rintro ⟨a, h, rfl⟩
    -- turn the equation of the reversed texts around
    have := congrArg List.reverse h
    simpa using this
  · rintro rfl
    exact ⟨rest.reverse, by simp⟩

/-- The parts before and after the first `sep`. -/
def splitOnce? (sep : Char) : List Char → Option (List Char × List Char)
  | [] => none
  | c :: cs =>
    if c = sep then some ([], cs)
    else (splitOnce? sep cs).map fun (before, after) => (c :: before, after)

theorem splitOnce?_eq_some {sep : Char} {cs before after : List Char}
    (h : splitOnce? sep cs = some (before, after)) : cs = before ++ sep :: after := by
  induction cs generalizing before with
  | nil => simp [splitOnce?] at h
  | cons c cs ih =>
    by_cases hc : c = sep
    · simp [splitOnce?, hc] at h
      obtain ⟨rfl, rfl⟩ := h
      simp [hc]
    · simp only [splitOnce?, hc, if_false, Option.map_eq_some_iff] at h
      obtain ⟨⟨b, a⟩, hb, h⟩ := h
      obtain ⟨rfl, rfl⟩ := by simpa using h
      simp [ih hb]

theorem length_lt_of_splitOnce? {sep : Char} {cs before after : List Char}
    (h : splitOnce? sep cs = some (before, after)) : after.length < cs.length := by
  rw [splitOnce?_eq_some h]
  simp only [List.length_append, List.length_cons]
  omega

/-- The parts between separators; there is at least one. -/
def splitAll (sep : Char) : List Char → List (List Char)
  | [] => [[]]
  | c :: cs => if c = sep then [] :: splitAll sep cs else (splitAll sep cs).modifyHead (c :: ·)

end RowConfig.Chars
