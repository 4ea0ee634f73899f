import RowConfig.Location

/-!
# Carets under a line

A line is displayed with its tabs as blanks up to the next tab stop (`Displays`), so the width of a
character depends on everything before it. What is displayed of a text in two parts is what is
displayed of the first, and then of the second from where the first ends (`expandTabs_append`);
hence the carets begin under the character of their column, whatever mix of tabs stands before it
(`carets_exact`).
-/

namespace RowConfig.Location

/-- What is displayed of a character from a column of the display on: of a tab the blanks up to the
next multiple of 8, at least one, and of every other character the character. -/
inductive DisplaysChar (start : Nat) : Char → List Char → Prop where
  | tab (n : Nat) (pos : 1 ≤ n) (stop : 8 ∣ start + n) (next : ∀ m, 1 ≤ m → 8 ∣ start + m → n ≤ m) :
    DisplaysChar start '\t' (List.replicate n ' ')
  | other (c : Char) (h : c ≠ '\t') : DisplaysChar start c [c]

/-- What is displayed of a text, character by character, from a column of the display on. -/
inductive Displays : Nat → List Char → List Char → Prop where
  | nil (start : Nat) : Displays start [] []
  | cons {start : Nat} {c : Char} {cs shown more : List Char} (first : DisplaysChar start c shown)
    (rest : Displays (start + shown.length) cs more) : Displays start (c :: cs) (shown ++ more)

variable {start : Nat} {c : Char} {cs ds shown : List Char}

/-! ## One character -/

/-- The display of one character as `expandTabs` makes it. -/
def expandChar (start : Nat) (c : Char) : List Char :=
  if c = '\t' then List.replicate (charWidth start c) ' ' else [c]

theorem length_expandChar (start : Nat) (c : Char) :
    (expandChar start c).length = charWidth start c := by
  unfold expandChar
  split
  · exact List.length_replicate
  · next hc => rw [charWidth, if_neg hc]; rfl

theorem charWidth_pos (start : Nat) (c : Char) : 0 < charWidth start c := by
  unfold charWidth tabWidth
  split <;> omega

theorem tab_not_mem_expandChar (start : Nat) (c : Char) : '\t' ∉ expandChar start c := by
  unfold expandChar
  split
  · exact fun h => absurd (List.eq_of_mem_replicate h) (by decide)
  · next hc => exact fun h => hc (List.mem_singleton.mp h).symm

/-- A tab is displayed as blanks, of which there is at least one. -/
theorem head?_expandChar (start : Nat) (c : Char) :
    (expandChar start c).head? = some (if c = '\t' then ' ' else c) := by
  have hpos := charWidth_pos start c
  unfold expandChar
  split
  · rw [List.head?_replicate, if_neg (Nat.ne_of_gt hpos)]
  · rfl

/-- The width of a tab is the distance to the next tab stop. -/
theorem displaysChar_iff : DisplaysChar start c shown ↔ shown = expandChar start c := by
  constructor
  · intro h
    cases h with
    | tab n pos stop next =>
        have hn : n = charWidth start '\t' := by
          have hnext := next (8 - start % 8) (by omega) (by omega)
          show n = 8 - start % 8
          omega
        rw [hn]
        rfl
    | other _ hc => rw [expandChar, if_neg hc]
  · rintro rfl
    unfold expandChar
    split
    · next hc =>
      subst hc
      have hwidth : charWidth start '\t' = 8 - start % 8 := rfl
      rw [hwidth]
      exact .tab _ (by omega) (by omega) fun m _ _ => by omega
    · next hc => exact .other c hc

/-! ## A text -/

theorem expandTabs_cons (start : Nat) (c : Char) (cs : List Char) :
    expandTabs start (c :: cs) =
      expandChar start c ++ expandTabs (start + (expandChar start c).length) cs := by
  rw [length_expandChar]
  rfl

theorem displays_iff : Displays start cs shown ↔ shown = expandTabs start cs := by
  constructor
  · intro h
    induction h with
    | nil => rfl
    | cons first _ ih => rw [expandTabs_cons, ← displaysChar_iff.mp first, ih]
  · rintro rfl
    induction cs generalizing start with
    | nil => exact .nil start
    | cons c cs ih =>
        rw [expandTabs_cons]
        exact .cons (displaysChar_iff.mpr rfl) ih

theorem tab_not_mem_expandTabs (start : Nat) (cs : List Char) : '\t' ∉ expandTabs start cs := by
  induction cs generalizing start with
  | nil => exact List.not_mem_nil
  | cons c cs ih =>
      rw [expandTabs_cons, List.mem_append, not_or]
      exact ⟨tab_not_mem_expandChar start c, ih _⟩

/-- The width of a text is the number of characters displayed for it. -/
theorem widthFrom_eq (start : Nat) (cs : List Char) :
    widthFrom start cs = start + (expandTabs start cs).length := by
  induction cs generalizing start with
  | nil => rfl
  | cons c cs ih =>
      rw [expandTabs_cons, List.length_append, length_expandChar, ← Nat.add_assoc, ← ih]
      rfl

/-- The second part of a text is displayed from where the first ends. -/
theorem expandTabs_append (start : Nat) (cs ds : List Char) :
    expandTabs start (cs ++ ds) =
      expandTabs start cs ++ expandTabs (start + (expandTabs start cs).length) ds := by
  induction cs generalizing start with
  | nil => rfl
  | cons c cs ih =>
      rw [List.cons_append, expandTabs_cons, expandTabs_cons, ih, List.append_assoc,
        List.length_append, Nat.add_assoc]

/-- Behind the display of what stands before a character comes that character. -/
theorem getElem?_expandTabs (start : Nat) {i : Nat} (h : cs[i]? = some c) :
    (expandTabs start cs)[(expandTabs start (cs.take i)).length]? =
      some (if c = '\t' then ' ' else c) := by
  obtain ⟨hi, hc⟩ := List.getElem?_eq_some_iff.mp h
  have hcs : cs = cs.take i ++ c :: cs.drop (i + 1) := by
    rw [← hc, List.getElem_cons_drop, List.take_append_drop]
  generalize cs.take i = before at hcs ⊢
  rw [hcs, expandTabs_append, List.getElem?_append_right (Nat.le_refl _), Nat.sub_self,
    expandTabs_cons, ← List.head?_eq_getElem?, List.head?_append, head?_expandChar]
  rfl

/-- The display of a line holds no tab, and is the line with each tab replaced by the blanks up to
the next multiple of 8. For a column of the line, the carets begin behind as many blanks as the
display of the characters before it is wide, under the character of that column; for any other
column they begin at the end of the display. -/
theorem carets_exact (l : Location) :
    '\t' ∉ l.displayedLine.toList ∧
    (∀ shown, Displays 0 l.text.toList shown ↔ shown = l.displayedLine.toList) ∧
    ∃ blanks : Nat,
      l.carets.toList = List.replicate blanks ' ' ++ List.replicate (max l.length 1) '^' ∧
      (∀ i c, l.text.toList[i]? = some c → l.column = i + 1 →
        (∃ shown, Displays 0 (l.text.toList.take i) shown ∧ blanks = shown.length) ∧
        l.displayedLine.toList[blanks]? = some (if c = '\t' then ' ' else c)) ∧
      (l.column = 0 ∨ l.text.toList.length < l.column →
        blanks = l.displayedLine.toList.length) := by
  have hline : l.displayedLine.toList = expandTabs 0 l.text.toList := String.toList_ofList
  rw [hline]
  refine ⟨tab_not_mem_expandTabs 0 _, fun shown => displays_iff, l.caretColumn, ?_, ?_, ?_⟩
  · rw [carets, blanks, String.toList_append, String.toList_ofList, String.toList_ofList]
  · intro i c hc hcolumn
    obtain ⟨hi, -⟩ := List.getElem?_eq_some_iff.mp hc
    have hcaret : l.caretColumn = (expandTabs 0 (l.text.toList.take i)).length := by
      rw [caretColumn, if_pos (by omega), hcolumn, Nat.add_sub_cancel, widthFrom_eq, Nat.zero_add]
    rw [hcaret]
    exact ⟨⟨_, displays_iff.mpr rfl, rfl⟩, getElem?_expandTabs 0 hc⟩
  · intro hcolumn
    rw [caretColumn, if_neg (by omega), widthFrom_eq, Nat.zero_add]

/-- A location whose column is that of the second tab. -/
def secondTab : Location := ⟨none, 1, 4, 0, "a\tb\tc"⟩

theorem carets_exact_secondTab :
    secondTab.text.toList[3]? = some '\t' ∧ secondTab.column = 3 + 1 ∧
      secondTab.carets = "         ^" ∧ secondTab.displayedLine.toList[9]? = some ' ' := by
  have hcaret : secondTab.carets = "         ^" := by decide
  obtain ⟨-, -, blanks, hcarets, hcolumn, -⟩ := carets_exact secondTab
  have hshown := (hcolumn 3 '\t' rfl rfl).2
  have hblanks : blanks = 9 := by
    have hlength := congrArg List.length hcarets
    rw [hcaret, List.length_append, List.length_replicate, List.length_replicate] at hlength
    have hnumber : 10 = blanks + 1 := hlength
    omega
  rw [hblanks] at hshown
  exact ⟨rfl, rfl, hcaret, hshown⟩

end RowConfig.Location
