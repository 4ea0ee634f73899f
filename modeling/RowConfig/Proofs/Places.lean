import RowConfig.Proofs.Assembly.Origins
import RowConfig.Proofs.Inclusion
import RowConfig.Proofs.LineGrammar
import RowConfig.Proofs.Pieces
import RowConfig.Proofs.Reading.Faults
import RowConfig.Proofs.Rows
import RowConfig.Proofs.Spans

/-!
# Where faults of reading point

A token is a part of a logical line, or of a row that goes on over several of them. Its location is
counted from the start of the logical line in which it begins, and laid on the first physical line
of that one. So what a fault reports to have found stands in the text on from the logical line, as
many characters behind its start as the location says (`Fault.ReportsAt`), and on the physical line
itself if it ends within what the two lines have in common (`pointsInto_of_readDocument`).
-/

namespace RowConfig

open Chars

/-! ## Parts of lines -/

/-- The part stands in the line at its offset. -/
def Part.StandsIn (line : List Char) (p : Part) : Prop :=
  ∃ front back, line = front ++ (p.text ++ back) ∧ p.offset = byteSize front

section Parts

variable {line u v w cs before value : List Char} {p text arguments name value' : Part}

/-- A part of a part stands as many bytes further on as there are before it. -/
theorem Part.StandsIn.part (h : p.StandsIn line) (htext : p.text = u ++ (v ++ w)) :
    (Part.mk v (p.offset + byteSize u)).StandsIn line := by
  obtain ⟨front, back, rfl, hoffset⟩ := h
  refine ⟨front ++ u, w ++ back, ?_, ?_⟩
  · rw [htext]
    simp only [List.append_assoc]
  · rw [hoffset, byteSize_append]

theorem exists_of_trims (h : Trims cs before value) : ∃ after, cs = before ++ (value ++ after) := by
  cases h with
  | blank => exact ⟨[], (List.append_nil _).symm⟩
  | solid => exact ⟨_, rfl⟩

/-- What is left of a text without the blanks at its ends begins with something else. -/
theorem head_trim (cs : List Char) : ∀ c ∈ (trim cs).head?, isBlank c = false := by
  have htrims := trims_trim cs
  generalize indent cs = u, trim cs = v at htrims ⊢
  cases htrims with
  | blank => nofun
  | solid _ hv =>
      obtain ⟨d, rest, rfl, hd⟩ := hv.head
      rintro c ⟨⟩
      exact hd

namespace LineKind

theorem fits_or_continues {k : LineKind} (h : ofLine? line = some k) :
    Fits line k ∨ Continues line k := by
  rw [ofLine?_eq, Option.or_eq_some_iff, shape?_eq_some_iff, continuation?_eq_some_iff] at h
  exact h.imp_right And.right

theorem standsIn_of_field {f : FieldLine} (h : ofLine? line = some (.field f)) :
    f.value.StandsIn line := by
  rcases fits_or_continues h with h | h
  · cases h with
    | @field array lead marks gap type between name tail rest before _ _ _ _ _ _ _ _ _ _ hvalue =>
        obtain ⟨after, rfl⟩ := exists_of_trims hvalue
        refine ⟨_, after, ?_, rfl⟩
        simp only [List.append_assoc, List.cons_append]
  · cases h

theorem standsIn_of_override (h : ofLine? line = some (.override name value')) :
    value'.StandsIn line := by
  rcases fits_or_continues h with h | h
  · cases h with
    | override _ _ _ _ _ hvalue =>
        obtain ⟨after, rfl⟩ := exists_of_trims hvalue
        refine ⟨_, after, ?_, rfl⟩
        simp only [List.append_assoc, List.cons_append]
  · cases h

theorem standsIn_of_value? {k : LineKind} (h : ofLine? line = some k) (hvalue : k.value? = some p) :
    p.StandsIn line := by
  cases k with
  | field f =>
      cases hvalue
      exact standsIn_of_field h
  | override name value =>
      cases hvalue
      exact standsIn_of_override h
  | _ => cases hvalue

/-- The arguments of a row reach to the end of its line. -/
theorem exists_of_row (h : ofLine? line = some (.row arguments)) :
    ∃ front, line = front ++ arguments.text ∧ arguments.offset = byteSize front := by
  rcases fits_or_continues h with h | h
  · cases h with
    | @row lead => exact ⟨lead ++ ['-'], by rw [List.append_assoc]; rfl, rfl⟩
  · cases h

/-- A continuation is its line without the indentation. -/
theorem exists_of_continuation (h : ofLine? line = some (.continuation text)) :
    ∃ front, line = front ++ text.text ∧ text.offset = byteSize front ∧
      text.text = trimStart line := by
  rcases fits_or_continues h with h | h
  · cases h
  · cases h with
    | @mk lead text hlead _ htext =>
        exact ⟨lead, rfl, rfl, (indent_and_trimStart_append hlead htext).2.symm⟩

end LineKind

end Parts

/-! ## The text on from a line -/

/-- The text of a line and of those that go on the row that it belongs to. -/
def LogicalLine.onward (l : LogicalLine) (following : List LogicalLine) : List Char :=
  l.text.toList ++ following.flatMap fun m => ' ' :: trimStart m.text.toList

/-- What the fault found in place of a value stands in the text on from one of the lines, the lines
behind it being continuations. The fault's location is on the first physical line of that one, its
column counts the characters of the text, and it is as long as what was found. -/
def Fault.ReportsAt (lines : List LogicalLine) (fault : Fault) : Prop :=
  ∀ loc found, fault.found? = some (loc, found) → found ≠ "" → ∃ before l following after n,
    lines = before ++ l :: (following ++ after) ∧
    (∀ m ∈ following, (m.continuation?).isSome) ∧
    loc = l.origin.location (n + 1) found.length ∧
    found.toList <+: (l.onward following).drop n

section Reports

variable {lines before after : List LogicalLine} {l : LogicalLine} {fault : Fault}
  {base : Location} {token : List Char} {k length : Nat}

theorem reportsAt_of_eq_none (h : fault.found? = none) : fault.ReportsAt lines := by
  intro loc found hfound
  rw [h] at hfound
  cases hfound

/-- A fault about a token that stands on from a line. -/
theorem Fault.ReportsFrom.reportsAt (h : fault.ReportsFrom base token)
    (following : List LogicalLine) (hlines : lines = before ++ l :: (following ++ after))
    (hfollowing : ∀ m ∈ following, (m.continuation?).isSome)
    (hbase : base = l.origin.location (k + 1) length)
    (htoken : token <+: (l.onward following).drop k) : fault.ReportsAt lines := by
  intro loc found hfound hne
  obtain ⟨-, chars, hstarts, rfl⟩ := h loc found (Fault.reported?_of_found? hfound)
  refine ⟨before, l, following, after, k + chars, hlines, hfollowing, ?_, ?_⟩
  · have hpos : found.length ≠ 0 := by simpa using hne
    have hmax : max found.length 1 = found.length := by omega
    rw [hbase, hmax, Nat.add_right_comm]
    rfl
  · have hdrop := htoken.drop chars
    rw [List.drop_drop] at hdrop
    exact hstarts.trans hdrop

/-- The location of what stands in a line is counted in characters from its start. -/
theorem LogicalLine.exists_location {front back : List Char} (h : l.text.toList = front ++ back)
    (size : Nat) : ∃ length, l.location (byteSize front) size =
      l.origin.location (front.length + 1) length := by
  unfold LogicalLine.location
  rw [h, splitAtByte?_append]
  exact ⟨_, rfl⟩

/-- A fault about a part of one line. -/
theorem reportsAt_of_part {part : Part} {r : Reader} (hl : l ∈ lines)
    (hpart : part.StandsIn l.text.toList) (hr : r.location = l.location part.offset part.size)
    (h : fault.ReportsFrom r.location part.text) : fault.ReportsAt lines := by
  obtain ⟨front, back, htext, hoffset⟩ := hpart
  obtain ⟨before, after, rfl⟩ := List.append_of_mem hl
  obtain ⟨length, hlocation⟩ := l.exists_location htext part.size
  rw [hr, hoffset, hlocation] at h
  refine h.reportsAt [] rfl nofun rfl ?_
  unfold LogicalLine.onward
  rw [htext, List.flatMap_nil, List.append_nil, List.drop_left]
  exact List.prefix_append _ _

end Reports

/-! ## Rows -/

/-- The part is the end of its line. -/
def RowPart.Ends (p : RowPart) : Prop :=
  ∃ front, p.line.text.toList = front ++ p.text ∧ p.offset = byteSize front

section Rows

variable {lines more : List LogicalLine} {l : LogicalLine} {head part : RowPart} {tail : List RowPart}
  {r : RowText} {fault : Fault} {token : List Char}

theorem ends_of_rowPart? (h : l.rowPart? = some part) : part.line = l ∧ part.Ends := by
  obtain ⟨arguments, hkind, rfl⟩ := exists_arguments h
  exact ⟨rfl, LineKind.exists_of_row hkind⟩

theorem ends_of_continuation? (h : l.continuation? = some part) :
    part.line = l ∧ part.Ends ∧ part.text = trimStart l.text.toList := by
  obtain ⟨text, hkind, rfl⟩ := exists_continuation h
  obtain ⟨front, htext, hoffset, htrim⟩ := LineKind.exists_of_continuation hkind
  exact ⟨rfl, ⟨front, htext, hoffset⟩, htrim⟩

theorem RowText.join_eq (head : RowPart) (tail : List RowPart) :
    join head tail = head.text ++ tail.flatMap fun p => ' ' :: p.text := by
  induction tail generalizing head with
  | nil => exact (List.append_nil _).symm
  | cons part tail ih => rw [join, ih, List.flatMap_cons, List.cons_append]

/-- A character of a row's text that is no blank stands in the part in which it is looked for, and
is followed by the rest of this part and the parts behind it. -/
theorem RowText.partAt_of_join {front rest : List Char} {c : Char} (hc : c ≠ ' ')
    (h : join head tail = front ++ c :: rest) :
    ∃ skipped part following u v, head :: tail = skipped ++ part :: following ∧
      partAt head (byteSize front) tail = (part, byteSize u) ∧ part.text = u ++ v ∧
      c :: rest = v ++ following.flatMap fun p => ' ' :: p.text := by
  induction tail generalizing head front with
  | nil => exact ⟨[], head, [], front, c :: rest, rfl, rfl, h, (List.append_nil _).symm⟩
  | cons part tail ih =>
      rw [join] at h
      rcases List.append_eq_append_iff.mp h with ⟨more, rfl, hmore⟩ | ⟨v, hhead, hrest⟩
      · cases more with
        | nil => exact absurd (List.cons.inj hmore).1.symm hc
        | cons d more =>
            obtain ⟨hd, hjoin⟩ := List.cons.inj hmore
            subst hd
            obtain ⟨skipped, found, following, u, v, hparts, hfound, htext, hbehind⟩ := ih hjoin
            refine ⟨head :: skipped, found, following, u, v, by rw [hparts]; rfl, ?_, htext, hbehind⟩
            have hblank : ' '.utf8Size = 1 := rfl
            have hsize : byteSize (head.text ++ ' ' :: more) =
                byteSize more + (byteSize head.text + 1) := by
              rw [byteSize_append, byteSize_cons]
              omega
            rw [partAt, hsize, if_neg (by omega), Nat.add_sub_cancel]
            exact hfound
      · have hlt : byteSize front < byteSize head.text + 1 := by
          rw [hhead, byteSize_append]
          omega
        refine ⟨[], head, part :: tail, front, v, rfl, ?_, hhead, ?_⟩
        · rw [partAt, if_pos hlt]
        · rw [hrest, join_eq, List.flatMap_cons, List.cons_append]

/-- A row as it is written on a line and the continuations behind it. -/
structure RowText.WrittenOn (lines : List LogicalLine) (r : RowText) : Prop where
  exists_lines : ∃ before after, lines = before ++ (r.head :: r.tail).map RowPart.line ++ after
  head : r.head.Ends
  tail : ∀ p ∈ r.tail, p.Ends ∧ p.text = trimStart p.line.text.toList ∧
    (p.line.continuation?).isSome

/-- Continuation lines make the parts behind the first. -/
theorem parts_of_map (h : more.map LogicalLine.continuation? = tail.map some) :
    more = tail.map RowPart.line ∧ ∀ p ∈ tail, p.Ends ∧ p.text = trimStart p.line.text.toList ∧
      (p.line.continuation?).isSome := by
  induction more generalizing tail with
  | nil =>
      rw [List.map_nil, eq_comm, List.map_eq_nil_iff] at h
      rw [h]
      exact ⟨rfl, nofun⟩
  | cons m more ih =>
      cases tail with
      | nil => cases h
      | cons p tail =>
          rw [List.map_cons, List.map_cons, List.cons.injEq] at h
          obtain ⟨rfl, hends, htrim⟩ := ends_of_continuation? h.1
          obtain ⟨hmore, htail⟩ := ih h.2
          have hsome : (p.line.continuation?).isSome := by rw [h.1, Option.isSome_some]
          exact ⟨by rw [hmore, List.map_cons],
            List.forall_mem_cons.mpr ⟨⟨hends, htrim, hsome⟩, htail⟩⟩

theorem RowText.writtenOn {before after : List LogicalLine} {struct : String}
    (hhead : l.rowPart? = some head)
    (htail : more.map LogicalLine.continuation? = tail.map some) :
    (RowText.mk struct head tail).WrittenOn (before ++ l :: more ++ after) := by
  obtain ⟨hline, hends⟩ := ends_of_rowPart? hhead
  obtain ⟨hmore, hparts⟩ := parts_of_map htail
  exact ⟨⟨before, after, by rw [List.map_cons, hline, ← hmore]⟩, hends, hparts⟩

/-- A fault about a token of a row. -/
theorem RowText.WrittenOn.reportsAt (hr : r.WrittenOn lines) {offset size : Nat}
    (htoken : (Part.mk token offset).StandsIn r.text) (hhead : ∀ c ∈ token.head?, isBlank c = false)
    (h : fault.ReportsFrom (r.location offset size) token) : fault.ReportsAt lines := by
  obtain ⟨front, back, htext, rfl⟩ := htoken
  cases token with
  | nil =>
      -- only an empty text can be found in an empty token
      intro loc found hfound hne
      obtain ⟨-, chars, hstarts, -⟩ := h loc found (Fault.reported?_of_found? hfound)
      rw [List.drop_nil, List.prefix_nil] at hstarts
      exact absurd (String.toList_eq_nil_iff.mp hstarts) hne
  | cons c token =>
      have hc : c ≠ ' ' := by
        rintro rfl
        cases hhead ' ' rfl
      obtain ⟨skipped, part, following, u, v, hparts, hpart, hsplit, hbehind⟩ :=
        partAt_of_join hc htext
      have hends : part.Ends := by
        have hmem : part ∈ r.head :: r.tail := by
          rw [hparts]
          exact List.mem_append_right _ List.mem_cons_self
        rcases List.mem_cons.mp hmem with rfl | hmem
        · exact hr.head
        · exact (hr.tail part hmem).1
      have hfollowing : ∀ p ∈ following, p ∈ r.tail := by
        intro p hp
        cases skipped with
        | nil =>
            rw [(List.cons.inj hparts).2]
            exact hp
        | cons first skipped =>
            rw [(List.cons.inj hparts).2]
            exact List.mem_append_right _ (List.mem_cons_of_mem _ hp)
      obtain ⟨lead, hline, hoffset⟩ := hends
      have hline : part.line.text.toList = (lead ++ u) ++ v := by
        rw [hline, hsplit, List.append_assoc]
      obtain ⟨length, hlocation⟩ := part.line.exists_location hline size
      have hbase : r.location (byteSize front) size =
          part.line.origin.location ((lead ++ u).length + 1) length := by
        rw [← hlocation, byteSize_append, ← hoffset]
        unfold RowText.location
        rw [hpart]
      have honward : part.line.onward (following.map RowPart.line) =
          (lead ++ u) ++ c :: (token ++ back) := by
        have hparts : (following.flatMap fun p => ' ' :: trimStart p.line.text.toList) =
            following.flatMap fun p => ' ' :: p.text :=
          List.flatMap_congr fun p hp => by rw [(hr.tail p (hfollowing p hp)).2.1]
        unfold LogicalLine.onward
        rw [hline, List.append_assoc, List.flatMap_map, hparts]
        exact congrArg _ hbehind.symm
      obtain ⟨before, after, hlines⟩ := hr.exists_lines
      have hlines : lines = (before ++ skipped.map RowPart.line) ++
          part.line :: (following.map RowPart.line ++ after) := by
        rw [hlines, hparts]
        simp only [List.map_append, List.map_cons, List.append_assoc, List.cons_append]
      refine h.reportsAt _ hlines ?_ hbase ?_
      · intro m hm
        obtain ⟨p, hp, rfl⟩ := List.mem_map.mp hm
        exact (hr.tail p (hfollowing p hp)).2.2
      · rw [honward, List.drop_left]
        exact List.prefix_append _ _

end Rows

/-! ## Faults of rows -/

section Tokens

variable {line cs argument : List Char} {p : Part} {sep : Char} {piece : Nat × List Char} {t : Table}
  {count position start : Nat} {named : Bool} {a : RowArgument} {fault : Fault}

/-- A part stands in its line without the blanks at its ends. -/
theorem Part.StandsIn.trimmed (h : p.StandsIn line) :
    (Part.mk (trim p.text) (p.offset + byteSize (indent p.text))).StandsIn line := by
  obtain ⟨w, hw, -, -⟩ := trimEnd_cases (trimStart p.text)
  refine h.part (w := w) ?_
  rw [trim, ← hw, indent_append_trimStart]

theorem standsIn_of_mem_splitTop (h : piece ∈ splitTop sep cs) :
    (Part.mk piece.2 piece.1).StandsIn cs := by
  obtain ⟨front, back, hpieces⟩ := List.append_of_mem h
  have hcs := Scan.intercalate_pieces sep Scan.start cs
  rw [← map_snd_splitTop, hpieces, List.map_append, List.map_cons, intercalate_append_cons,
    List.flatMap_map] at hcs
  obtain ⟨after, hafter⟩ : ∃ after,
      [sep].intercalate (piece.2 :: back.map Prod.snd) = piece.2 ++ after := by
    cases back with
    | nil => exact ⟨[], by simp⟩
    | cons next back =>
        exact ⟨_, by rw [List.map_cons, List.intercalate_cons_cons, List.append_assoc]⟩
  refine ⟨front.flatMap fun p => p.2 ++ [sep], after, ?_, ?_⟩
  · rw [← hcs, hafter]
  · rw [offset_of_placePieces hpieces, Nat.zero_add]

theorem found?_of_assignArgument
    (h : assignArgument t count position start named argument = .error fault) :
    fault.found? = none := by
  unfold assignArgument at h
  split at h
  · simp only at h
    split at h
    · cases h
    · cases h
      rfl
  · split at h
    · cases h
      rfl
    · split at h
      · cases h
      · cases h
        rfl

/-- The token of an argument stands in it. -/
theorem standsIn_of_assignArgument (hargument : (Part.mk argument start).StandsIn line)
    (hhead : ∀ c ∈ argument.head?, isBlank c = false)
    (h : assignArgument t count position start named argument = .ok a) :
    (Part.mk a.token a.offset).StandsIn line ∧ ∀ c ∈ a.token.head?, isBlank c = false := by
  unfold assignArgument at h
  split at h
  · next n hsplit =>
    simp only at h
    split at h
    · cases h
      obtain ⟨lead, tail, -, -, -, -, hargument', hoffset⟩ := splitNamed?_eq_some_iff.mp hsplit
      have hvalue := (hargument.part (u := lead ++ (n.name ++ tail) ++ [':']) (v := n.value)
        (w := []) (by rw [hargument']; simp)).trimmed
      have hsize : byteSize (lead ++ (n.name ++ tail) ++ [':']) = n.offset := by
        rw [hoffset, byteSize_append]
        rfl
      rw [hsize] at hvalue
      exact ⟨hvalue, head_trim _⟩
    · cases h
  · split at h
    · cases h
    · split at h
      · cases h
        exact ⟨hargument, hhead⟩
      · cases h

theorem Reader.reportsFrom_readFor {r : Reader} {token : List Char} {field : Field}
    (h : r.readFor token field = .error fault) : fault.ReportsFrom r.location token := by
  unfold readFor at h
  split at h
  · next hread =>
    cases h
    exact reportsFrom_read hread
  · refine Fault.reportsFrom_of_eq_none ?_
    have hcheck := map_eq_error_iff.mp h
    unfold Field.checkChoice at hcheck
    split at hcheck
    · cases hcheck
    · split at hcheck
      · cases hcheck
      · cases hcheck
        rfl

end Tokens

section Faults

variable {lines pre rest : List LogicalLine} {l : LogicalLine} {r : RowText} {fault : Fault}
  {tables : Entries Table} {t : Table} {count position : Nat} {named : Bool} {fields : Entries Value}
  {pieces : List (Nat × List Char)}

theorem RowText.WrittenOn.reportsAt_of_readRow (hr : r.WrittenOn lines)
    (hpieces : ∀ piece ∈ pieces, (Part.mk piece.2 piece.1).StandsIn r.text)
    (h : readRow tables t r count position named fields pieces = .error fault) :
    fault.ReportsAt lines := by
  induction pieces generalizing position named fields with
  | nil => cases h
  | cons piece pieces ih =>
      obtain ⟨hpiece, hpieces⟩ := List.forall_mem_cons.mp hpieces
      rw [readRow] at h
      simp only at h
      split at h
      · exact ih hpieces h
      · split at h
        · next hassign =>
          cases h
          exact reportsAt_of_eq_none (found?_of_assignArgument hassign)
        · next a hassign =>
          split at h
          · next hread =>
            cases h
            obtain ⟨htoken, hhead⟩ :=
              standsIn_of_assignArgument hpiece.trimmed (head_trim _) hassign
            exact hr.reportsAt htoken hhead (Reader.reportsFrom_readFor hread)
          · exact ih hpieces h

namespace Builder

variable {b : Builder} {kind : LineKind}

theorem reportsAt_of_flush (hrow : ∀ r, b.row = some r → r.WrittenOn lines)
    (h : b.flush = .error fault) : fault.ReportsAt lines := by
  unfold flush at h
  split at h
  · cases h
  · next r hr =>
    unfold addRow at h
    split at h
    · cases h
      exact reportsAt_of_eq_none rfl
    · exact (hrow r hr).reportsAt_of_readRow (fun _ => standsIn_of_mem_splitTop)
        (map_eq_error_iff.mp h)

/-! ## Faults of lines -/

/-- A line is refused for a fault that reports no text, or one of its value. -/
theorem Refuses.reportsAt (hl : l ∈ lines) (hkind : LineKind.ofLine? l.text.toList = some kind)
    (h : b.Refuses l kind fault) : fault.ReportsAt lines := by
  cases h with
  | line hline =>
      apply reportsAt_of_eq_none
      cases fault with
      | typeMismatch | malformedArray | malformedCall => cases hline
      | _ => rfl
  | value hvalue hrefused =>
      have hstands := LineKind.standsIn_of_value? hkind hvalue
      cases hrefused with
      | global hread => exact reportsAt_of_part hl hstands rfl (Reader.reportsFrom_read hread)
      | choices hread =>
          exact reportsAt_of_part hl hstands rfl (Reader.reportsFrom_readChoices hread)
      | field hread => exact reportsAt_of_part hl hstands rfl (Reader.reportsFrom_readFor hread)

theorem reportsAt_of_feed (hl : l ∈ lines) (hrow : ∀ r, b.row = some r → r.WrittenOn lines)
    (h : b.feed l = .error fault) : fault.ReportsAt lines := by
  unfold feed at h
  split at h
  · cases h
    exact reportsAt_of_eq_none rfl
  · next text hkind =>
    have hdeclare : b.declare l (.continuation text) = .error fault := h
    exact (refuses_of_declare hdeclare).reportsAt hl hkind
  · next kind _ hkind =>
    cases hflush : b.flush with
    | error e =>
        rw [hflush] at h
        cases h
        exact reportsAt_of_flush hrow hflush
    | ok flushed =>
        rw [hflush] at h
        exact (refuses_of_declare h).reportsAt hl hkind

/-- The row that waits is written on the lines that were read. -/
theorem writtenOn_of_run (h : start.run pre = .ok b) (hr : b.row = some r)
    (rest : List LogicalLine) : r.WrittenOn (pre ++ rest) := by
  rcases reads_or_waits_of_run h with ⟨hnone, -⟩ | ⟨before, l, more, read, struct, head, tail, rfl, -,
    hhead, htail, -, rfl⟩
  · rw [hnone] at hr
    cases hr
  · cases hr
    exact RowText.writtenOn hhead htail

theorem reportsAt_of_feedAll (hrun : start.run pre = .ok b)
    (h : b.feedAll rest = .error fault) : fault.ReportsAt (pre ++ rest) := by
  induction rest generalizing pre b with
  | nil => exact reportsAt_of_flush (fun _ hr => writtenOn_of_run hrun hr _) (map_eq_error_iff.mp h)
  | cons l rest ih =>
      rw [feedAll] at h
      split at h
      · next hfeed =>
        cases h
        exact reportsAt_of_feed (List.mem_append_right _ List.mem_cons_self)
          (fun _ hr => writtenOn_of_run hrun hr _) hfeed
      · next hfeed =>
        rw [List.append_cons]
        exact ih (run_snoc_eq_ok_iff.mpr ⟨b, hrun, hfeed⟩) h

end Builder

end Faults

/-- What a fault of building found stands on from a line. -/
theorem Document.reportsAt_of_ofLines {lines : List LogicalLine} {fault : Fault}
    (h : Document.ofLines lines = .error fault) : fault.ReportsAt lines := by
  have hrun : Builder.start.run [] = .ok Builder.start := rfl
  exact Builder.reportsAt_of_feedAll hrun h

/-! ## Places in the source -/

/-- The characters that the location covers on its line are the text. -/
def Location.Shows (loc : Location) (text : String) : Prop :=
  (loc.text.toList.drop (loc.column - 1)).take loc.length = text.toList

/-- What was found stands in the text on from a logical line. The location is on the first physical
line of that one; its column counts the characters before what was found. It shows what was found if
this ends within what the logical line has in common with the physical one, which is as much as is
kept of the physical line or more. -/
def Location.PointsInto (physical : List SourceLine) (lines : List LogicalLine) (loc : Location)
    (found : String) : Prop :=
  ∃ before l following after front back chars,
    lines = before ++ l :: (following ++ after) ∧
    (∀ m ∈ following, (m.continuation?).isSome) ∧
    found.toList <+: (l.onward following).drop chars ∧
    physical = front ++ l.origin :: back ∧ l.origin.number = front.length + 1 ∧
    loc = l.origin.location (chars + 1) found.length ∧
    (Scan.start.afterLines front).kept l.origin <+: l.text.toList ∧
    (Scan.start.afterLines front).kept l.origin <+: l.origin.text.toList ∧
    ∀ common, common <+: l.text.toList → common <+: l.origin.text.toList →
      chars + found.length ≤ common.length → loc.Shows found

section Source

variable {s : Sources} {dir text : String} {lines : List LogicalLine} {fault : Fault} {loc : Location}
  {found : String}

/-- Physical lines are counted from one. -/
theorem number_of_ofText {file : Option String} {front back : List SourceLine} {line : SourceLine}
    (h : SourceLine.ofText file text = front ++ line :: back) : line.number = front.length + 1 := by
  have hline : (SourceLine.ofText file text)[front.length]? = some line := by
    rw [h, List.getElem?_append_right (Nat.le_refl _), Nat.sub_self]
    rfl
  rw [SourceLine.ofText, List.getElem?_map, List.getElem?_zipIdx, Option.map_eq_some_iff] at hline
  obtain ⟨_, hindexed, rfl⟩ := hline
  obtain ⟨_, -, rfl⟩ := Option.map_eq_some_iff.mp hindexed
  rw [Nat.zero_add]

/-- A text without directives stands for its own lines. -/
theorem expandText_of_plain
    (h : ∀ line ∈ SourceLine.ofText none text, Include.isDirective line = false) :
    expandText s dir text = .ok (SourceLine.ofText none text) := by
  unfold expandText
  generalize SourceLine.ofText none text = physical at h
  induction physical with
  | nil => exact Include.expand_nil s []
  | cons line physical ih =>
      obtain ⟨hline, hlines⟩ := List.forall_mem_cons.mp h
      rw [List.map_cons, Include.expand_plain (Include.isDirective_eq_false_iff.mp hline), ih hlines]
      rfl

/-- What stands at the same place in a beginning that two texts have in common is in both. -/
theorem take_drop_of_common {u v rest cs : List Char} {n : Nat} {common : List Char}
    (hstarts : cs <+: (u ++ rest).drop n) (hu : common <+: u) (hv : common <+: v)
    (hlength : n + cs.length ≤ common.length) : (v.drop n).take cs.length = cs := by
  obtain ⟨u', rfl⟩ := hu
  obtain ⟨v', rfl⟩ := hv
  rw [List.prefix_iff_eq_take] at hstarts
  rw [List.append_assoc, List.drop_append_of_le_length (by omega),
    List.take_append_of_le_length (by rw [List.length_drop]; omega)] at hstarts
  rw [List.drop_append_of_le_length (by omega),
    List.take_append_of_le_length (by rw [List.length_drop]; omega)]
  exact hstarts.symm

/-- Where a text without includes fails to be read because of a value, the location of the fault
points into the text. -/
theorem pointsInto_of_readDocument
    (hplain : ∀ line ∈ SourceLine.ofText none text, Include.isDirective line = false)
    (hlines : assemble (SourceLine.ofText none text) = .ok lines)
    (h : readDocument s (.text dir text) = .error fault)
    (hfound : fault.found? = some (loc, found)) (hne : found ≠ "") :
    loc.PointsInto (SourceLine.ofText none text) lines found := by
  have hread : Document.ofLines lines = .error fault := by
    simp only [readDocument, Input.lines, expandText_of_plain hplain, Document.ofSource,
      hlines] at h
    exact h
  obtain ⟨before, l, following, after, chars, rfl, hfollowing, rfl, hstarts⟩ :=
    Document.reportsAt_of_ofLines hread loc found hfound hne
  obtain ⟨front, back, hphysical, hkept⟩ :=
    exists_origin_of_assemble hlines l (List.mem_append_right _ List.mem_cons_self)
  refine ⟨before, l, following, after, front, back, chars, rfl, hfollowing, hstarts, hphysical,
    number_of_ofText hphysical, rfl, hkept, kept_prefix _ _, fun common htext horigin hlength => ?_⟩
  rw [← String.length_toList] at hlength
  show (l.origin.text.toList.drop chars).take found.length = found.toList
  rw [← String.length_toList]
  exact take_drop_of_common hstarts htext horigin hlength

/-- Choices that go on behind a comment. -/
def choiceText : String := "P:\n  int x: (1, é2, # two\n 3)\n"

theorem pointsInto_of_readDocument_choice :
    ∃ lines, assemble (SourceLine.ofText none choiceText) = .ok lines ∧
      readDocument .empty (.text "/" choiceText) =
        .error (.typeMismatch ⟨none, 2, 14, 2, "  int x: (1, é2, # two"⟩ .int "é2") ∧
      Location.PointsInto (SourceLine.ofText none choiceText) lines
        ⟨none, 2, 14, 2, "  int x: (1, é2, # two"⟩ "é2" := by
  have hlines : assemble (SourceLine.ofText none choiceText) =
      .ok [⟨"P:", ⟨"P:", none, 1⟩⟩,
        ⟨"  int x: (1, é2, \n 3)", ⟨"  int x: (1, é2, # two", none, 2⟩⟩] := by decide +kernel
  have hread : readDocument .empty (.text "/" choiceText) =
      .error (.typeMismatch ⟨none, 2, 14, 2, "  int x: (1, é2, # two"⟩ .int "é2") := by decide +kernel
  exact ⟨_, hlines, hread,
    pointsInto_of_readDocument (by decide +kernel) hlines hread rfl (by decide)⟩

/-- A global whose value stands behind a backslash, on the second line. -/
def joinedText : String := "int x: \\\n  nope\n"

/-- The value is looked for on the first line, which ends before it. -/
theorem not_shows_joined :
    (∀ line ∈ SourceLine.ofText none joinedText, Include.isDirective line = false) ∧
      assemble (SourceLine.ofText none joinedText) =
        .ok [⟨"int x: nope", ⟨"int x: \\", none, 1⟩⟩] ∧
      readDocument .empty (.text "/" joinedText) =
        .error (.typeMismatch ⟨none, 1, 8, 4, "int x: \\"⟩ .int "nope") ∧
      ¬ Location.Shows ⟨none, 1, 8, 4, "int x: \\"⟩ "nope" := by
  refine ⟨by decide +kernel, by decide +kernel, by decide +kernel, ?_⟩
  unfold Location.Shows
  decide +kernel

end Source

end RowConfig
