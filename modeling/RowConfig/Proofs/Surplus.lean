import RowConfig.Proofs.Assembly.Unclosed
import RowConfig.Proofs.Calls
import RowConfig.Proofs.Inclusion
import RowConfig.Proofs.InlineNames

/-!
# Too many arguments

A document is rejected for too many arguments because of a row, which has more pieces than its
struct has fields when it is complete (`RowSurplus`), or because of a call that binding comes to, at
any depth, one of whose arguments stands for a position that its struct has no field for
(`CallSurplus`). The number of fields is the reported one in both cases, and the reported count is
greater. A row reports the number of its pieces. A call reports one more than the greatest position,
which is computed in a word of 64 bits. There the sum overflows, and the program stops, if some
argument stands for the last position that there is (`CallOverflow`). Nothing else overflows
(`surplus_of_compile`).
-/

namespace RowConfig

open Binding Chars Relation

/-- A row of a struct has `count` pieces, and the struct has `max` fields when the row is complete,
which are fewer. -/
def RowSurplus (lines : List LogicalLine) (struct : String) (count max : Nat) : Prop :=
  ∃ i r b t, rowAt? lines i = some r ∧ r.struct = struct ∧
    Builder.start.run (lines.take (rowEnd lines i)) = .ok b ∧ b.document.table? struct = some t ∧
    (splitTop ',' r.text).length = count ∧ t.fields.length = max ∧ max < count

/-- Binding comes to a call of a struct with `max` fields, and counts `count` positions among its
arguments. -/
structure CallSurplus (d : Document) (struct : String) (count max : Nat) (row : Instance)
    (arguments : List Char) : Prop where
  entered : d.Enters row
  call : row.IsCall arguments
  struct_eq : row.struct = struct
  fields : ∃ t, d.table? struct = some t ∧ t.fields.length = max
  /-- There is no field for the greatest position, and the count is one more. -/
  counted : ∃ last, IsGreatest (positionsOf (Entries.names row.fields)) last ∧ max ≤ last ∧
    count = last + 1
  lt : max < count
  fits : count < positionBound

/-- Binding comes to a call with an argument that stands for the last position of all. It is given
such a name, or the text of the arguments is too long for a word to count its characters. -/
structure CallOverflow (d : Document) (row : Instance) (arguments : List Char) : Prop where
  entered : d.Enters row
  call : row.IsCall arguments
  last : NamesLast (argumentNames arguments) ∨ positionBound ≤ arguments.length

/-- A fault of the number of arguments. -/
def Fault.ofCount : Fault → Bool
  | .tooManyArguments .. | .overflow => true
  | _ => false

theorem Fault.ofCount_of_ofValue {fault : Fault} (h : fault.ofValue) : fault.ofCount = false := by
  cases fault with
  | tooManyArguments | overflow => cases h
  | _ => rfl

theorem Fault.ofCount_of_ofLine {fault : Fault} (h : fault.ofLine) : fault.ofCount = false := by
  cases fault with
  | tooManyArguments | overflow => cases h
  | _ => rfl

/-! ## Rows -/

section Rows

variable {tables : Entries Table} {t : Table} {r : RowText} {n : Nat} {named : Bool} {fault : Fault}
  {lines pre rest : List LogicalLine}

/-- An argument is one too many where the fields before its position are all there are. -/
theorem surplus_of_assignArgument {position start : Nat} {argument : List Char}
    (h : assignArgument t n position start named argument = .error fault) (hcount : fault.ofCount) :
    fault = .tooManyArguments t.name n t.fields.length ∧ t.fields.length ≤ position := by
  unfold assignArgument at h
  split at h
  · simp only at h
    split at h
    · cases h
    · cases h
      cases hcount
  · split at h
    · cases h
      cases hcount
    · split at h
      · cases h
      · next hnone =>
        cases h
        exact ⟨rfl, List.getElem?_eq_none_iff.mp hnone⟩

/-- A row with too many arguments has more pieces than there are fields. -/
theorem surplus_of_readRow {position : Nat} {fields : Entries Value} {pieces : List (Nat × List Char)}
    (hpieces : position + pieces.length ≤ n)
    (h : readRow tables t r n position named fields pieces = .error fault) (hcount : fault.ofCount) :
    fault = .tooManyArguments t.name n t.fields.length ∧ t.fields.length < n := by
  induction pieces generalizing position named fields with
  | nil => cases h
  | cons piece pieces ih =>
      obtain ⟨offset, piece⟩ := piece
      rw [List.length_cons] at hpieces
      have hmore : position + 1 + pieces.length ≤ n := by omega
      rw [readRow] at h
      simp only at h
      split at h
      · exact ih hmore h
      · split at h
        · next hassign =>
          cases h
          obtain ⟨hfault, hle⟩ := surplus_of_assignArgument hassign hcount
          exact ⟨hfault, by omega⟩
        · split at h
          · next hread =>
            cases h
            rw [Fault.ofCount_of_ofValue (Reader.ofValue_of_readFor hread)] at hcount
            cases hcount
          · exact ih hmore h

namespace Builder

variable {b b' : Builder} {l : LogicalLine}

theorem written_of_run (h : start.run lines = .ok b) : b.document.Written := by
  induction lines using List.reverseRecOn generalizing b with
  | nil =>
      cases h
      exact Document.written_empty
  | append_singleton lines l ih =>
      obtain ⟨before, hbefore, hfeed⟩ := run_snoc_eq_ok_iff.mp h
      exact written_of_feed (ih hbefore) hfeed

/-- The row that waits begins on one of the lines and goes on to the last of them. -/
theorem exists_rowAt?_of_run (hrun : start.run lines = .ok b) (hr : b.row = some r) :
    ∃ i, rowAt? lines i = some r ∧ rowEnd lines i = lines.length := by
  rcases reads_or_waits_of_run hrun with ⟨hnone, -⟩ | ⟨before, l, more, read, struct, head, tail, rfl,
    hreads, hhead, htail, hcurrent, rfl⟩
  · rw [hnone] at hr
    cases hr
  · cases hr
    have hopen := (current_of_reads hreads).symm.trans hcurrent
    exact ⟨before.length, rowAt?_row hhead htail hopen, rowEnd_row htail⟩

/-- Completing a row fails for the number of its arguments only if there are too many. -/
theorem rowSurplus_of_flush (hrun : start.run pre = .ok b)
    (hrest : ∀ l ∈ rest.head?, l.continuation? = none) (h : b.flush = .error fault)
    (hcount : fault.ofCount) :
    ∃ struct count max, fault = .tooManyArguments struct count max ∧
      RowSurplus (pre ++ rest) struct count max := by
  unfold flush at h
  split at h
  · cases h
  · next r hr =>
    unfold addRow at h
    split at h
    · cases h
      cases hcount
    · next t ht =>
      obtain ⟨rfl, hlt⟩ := surplus_of_readRow (Nat.zero_add _).le (map_eq_error_iff.mp h) hcount
      obtain ⟨i, hi, hend⟩ := exists_rowAt?_of_run hrun hr
      have hlength := lt_of_rowAt? hi
      have hname : t.name = r.struct := ((written_of_run hrun).table? ht).name_eq
      refine ⟨_, _, _, rfl, i, r, b, t, ?_, hname.symm, ?_, ?_, rfl, rfl, hlt⟩
      · rw [rowAt?_append hrest hlength]
        exact hi
      · rw [rowEnd_append hrest hlength, hend, List.take_left]
        exact hrun
      · rw [hname]
        exact ht

theorem ofCount_of_declare {kind : LineKind} (h : b.declare l kind = .error fault) :
    fault.ofCount = false := by
  cases refuses_of_declare h with
  | line hline => exact Fault.ofCount_of_ofLine hline
  | value _ hvalue => exact Fault.ofCount_of_ofValue hvalue.ofValue

theorem rowSurplus_of_feed (hrun : start.run pre = .ok b) (h : b.feed l = .error fault)
    (hcount : fault.ofCount) :
    ∃ struct count max, fault = .tooManyArguments struct count max ∧
      RowSurplus (pre ++ l :: rest) struct count max := by
  unfold feed at h
  split at h
  · cases h
    cases hcount
  · next text _ =>
    have hdeclare : b.declare l (.continuation text) = .error fault := h
    rw [ofCount_of_declare hdeclare] at hcount
    cases hcount
  · next kind hcontinuation hkind =>
    cases hflush : b.flush with
    | ok flushed =>
        rw [hflush] at h
        rw [ofCount_of_declare h] at hcount
        cases hcount
    | error fault' =>
        rw [hflush] at h
        cases h
        apply rowSurplus_of_flush hrun (forall_head?_cons ?_ rest) hflush hcount
        unfold LogicalLine.continuation?
        split
        · next text htext =>
          rw [hkind] at htext
          cases htext
          exact absurd rfl (hcontinuation text)
        · rfl

/-- Among the lines that are read, it is a row that has too many arguments. The induction is on the
lines that are still to be read. -/
theorem rowSurplus_of_feedAll (hrun : start.run pre = .ok b) (h : b.feedAll rest = .error fault)
    (hcount : fault.ofCount) :
    ∃ struct count max, fault = .tooManyArguments struct count max ∧
      RowSurplus (pre ++ rest) struct count max := by
  induction rest generalizing pre b with
  | nil => exact rowSurplus_of_flush hrun nofun (map_eq_error_iff.mp h) hcount
  | cons l rest ih =>
      rw [feedAll] at h
      split at h
      · next hfeed =>
        cases h
        exact rowSurplus_of_feed hrun hfeed hcount
      · next hfeed =>
        rw [List.append_cons]
        exact ih (run_snoc_eq_ok_iff.mpr ⟨b, hrun, hfeed⟩) h

end Builder

end Rows

/-! ## Calls -/

section Calls

variable {d : Document} {row : Instance} {struct : String} {count max : Nat} {arguments : List Char}
  {lines : List LogicalLine}

/-- Where an argument stands for the last position of all, it is given such a name, or the text of
the arguments is too long. -/
theorem Record.IsCall.namesLast (h : row.IsCall arguments)
    (hlast : NamesLast (Entries.names row.fields)) :
    NamesLast (argumentNames arguments) ∨ positionBound ≤ arguments.length := by
  obtain ⟨column, hcollect⟩ := h.collected
  exact Reader.namesLast_of_collectArguments hcollect hlast

/-- The field of an argument is missing where the fields before its position are all there are. -/
theorem surplus_of_fieldFor {t : Table} {n : Nat} {name : String}
    (h : fieldFor t n name = .error (.tooManyArguments struct count max)) :
    struct = t.name ∧ count = n ∧ max = t.fields.length ∧
      ∃ i, position? name = some i ∧ max ≤ i := by
  unfold fieldFor at h
  split at h
  · next i hi =>
    split at h
    · cases h
    · next hnone =>
      cases h
      exact ⟨rfl, rfl, rfl, i, hi, List.getElem?_eq_none_iff.mp hnone⟩
  · split at h <;> cases h

/-- Of all that can be wrong with the arguments of a call, only the last position overflows. -/
theorem namesLast_of_refusesCall {t : Table} {fields : Entries Value}
    (h : RefusesCall t fields .overflow) : NamesLast (Entries.names fields) := by
  cases h with
  | uncounted hlast => exact hlast
  | argument _ _ hfield =>
      unfold fieldFor at hfield
      split at hfield <;> split at hfield <;> cases hfield
  | value hvalue => cases hvalue

/-- An instance that has too many arguments is a call. -/
theorem callSurplus_of_arrangeInstance (hd : Document.ofLines lines = .ok d) (hrow : d.Enters row)
    (h : arrangeInstance d.tables row = .error (.tooManyArguments struct count max)) :
    ∃ arguments, CallSurplus d struct count max row arguments := by
  obtain ⟨t, ht, hcall, hrefused⟩ := origin_of_arrangeInstance_error h
  obtain ⟨arguments, harguments⟩ := hrow.isCall hd hcall
  cases hrefused with
  | @argument n name _ hn hname hfield =>
      obtain ⟨rfl, rfl, rfl, i, hi, hle⟩ := surplus_of_fieldFor hfield
      have hin : i ∈ positionsOf (Entries.names row.fields) := ⟨name, hname, hi⟩
      rcases countPositions_eq_ok_iff.mp hn with ⟨hnone, -⟩ | ⟨last, hlast, rfl, hfits⟩
      · rw [hnone] at hin
        cases hin
      · have hstruct : t.name = row.struct := ((Document.written_of_ofLines hd).table? ht).name_eq
        have hmax : t.fields.length ≤ last := hle.trans (hlast.2 hin)
        have hfields : d.table? t.name = some t := by
          rw [hstruct]
          exact ht
        exact ⟨arguments, hrow, harguments, hstruct.symm, ⟨t, hfields, rfl⟩, ⟨last, hlast, hmax, rfl⟩,
          Nat.lt_succ_of_le hmax, hfits⟩
  | value hvalue => cases hvalue

/-- An instance whose positions cannot be counted is a call. -/
theorem callOverflow_of_arrangeInstance (hd : Document.ofLines lines = .ok d) (hrow : d.Enters row)
    (h : arrangeInstance d.tables row = .error .overflow) :
    ∃ arguments, CallOverflow d row arguments := by
  obtain ⟨t, ht, hcall, hrefused⟩ := origin_of_arrangeInstance_error h
  obtain ⟨arguments, harguments⟩ := hrow.isCall hd hcall
  have hlast := namesLast_of_refusesCall hrefused
  exact ⟨arguments, hrow, harguments, harguments.namesLast hlast⟩

/-- A call of a declared struct overflows exactly if a name among its arguments stands for the last
position of all. -/
theorem arrangeInstance_eq_overflow_iff {tables : Entries Table} {t : Table} {place : Location}
    (ht : Entries.get? tables row.struct = some t) (hcall : row.call = some place) :
    arrangeInstance tables row = .error .overflow ↔ NamesLast (Entries.names row.fields) := by
  constructor
  · intro h
    obtain ⟨t', -, -, hrefused⟩ := origin_of_arrangeInstance_error h
    exact namesLast_of_refusesCall hrefused
  · intro hlast
    have hcount := countPositions_eq_error_iff.mpr ⟨rfl, hlast⟩
    rw [arrangeInstance_of_call ht hcall, typeCall, hcount]
    rfl

end Calls

/-! ## Documents -/

section Documents

variable {s : Sources} {input : Input} {fault : Fault}

theorem ofCount_of_read {name : String} (h : s.read name = .error fault) : fault.ofCount = false := by
  unfold Sources.read at h
  split at h
  · cases h
  · cases h
    rfl
  · cases h
    rfl

/-- Including files gives other faults. -/
theorem ofCount_of_expand {visited : List String} {lines : List (String × SourceLine)}
    (h : Include.expand s visited lines = .error fault) : fault.ofCount = false := by
  induction visited, lines using Include.expand.induct s with
  | case1 visited =>
      rw [Include.expand_nil] at h
      cases h
  | case2 visited dir line more fault' hline =>
      rw [Include.expand_refused hline] at h
      cases h
      unfold Include.ofLine at hline
      simp only at hline
      split at hline
      · cases hline
      · split at hline
        · cases hline
        · split at hline
          · cases hline
          · cases hline
            rfl
  | case3 visited dir line more hline ih =>
      rw [Include.expand_plain hline] at h
      exact ih (map_eq_error_iff.mp h)
  | case4 visited dir line more path column hline hlocate =>
      rw [Include.expand_unlocated hline hlocate] at h
      cases h
      rfl
  | case5 visited dir line more path column hline name hlocate hknown ih =>
      rw [Include.expand_known hline hlocate hknown] at h
      exact ih h
  | case6 visited dir line more path column hline name hlocate hnew fault' hread =>
      rw [Include.expand_unread hline hlocate hnew hread] at h
      cases h
      exact ofCount_of_read hread
  | case7 visited dir line more path column hline name hlocate hnew content hread ih =>
      rw [Include.expand_file hline hlocate hnew hread] at h
      exact ih h

theorem ofCount_of_lines (h : input.lines s = .error fault) : fault.ofCount = false := by
  cases input with
  | text dir content => exact ofCount_of_expand h
  | file path =>
      have hexpand : expandFile s path = .error fault := h
      unfold expandFile at hexpand
      split at hexpand
      · cases hexpand
        rfl
      · split at hexpand
        · next hread =>
          cases hexpand
          exact ofCount_of_read hread
        · exact ofCount_of_expand hexpand

theorem ofCount_of_link {d : Document} (h : d.link = .error fault) : fault.ofCount = false := by
  obtain ⟨name, -, hfind | ⟨-, chain, rfl⟩⟩ := Document.origin_of_link h
  · unfold Linking.findRow at hfind
    split at hfind
    · cases hfind
      rfl
    · split at hfind <;> cases hfind
      rfl
  · rfl

/-- The pass that an input fails. -/
inductive Rejects (s : Sources) (input : Input) (fault : Fault) : Prop
  | including : input.lines s = .error fault → Rejects s input fault
  | assembling {physical : List SourceLine} : input.lines s = .ok physical →
      assemble physical = .error fault → Rejects s input fault
  | building {physical : List SourceLine} {lines : List LogicalLine} :
      input.lines s = .ok physical → assemble physical = .ok lines →
      Document.ofLines lines = .error fault → Rejects s input fault
  | binding {physical : List SourceLine} {lines : List LogicalLine} {d : Document} :
      input.lines s = .ok physical → assemble physical = .ok lines → Document.ofLines lines = .ok d →
      d.bind = .error fault → Rejects s input fault
  | linking {physical : List SourceLine} {lines : List LogicalLine} {d bound : Document} :
      input.lines s = .ok physical → assemble physical = .ok lines → Document.ofLines lines = .ok d →
      d.bind = .ok bound → bound.buildIndexes.link = .error fault → Rejects s input fault

/-- What is rejected fails one of the passes. -/
theorem rejects_of_compile {fault : Fault} (h : compile s input = .error fault) :
    Rejects s input fault := by
  unfold compile readDocument Document.ofSource at h
  cases hphysical : input.lines s with
  | error e =>
      rw [hphysical] at h
      cases h
      exact .including hphysical
  | ok physical =>
      cases hlines : assemble physical with
      | error e =>
          simp only [hphysical, hlines] at h
          cases h
          exact .assembling hphysical hlines
      | ok lines =>
          simp only [hphysical, hlines] at h
          cases hd : Document.ofLines lines with
          | error e =>
              rw [hd] at h
              cases h
              exact .building hphysical hlines hd
          | ok d =>
              simp only [hd] at h
              unfold Document.resolve at h
              split at h
              · next hbind =>
                cases h
                exact .binding hphysical hlines hd hbind
              · next bound hbind =>
                exact .linking hphysical hlines hd hbind (map_eq_error_iff.mp h)

/-- A fault of the number of arguments is that of a row, or that of an instance that binding comes
to. -/
theorem origin_of_compile_error (h : compile s input = .error fault) (hcount : fault.ofCount) :
    ∃ physical lines, input.lines s = .ok physical ∧ assemble physical = .ok lines ∧
      ((∃ struct count max, fault = .tooManyArguments struct count max ∧
          RowSurplus lines struct count max) ∨
        ∃ d row, Document.ofLines lines = .ok d ∧ d.Enters row ∧
          arrangeInstance d.tables row = .error fault) := by
  cases rejects_of_compile h with
  | including hphysical =>
      rw [ofCount_of_lines hphysical] at hcount
      cases hcount
  | assembling _ hlines =>
      obtain ⟨text, origin, opener, -, hunclosed⟩ := Joiner.exists_waiting_of_assemble hlines
      cases fault with
      | tooManyArguments | overflow => cases hunclosed
      | _ => cases hcount
  | @building physical lines hphysical hlines hd =>
      have hrun : Builder.start.run [] = .ok Builder.start := rfl
      exact ⟨physical, lines, hphysical, hlines, .inl (Builder.rowSurplus_of_feedAll hrun hd hcount)⟩
  | @binding physical lines d hphysical hlines hd hbind =>
      have hcircular : fault.isCircular = false := by
        cases fault with
        | circular => cases hcount
        | _ => rfl
      obtain ⟨row, hrow, hrefused⟩ := Document.exists_refused_of_bind hbind hcircular
      exact ⟨physical, lines, hphysical, hlines, .inr ⟨d, row, hd, hrow, hrefused⟩⟩
  | linking _ _ _ _ hlink =>
      rw [ofCount_of_link hlink] at hcount
      cases hcount

/-- A document that is rejected for too many arguments has a row with more pieces than its struct
has fields, or a call to which binding comes with an argument beyond the fields of its struct. The
reported greatest number is that of the fields, and the reported count is greater. The computation
of a count overflows only in a call to which binding comes, and there exactly if an argument stands
for the last position of all. -/
theorem surplus_of_compile (s : Sources) (input : Input) :
    (∀ struct count max, compile s input = .error (.tooManyArguments struct count max) →
      ∃ physical lines, input.lines s = .ok physical ∧ assemble physical = .ok lines ∧
        (RowSurplus lines struct count max ∨
          ∃ d row arguments, Document.ofLines lines = .ok d ∧
            CallSurplus d struct count max row arguments)) ∧
    (compile s input = .error .overflow →
      ∃ physical lines, input.lines s = .ok physical ∧ assemble physical = .ok lines ∧
        ∃ d row arguments, Document.ofLines lines = .ok d ∧ CallOverflow d row arguments) ∧
    ∀ tables row t place, Entries.get? tables row.struct = some t → row.call = some place →
      (arrangeInstance tables row = .error .overflow ↔ NamesLast (Entries.names row.fields)) := by
  refine ⟨fun struct count max h => ?_, fun h => ?_, fun tables row t place ht hcall =>
    arrangeInstance_eq_overflow_iff ht hcall⟩
  · obtain ⟨physical, lines, hphysical, hlines, hrow | ⟨d, row, hd, hrow, hrefused⟩⟩ :=
      origin_of_compile_error h rfl
    · obtain ⟨struct', count', max', heq, hrow⟩ := hrow
      cases heq
      exact ⟨physical, lines, hphysical, hlines, .inl hrow⟩
    · obtain ⟨arguments, hsurplus⟩ := callSurplus_of_arrangeInstance hd hrow hrefused
      exact ⟨physical, lines, hphysical, hlines, .inr ⟨d, row, arguments, hd, hsurplus⟩⟩
  · obtain ⟨physical, lines, hphysical, hlines, hrow | ⟨d, row, hd, hrow, hrefused⟩⟩ :=
      origin_of_compile_error h rfl
    · obtain ⟨struct', count', max', heq, -⟩ := hrow
      cases heq
    · obtain ⟨arguments, hoverflow⟩ := callOverflow_of_arrangeInstance hd hrow hrefused
      exact ⟨physical, lines, hphysical, hlines, d, row, arguments, hd, hoverflow⟩

/-- A call inside another that has an argument too many. -/
def nestedSurplusText : String := "P:\n  str x:\nQ:\n  P p:\nQ g: Q(P(1, 2))\n"

/-- A call whose only argument is given the name of the last position of all. -/
def lastPositionText : String := "P:\n  str x:\nP g: P(_arg18446744073709551615: \"a\")\n"

theorem surplus_of_compile_nested :
    (compile .empty (.text "/" nestedSurplusText) = .error (.tooManyArguments "P" 2 1) ∧
      ∃ physical lines, (Input.text "/" nestedSurplusText).lines .empty = .ok physical ∧
        assemble physical = .ok lines ∧
          (RowSurplus lines "P" 2 1 ∨ ∃ d row arguments, Document.ofLines lines = .ok d ∧
            CallSurplus d "P" 2 1 row arguments)) ∧
    compile .empty (.text "/" lastPositionText) = .error .overflow ∧
      ∃ physical lines, (Input.text "/" lastPositionText).lines .empty = .ok physical ∧
        assemble physical = .ok lines ∧
          ∃ d row arguments, Document.ofLines lines = .ok d ∧ CallOverflow d row arguments := by
  have hnested : compile .empty (.text "/" nestedSurplusText) =
      .error (.tooManyArguments "P" 2 1) := by decide +kernel
  have hlast : compile .empty (.text "/" lastPositionText) = .error .overflow := by decide +kernel
  exact ⟨⟨hnested, (surplus_of_compile .empty _).1 "P" 2 1 hnested⟩, hlast,
    (surplus_of_compile .empty _).2.1 hlast⟩

/-- A name in a document makes the computation of a count overflow. -/
theorem not_forall_ne_overflow :
    ¬ ∀ text, compile .empty (.text "/" text) ≠ .error .overflow := by
  intro h
  have hlast : compile .empty (.text "/" lastPositionText) = .error .overflow := by decide +kernel
  exact h lastPositionText hlast

end Documents

end RowConfig
