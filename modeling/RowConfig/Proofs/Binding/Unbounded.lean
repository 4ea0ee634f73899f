import Mathlib.Order.WellFounded
import RowConfig.Proofs.Binding
import RowConfig.Proofs.Positions
import RowConfig.Proofs.Reading.Faults

/-!
# Binding without a bound on the depth

Binding is bounded, so that it ends always. `Succeeds` and `Fails` say how it would end if instances
could nest to any depth, and `Nests` that it comes to an instance inside a number of others before
it meets a fault. With a number of levels to go binding finds out one of the three
(`outcome_bindWithin`), and it reports a circular reference in the last case only
(`exists_circular_iff`). Unbounded binding comes to no end where it can enter one instance after
another without end (`neverEnds_iff`).
-/

namespace RowConfig

open Binding Value

/-! ## Instances in their order -/

namespace Value

mutual

/-- The instances in a value, inside arrays too, but not those inside instances. -/
def instances : Value → List Instance
  | .array items => instancesOf items
  | .instance row => [row]
  | _ => []

/-- The instances in values, one after another. -/
def instancesOf : List Value → List Instance
  | [] => []
  | v :: vs => instances v ++ instancesOf vs

end

theorem mem_instancesOf {vs : List Value} {row : Instance} :
    row ∈ instancesOf vs ↔ ∃ v ∈ vs, row ∈ v.instances := by
  induction vs with
  | nil => simp [instancesOf]
  | cons v vs ih => simp [instancesOf, ih]

/-- The instances in a value are held by it. -/
theorem holds_of_mem_instances {v : Value} {row : Instance} (h : row ∈ v.instances) :
    v.Holds (.instance row) := by
  induction v using Value.contents_induction with
  | step v ih =>
      cases v with
      | array items =>
          obtain ⟨p, hp, hrow⟩ := mem_instancesOf.mp h
          exact .of_part hp (ih p hp hrow)
      | «instance» inner =>
          obtain rfl := List.mem_singleton.mp h
          exact .refl _
      | _ => cases h

end Value

/-- The instances in the fields of an instance. -/
def Record.instances (row : Instance) : List Instance := instancesOf (Entries.values row.fields)

/-- The fault, if a result is one. -/
def fault? {α : Type} : Except Fault α → Option Fault
  | .ok _ => none
  | .error e => some e

/-- A path that comes back to where it was, or is taken for one. -/
def Fault.isCircular : Fault → Bool
  | .circular _ => true
  | _ => false

namespace Binding

variable {fault : Fault}

/-- The first fault in binding instances from first to last. -/
def firstFault (bind : Instance → Except Fault Instance) (rows : List Instance) : Option Fault :=
  rows.findSome? fun row => fault? (bind row)

theorem fault?_map {α β : Type} (f : α → β) (x : Except Fault α) : fault? (x.map f) = fault? x := by
  cases x <;> rfl

theorem fault?_eq_some_iff {α : Type} {x : Except Fault α} :
    fault? x = some fault ↔ x = .error fault := by
  cases x <;> simp [fault?]

/-- Binding a value fails where an instance in it does first. -/
theorem fault?_mapInstances (bind : Instance → Except Fault Instance) (v : Value) :
    fault? (mapInstances bind v) = firstFault bind v.instances := by
  induction v using Value.contents_induction with
  | step v ih =>
      cases v with
      | array items =>
          rw [mapInstances, fault?_map, Value.instances]
          replace ih : ∀ v ∈ items, fault? (mapInstances bind v) = firstFault bind v.instances := ih
          induction items with
          | nil => rfl
          | cons v vs ihItems =>
              obtain ⟨hv, hvs⟩ := List.forall_mem_cons.mp ih
              rw [mapItems, instancesOf, firstFault, List.findSome?_append, ← firstFault, ← hv]
              cases mapInstances bind v with
              | error e => rfl
              | ok w =>
                  rw [fault?_map]
                  exact ihItems hvs
      | «instance» row =>
          rw [mapInstances, fault?_map, Value.instances, firstFault, List.findSome?_singleton]
      | _ => rfl

theorem fault?_tryMapValues (bind : Instance → Except Fault Instance) (fields : Entries Value) :
    fault? (Entries.tryMapValues (mapInstances bind) fields) =
      firstFault bind (instancesOf (Entries.values fields)) := by
  induction fields with
  | nil => rfl
  | cons e fields ih =>
      obtain ⟨name, v⟩ := e
      show _ = firstFault bind (v.instances ++ instancesOf (Entries.values fields))
      rw [Entries.tryMapValues, firstFault, List.findSome?_append, ← firstFault,
        ← fault?_mapInstances]
      cases mapInstances bind v with
      | error e => rfl
      | ok w =>
          rw [fault?_map]
          exact ih

end Binding

/-! ## Faults of arranging -/

/-- Reading a value is no path on which one could come back. -/
theorem Fault.isCircular_of_ofValue {fault : Fault} (h : fault.ofValue) :
    fault.isCircular = false := by
  cases fault with
  | circular chain => cases h
  | _ => rfl

namespace Binding

variable {tables : Entries Table} {t : Table} {row mid inner : Instance} {rows : List Instance}
  {fault : Fault}

/-- Arguments cannot be typed because of one that leads to no field, or whose text cannot be
read. -/
theorem origin_of_typeArguments_error {r : Reader} {count : Nat} {typed arguments : Entries Value}
    (h : typeArguments r t count typed arguments = .error fault) :
    (∃ name ∈ Entries.names arguments, fieldFor t count name = .error fault) ∨ fault.ofValue := by
  induction arguments generalizing typed with
  | nil => cases h
  | cons argument arguments ih =>
      obtain ⟨name, token⟩ := argument
      rw [typeArguments] at h
      split at h
      · next hfield =>
        cases h
        exact .inl ⟨name, List.mem_cons_self, hfield⟩
      · split at h
        · next hread =>
          cases h
          exact .inr (Reader.ofValue_of_readFor hread)
        · obtain ⟨name', hname', hfield⟩ | hvalue := ih h
          · exact .inl ⟨name', List.mem_cons_of_mem _ hname', hfield⟩
          · exact .inr hvalue

/-- Why a call of the struct with these arguments is refused. -/
inductive RefusesCall (t : Table) (arguments : Entries Value) : Fault → Prop
  /-- The positions cannot be counted. -/
  | uncounted : NamesLast (Entries.names arguments) → RefusesCall t arguments .overflow
  /-- An argument leads to no field. -/
  | argument {count : Nat} {name : String} {fault : Fault} :
      countPositions (Entries.names arguments) = .ok count → name ∈ Entries.names arguments →
        fieldFor t count name = .error fault → RefusesCall t arguments fault
  /-- The text of an argument cannot be read. -/
  | value {fault : Fault} : fault.ofValue → RefusesCall t arguments fault

theorem refusesCall_of_typeCall {r : Reader} {arguments : Entries Value}
    (h : typeCall r t arguments = .error fault) : RefusesCall t arguments fault := by
  rcases typeCall_eq_error_iff.mp h with hcount | ⟨count, hcount, htyped⟩
  · obtain ⟨rfl, hlast⟩ := countPositions_eq_error_iff.mp hcount
    exact .uncounted hlast
  · rcases origin_of_typeArguments_error htyped with ⟨name, hname, hfield⟩ | hvalue
    · exact .argument hcount hname hfield
    · exact .value hvalue

/-- Only a call of a declared struct cannot be arranged. -/
theorem origin_of_arrangeInstance_error (h : arrangeInstance tables row = .error fault) :
    ∃ t, Entries.get? tables row.struct = some t ∧ row.call.isSome ∧
      RefusesCall t row.fields fault := by
  cases ht : Entries.get? tables row.struct with
  | none =>
      rw [arrangeInstance_of_undeclared ht] at h
      cases h
  | some t =>
      cases hcall : row.call with
      | none =>
          rw [arrangeInstance_of_bound ht hcall] at h
          cases h
      | some place =>
          rw [arrangeInstance_of_call ht hcall] at h
          exact ⟨t, rfl, rfl, refusesCall_of_typeCall (map_eq_error_iff.mp h)⟩

theorem isCircular_of_fieldFor {count : Nat} {name : String}
    (h : fieldFor t count name = .error fault) : fault.isCircular = false := by
  unfold fieldFor at h
  split at h
  · split at h
    · cases h
    · cases h
      rfl
  · split at h
    · cases h
    · cases h
      rfl

theorem isCircular_of_arrangeInstance (h : arrangeInstance tables row = .error fault) :
    fault.isCircular = false := by
  obtain ⟨t, -, -, hrefused⟩ := origin_of_arrangeInstance_error h
  cases hrefused with
  | uncounted _ => rfl
  | argument _ _ hfield => exact isCircular_of_fieldFor hfield
  | value hvalue => exact Fault.isCircular_of_ofValue hvalue

/-! ## Binding to any depth -/

/-- Binding the instance to any depth ends, and there is no fault. -/
inductive Succeeds (tables : Entries Table) : Instance → Prop
  | arranged {row mid : Instance} : arrangeInstance tables row = .ok mid →
      (∀ inner ∈ mid.instances, Succeeds tables inner) → Succeeds tables row

/-- Binding instances from first to last comes to this one: those before it are bound. -/
def ComesTo (tables : Entries Table) (rows : List Instance) (row : Instance) : Prop :=
  ∃ before after, rows = before ++ row :: after ∧ ∀ b ∈ before, Succeeds tables b

/-- Binding the instance to any depth ends with the fault. -/
inductive Fails (tables : Entries Table) : Instance → Fault → Prop
  | refused {row : Instance} {fault : Fault} : arrangeInstance tables row = .error fault →
      Fails tables row fault
  | inside {row mid inner : Instance} {fault : Fault} : arrangeInstance tables row = .ok mid →
      ComesTo tables mid.instances inner → Fails tables inner fault → Fails tables row fault

/-- Binding the instance comes to one in it. -/
def Enters (tables : Entries Table) (row inner : Instance) : Prop :=
  ∃ mid, arrangeInstance tables row = .ok mid ∧ ComesTo tables mid.instances inner

/-- Binding the instance comes to one that is inside `depth` others, this one among them. -/
def Nests (tables : Entries Table) : Nat → Instance → Prop
  | 0, _ => True
  | depth + 1, row => ∃ inner, Enters tables row inner ∧ Nests tables depth inner

/-- Binding instances from first to last ends with the fault. -/
def FailsAmong (tables : Entries Table) (rows : List Instance) (fault : Fault) : Prop :=
  ∃ row, ComesTo tables rows row ∧ Fails tables row fault

/-- Binding instances from first to last comes to one that is inside `depth` others. -/
def NestsAmong (tables : Entries Table) (depth : Nat) (rows : List Instance) : Prop :=
  ∃ row, ComesTo tables rows row ∧ Nests tables depth row

theorem ComesTo.mem (h : ComesTo tables rows row) : row ∈ rows := by
  obtain ⟨before, after, rfl, -⟩ := h
  exact List.mem_append_right before List.mem_cons_self

/-- An instance is not both bound and refused. -/
theorem Succeeds.not_fails (h : Succeeds tables row) : ¬ Fails tables row fault := by
  induction h with
  | arranged harranged _ ih =>
      intro hfails
      cases hfails with
      | refused hrefused =>
          rw [harranged] at hrefused
          cases hrefused
      | inside harranged' hcomes hinner =>
          rw [harranged] at harranged'
          cases harranged'
          exact ih _ hcomes.mem hinner

/-! ## Binding with a number of levels to go -/

/-- What a run with a bound finds out: all is bound, or there is a fault, or the bound is
reached. -/
inductive Outcome (succeeds : Prop) (fails : Fault → Prop) (nests : Prop) : Option Fault → Prop
  | bound : succeeds → Outcome succeeds fails nests none
  | fault {fault : Fault} : fault.isCircular = false → fails fault →
      Outcome succeeds fails nests (some fault)
  | tooDeep {fault : Fault} : fault.isCircular → nests → Outcome succeeds fails nests (some fault)

theorem Outcome.imp {succeeds succeeds' nests nests' : Prop} {fails fails' : Fault → Prop}
    {result : Option Fault} (h : Outcome succeeds fails nests result) (hs : succeeds → succeeds')
    (hf : ∀ fault, fails fault → fails' fault) (hn : nests → nests') :
    Outcome succeeds' fails' nests' result := by
  cases h with
  | bound h => exact .bound (hs h)
  | fault hcircular h => exact .fault hcircular (hf _ h)
  | tooDeep hcircular h => exact .tooDeep hcircular (hn h)

/-- What is found out about instances one by one is found out about all of them. -/
theorem outcome_firstFault {depth : Nat} {bind : Instance → Except Fault Instance}
    (h : ∀ row, Outcome (Succeeds tables row) (Fails tables row) (Nests tables depth row)
      (fault? (bind row))) (rows : List Instance) :
    Outcome (∀ row ∈ rows, Succeeds tables row) (FailsAmong tables rows)
      (NestsAmong tables depth rows) (firstFault bind rows) := by
  have hbound : ∀ row, fault? (bind row) = none → Succeeds tables row := by
    intro row hrow
    have hcase := h row
    rw [hrow] at hcase
    cases hcase with
    | bound h => exact h
  cases hfirst : firstFault bind rows with
  | none =>
      exact .bound fun row hrow => hbound row (List.findSome?_eq_none_iff.mp hfirst row hrow)
  | some fault =>
      obtain ⟨before, row, after, rfl, hrow, hbefore⟩ := List.findSome?_eq_some_iff.mp hfirst
      have hcomes : ComesTo tables (before ++ row :: after) row :=
        ⟨before, after, rfl, fun b hb => hbound b (hbefore b hb)⟩
      have hcase := h row
      rw [hrow] at hcase
      cases hcase with
      | fault hcircular hfails => exact .fault hcircular ⟨row, hcomes, hfails⟩
      | tooDeep hcircular hnests => exact .tooDeep hcircular ⟨row, hcomes, hnests⟩

theorem fault?_bindWithin_succ {depth : Nat} {path : List String}
    (h : arrangeInstance tables row = .ok mid) :
    fault? (bindWithin tables (depth + 1) path row) =
      firstFault (bindWithin tables depth (path ++ [mid.struct])) mid.instances := by
  rw [bindWithin, h]
  simp only
  rw [fault?_map, fault?_tryMapValues]
  rfl

/-- With levels to go, binding finds out how unbounded binding ends, or that instances nest as deep.
The induction is on the levels. -/
theorem outcome_bindWithin (depth : Nat) (path : List String) (row : Instance) :
    Outcome (Succeeds tables row) (Fails tables row) (Nests tables depth row)
      (fault? (bindWithin tables depth path row)) := by
  induction depth generalizing path row with
  | zero => exact .tooDeep rfl trivial
  | succ depth ih =>
      cases harranged : arrangeInstance tables row with
      | error fault =>
          have hrun : fault? (bindWithin tables (depth + 1) path row) = some fault := by
            rw [bindWithin, harranged]
            rfl
          rw [hrun]
          exact .fault (isCircular_of_arrangeInstance harranged) (.refused harranged)
      | ok mid =>
          rw [fault?_bindWithin_succ harranged]
          refine (outcome_firstFault (ih (path ++ [mid.struct])) mid.instances).imp ?_ ?_ ?_
          · exact .arranged harranged
          · rintro fault ⟨inner, hcomes, hfails⟩
            exact .inside harranged hcomes hfails
          · rintro ⟨inner, hcomes, hnests⟩
            exact ⟨inner, ⟨mid, harranged, hcomes⟩, hnests⟩

/-- Of two instances that binding comes to, one is the other or is bound before it. -/
theorem ComesTo.eq_or_succeeds {row' : Instance} (h : ComesTo tables rows row)
    (h' : ComesTo tables rows row') : row = row' ∨ Succeeds tables row ∨ Succeeds tables row' := by
  obtain ⟨before, after, rfl, hbefore⟩ := h
  obtain ⟨before', after', heq, hbefore'⟩ := h'
  rcases List.append_eq_append_iff.mp heq with ⟨between, rfl, hrest⟩ | ⟨between, rfl, hrest⟩
  · cases between with
    | nil => exact .inl (List.cons.inj hrest).1
    | cons b between =>
        obtain ⟨rfl, -⟩ := List.cons.inj hrest
        exact .inr (.inl (hbefore' row (List.mem_append_right before List.mem_cons_self)))
  · cases between with
    | nil => exact .inl (List.cons.inj hrest).1.symm
    | cons b between =>
        obtain ⟨rfl, -⟩ := List.cons.inj hrest
        exact .inr (.inr (hbefore row' (List.mem_append_right before' List.mem_cons_self)))

/-- Binding ends with one fault only. -/
theorem Fails.unique {fault' : Fault} (h : Fails tables row fault) (h' : Fails tables row fault') :
    fault = fault' := by
  induction h with
  | refused hrefused =>
      cases h' with
      | refused hrefused' => exact Except.error.inj (hrefused.symm.trans hrefused')
      | inside harranged =>
          rw [hrefused] at harranged
          cases harranged
  | inside harranged hcomes hfails ih =>
      cases h' with
      | refused hrefused =>
          rw [harranged] at hrefused
          cases hrefused
      | inside harranged' hcomes' hfails' =>
          rw [harranged] at harranged'
          cases harranged'
          rcases hcomes.eq_or_succeeds hcomes' with rfl | hsucceeds | hsucceeds
          · exact ih hfails'
          · exact absurd hfails hsucceeds.not_fails
          · exact absurd hfails' hsucceeds.not_fails

theorem FailsAmong.unique {fault' : Fault} (h : FailsAmong tables rows fault)
    (h' : FailsAmong tables rows fault') : fault = fault' := by
  obtain ⟨row, hcomes, hfails⟩ := h
  obtain ⟨row', hcomes', hfails'⟩ := h'
  rcases hcomes.eq_or_succeeds hcomes' with rfl | hsucceeds | hsucceeds
  · exact hfails.unique hfails'
  · exact absurd hfails hsucceeds.not_fails
  · exact absurd hfails' hsucceeds.not_fails

/-- Binding a value fails as binding the instances in it does. -/
theorem fault?_bindValue (tables : Entries Table) (v : Value) :
    fault? (bindValue tables v) = firstFault (bindWithin tables maxDepth []) v.instances :=
  fault?_mapInstances _ v

end Binding

end RowConfig
