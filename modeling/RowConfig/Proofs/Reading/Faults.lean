import RowConfig.Builder
import RowConfig.Proofs.Reading

/-!
# Faults of reading

A token that cannot be read is at fault itself: a text is not closed or not escaped right, a value
has another type or is not among the choices, a list or a call is malformed (`Fault.ofValue`).
Reading finds nothing else, whatever the token is read for (`Reader.ofValue_of_readFor`). A line
that declares something is refused because its value cannot be read, or because it stands in the
wrong place or names a field that there is not (`Builder.refuses_of_declare`).
-/

namespace RowConfig

/-- A fault of the text of a value. -/
def Fault.ofValue : Fault → Bool
  | .unclosedString .. | .invalidEscape .. | .typeMismatch .. | .malformedArray .. | .malformedCall ..
  | .invalidChoices .. | .choiceViolation .. | .positionalAfterNamed _ => true
  | _ => false

/-- A fault of a line that is no fault of the value on it. -/
def Fault.ofLine : Fault → Bool
  | .unexpectedLine .. | .outsideStruct .. | .unknownField .. => true
  | _ => false

namespace Reader

variable {r : Reader} {s : Span} {token : List Char} {field : Field} {fault : Fault}

theorem ofValue_of_readText (h : r.readText s = .error fault) : fault.ofValue := by
  unfold readText escapedText at h
  split at h
  · split at h
    · cases h
      rfl
    · split at h
      · split at h
        · cases h
          rfl
        · split at h <;> cases h
      · cases h
  · cases h

theorem ofValue_of_readCall {expected : String} (h : r.readCall s expected = .error fault) :
    fault.ofValue := by
  unfold readCall at h
  split at h
  · cases h
    rfl
  · split at h
    · cases h
      rfl
    · split at h
      · rw [eq_of_collectArguments_error (map_eq_error_iff.mp h)]
        rfl
      · exact ofValue_of_readText (map_eq_error_iff.mp h)

theorem ofValue_of_readScalar {type : ScalarType} (h : r.readScalar s type = .error fault) :
    fault.ofValue := by
  unfold readScalar at h
  cases type with
  | struct name => exact ofValue_of_readCall h
  | bool | int | float =>
      simp only at h
      split at h <;> first | (cases h; done) | (cases h; rfl)
  | _ =>
      -- the four textual types
      exact ofValue_of_readText (map_eq_error_iff.mp h)

theorem ofValue_of_readElements {type : ScalarType} {spans : List Span}
    (h : r.readElements type spans = .error fault) : fault.ofValue := by
  induction spans with
  | nil => cases h
  | cons s spans ih =>
      rw [readElements] at h
      split at h
      · exact ih h
      · split at h
        · next hread =>
          cases h
          unfold readElement at hread
          split at hread
          · cases hread
          · exact ofValue_of_readScalar hread
        · exact ih (map_eq_error_iff.mp h)

theorem ofValue_of_read {type : FieldType} (h : r.read token type = .error fault) :
    fault.ofValue := by
  unfold read readArray at h
  simp only at h
  split at h
  · cases h
  · split at h
    · split at h
      · cases h
        rfl
      · exact ofValue_of_readElements (map_eq_error_iff.mp h)
    · exact ofValue_of_readScalar h

theorem ofValue_of_readFor (h : r.readFor token field = .error fault) : fault.ofValue := by
  unfold readFor at h
  split at h
  · next hread =>
    cases h
    exact ofValue_of_read hread
  · have hcheck := map_eq_error_iff.mp h
    unfold Field.checkChoice at hcheck
    split at hcheck
    · cases hcheck
    · split at hcheck
      · cases hcheck
      · cases hcheck
        rfl

/-- Choices are checked as they are read. -/
theorem ofValue_of_readChoices (h : r.readChoices token field = .error fault) : fault.ofValue := by
  unfold readChoices at h
  simp only at h
  split at h
  · cases h
    rfl
  · split at h
    · cases h
      rfl
    · split at h
      · cases h
        rfl
      · split at h
        · next hread =>
          cases h
          exact ofValue_of_readElements hread
        · cases h
          rfl
        · cases h

end Reader

/-! ## Lines -/

/-- The part of a line that is read as a value. -/
def LineKind.value? : LineKind → Option Part
  | .field f => some f.value
  | .override _ value => some value
  | _ => none

namespace Builder

variable {b : Builder} {l : LogicalLine} {kind : LineKind} {t : Table} {value : Part} {fault : Fault}

/-- The value on a line cannot be read. -/
inductive RefusesValue (b : Builder) (l : LogicalLine) (value : Part) (fault : Fault) : Prop
  | global {type : FieldType} : (b.reader l value).read value.text type = .error fault →
      RefusesValue b l value fault
  | choices {field : Field} : (b.reader l value).readChoices value.text field = .error fault →
      RefusesValue b l value fault
  | field {field : Field} : (b.reader l value).readFor value.text field = .error fault →
      RefusesValue b l value fault

theorem RefusesValue.ofValue (h : b.RefusesValue l value fault) : fault.ofValue := by
  cases h with
  | global hread => exact Reader.ofValue_of_read hread
  | choices hread => exact Reader.ofValue_of_readChoices hread
  | field hread => exact Reader.ofValue_of_readFor hread

/-- Why a line that continues no row is refused. -/
inductive Refuses (b : Builder) (l : LogicalLine) (kind : LineKind) (fault : Fault) : Prop
  | line : fault.ofLine → Refuses b l kind fault
  | value {value : Part} : kind.value? = some value → b.RefusesValue l value fault →
      Refuses b l kind fault

theorem ofLine_of_currentStruct {offset : Nat} {of : StructLine}
    (h : b.currentStruct l offset of = .error fault) : fault.ofLine := by
  unfold currentStruct at h
  split at h
  · cases h
  · cases h
    rfl

theorem ofLine_of_changeField {change : Field → Field} {name : String}
    (h : t.changeField name change = .error fault) : fault.ofLine := by
  unfold Table.changeField at h
  split at h
  · cases h
    rfl
  · cases h

theorem refuses_of_global {f : FieldLine} (h : b.global l f = .error fault) :
    b.Refuses l (.field f) fault := by
  unfold global at h
  simp only at h
  split at h
  · cases h
    exact .line rfl
  · split at h
    · cases h
      exact .line rfl
    · have hread := map_eq_error_iff.mp h
      split at hread
      · cases hread
      · exact .value rfl (.global hread)

theorem refuses_of_field {f : FieldLine} (h : b.field l f = .error fault) :
    b.Refuses l (.field f) fault := by
  unfold field at h
  split at h
  · next hstruct =>
    cases h
    exact .line (ofLine_of_currentStruct hstruct)
  · have hfield := map_eq_error_iff.mp h
    unfold fieldOf at hfield
    simp only at hfield
    split at hfield
    · cases hfield
    · split at hfield
      · exact .value rfl (.choices (map_eq_error_iff.mp hfield))
      · exact .value rfl (.global (map_eq_error_iff.mp hfield))

theorem refuses_of_overridden {field : Field} {name : Part}
    (h : b.overridden l t field value = .error fault) : b.Refuses l (.override name value) fault := by
  unfold overridden at h
  split at h
  · split at h
    · next hdefault =>
      cases h
      exact .line (ofLine_of_changeField hdefault)
    · exact .line (ofLine_of_changeField h)
  · split at h
    · split at h
      · next hread =>
        cases h
        exact .value rfl (.choices hread)
      · exact .line (ofLine_of_changeField h)
    · split at h
      · next hread =>
        cases h
        exact .value rfl (.field hread)
      · exact .line (ofLine_of_changeField h)

theorem refuses_of_declare (h : b.declare l kind = .error fault) : b.Refuses l kind fault := by
  cases kind with
  | header name => cases h
  | field f =>
      rw [declare] at h
      split at h
      · exact refuses_of_global h
      · exact refuses_of_field h
  | override name value =>
      rw [declare] at h
      unfold override at h
      split at h
      · next hstruct =>
        cases h
        exact .line (ofLine_of_currentStruct hstruct)
      · split at h
        · cases h
        · simp only at h
          split at h
          · cases h
            exact .line rfl
          · exact refuses_of_overridden (map_eq_error_iff.mp h)
  | row arguments => exact .line (ofLine_of_currentStruct (map_eq_error_iff.mp h))
  | continuation text =>
      rw [declare] at h
      unfold continueRow at h
      split at h
      · cases h
        exact .line rfl
      · cases h

end Builder

end RowConfig
