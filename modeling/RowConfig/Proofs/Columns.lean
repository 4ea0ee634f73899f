import RowConfig.Reader

/-!
# Columns of the parts of a token

The parts of a token are read like tokens, each from the column at which it stands. A part that
stands further right is read alike: the outcome is the same value or the same fault, with its
columns moved by as much (`Reader.readElement_moved`).
-/

namespace RowConfig

variable {α β γ : Type}

/-! ## Data further right -/

def Location.moved (n : Nat) (l : Location) : Location := { l with column := l.column + n }

/-- The same part of a text, `n` characters further right. -/
def Span.moved (n : Nat) (s : Span) : Span := { s with column := s.column + n }

/-- The fault with another location. -/
def Fault.mapLocation (f : Location → Location) : Fault → Fault
  | .unexpectedLine l problem => .unexpectedLine (f l) problem
  | .unclosedString l multiline quote => .unclosedString (f l) multiline quote
  | .invalidEscape l sequence problem => .invalidEscape (f l) sequence problem
  | .unclosedList l => .unclosedList (f l)
  | .outsideStruct l line => .outsideStruct (f l) line
  | .includeNotFound l path => .includeNotFound (f l) path
  | .typeMismatch l expected found => .typeMismatch (f l) expected found
  | .malformedArray l found => .malformedArray (f l) found
  | .malformedCall l found expected => .malformedCall (f l) found expected
  | .invalidChoices l field problem => .invalidChoices (f l) field problem
  | fault => fault

def Fault.moved (n : Nat) (fault : Fault) : Fault := fault.mapLocation (Location.moved n)

/-- The value of a part that stands `n` characters further right: an inline row remembers its call,
and its arguments have no places. -/
def Value.moved (n : Nat) : Value → Value
  | .instance row => .instance { row with call := row.call.map (Location.moved n) }
  | v => v

/-- An outcome further right, be it a result or a fault. -/
def movedResult (n : Nat) (f : α → β) : Except Fault α → Except Fault β
  | .ok a => .ok (f a)
  | .error fault => .error (fault.moved n)

theorem map_movedResult {n : Nat} {f : α → β} {g : β → γ} {k : α → γ} {x : Except Fault α}
    (h : ∀ a, g (f a) = k a) : (movedResult n f x).map g = movedResult n k x := by
  cases x with
  | error fault => rfl
  | ok a => exact congrArg Except.ok (h a)

theorem movedResult_map {n : Nat} {f : β → γ} {g : α → β} {x : Except Fault α} :
    movedResult n f (x.map g) = movedResult n (f ∘ g) x := by
  cases x <;> rfl

/-! ## Reading -/

namespace Span

theorem trimmed_moved (n : Nat) (s : Span) : (s.moved n).trimmed = s.trimmed.moved n := by
  rw [trimmed, trimmed, moved, moved, Nat.add_right_comm]

theorem place_moved (n column : Nat) (texts : List (List Char)) :
    place (column + n) texts = (place column texts).map (moved n) := by
  induction texts generalizing column with
  | nil => rfl
  | cons text texts ih =>
      rw [place, place, List.map_cons, ← ih, show column + n + text.length + 1 =
        column + text.length + 1 + n by omega]
      rfl

theorem arguments_moved (n : Nat) (s : Span) : (s.moved n).arguments = s.arguments.map (moved n) :=
  place_moved n s.column _

end Span

namespace Reader

variable (r : Reader) (n : Nat)

theorem place_moved (s : Span) : r.place (s.moved n) = (r.place s).moved n := by
  rw [place, place, Location.shifted, Location.shifted, Location.moved, Span.moved, Nat.add_assoc]

theorem escapedText_moved (body : Span) :
    r.escapedText (body.moved n) = movedResult n id (r.escapedText body) := by
  unfold escapedText
  rw [show (body.moved n).text = body.text from rfl]
  split
  · next m _ =>
    have hcolumn : r.location.column + (body.column + n + m.before.length) =
        r.location.column + (body.column + m.before.length) + n := by omega
    simp only [Span.moved, movedResult, Fault.moved, Fault.mapLocation, Location.moved,
      Location.shifted, hcolumn]
  · split <;> rfl

theorem literalBody?_moved (q : Quote) (s : Span) :
    literalBody? q (s.moved n) = (literalBody? q s).map (Span.moved n) := by
  unfold literalBody?
  rw [Option.map_map]
  refine congrArg (fun f => Option.map f _) (funext fun body => ?_)
  simp only [Span.moved, Function.comp_apply, Span.mk.injEq, true_and]
  omega

theorem readText_moved (s : Span) : r.readText (s.moved n) = movedResult n id (r.readText s) := by
  unfold readText
  rw [show (s.moved n).text = s.text from rfl]
  split
  · next q _ =>
    rw [literalBody?_moved]
    cases literalBody? q s with
    | none => rw [place_moved]; rfl
    | some body =>
        simp only [Option.map_some]
        split
        · exact escapedText_moved r n body
        · rfl
  · rfl

theorem splitCall?_moved (s : Span) :
    splitCall? (s.moved n) = (splitCall? s).map fun call => (call.1, call.2.moved n) := by
  unfold splitCall?
  rw [show (s.moved n).text = s.text from rfl]
  split
  · rfl
  · split
    · rfl
    · simp only
      split
      · simp only [Option.map_some, Span.moved]
        congr 3
        omega
      · rfl

/-- The arguments of an inline row are kept as texts, and what is wrong with one has no place. -/
theorem collectArguments_moved (struct : String) (position : Nat) (fields : Entries Value)
    (named : Bool) (spans : List Span) :
    collectArguments struct position fields named (spans.map (Span.moved n)) =
      movedResult n id (collectArguments struct position fields named spans) := by
  induction spans generalizing position fields named with
  | nil => rfl
  | cons s spans ih =>
      have hadd : addArgument struct position (s.trimmed.moved n) fields named =
          movedResult n id (addArgument struct position s.trimmed fields named) := by
        unfold addArgument
        rw [show (s.trimmed.moved n).text = s.trimmed.text from rfl]
        split
        · rfl
        · split <;> rfl
      rw [List.map_cons, collectArguments, collectArguments, Span.trimmed_moved, hadd]
      simp only [show (s.trimmed.moved n).text = s.trimmed.text from rfl, ih]
      split
      · rfl
      · cases addArgument struct position s.trimmed fields named <;> rfl

theorem readCall_moved (s : Span) (expected : String) :
    r.readCall (s.moved n) expected = movedResult n (Value.moved n) (r.readCall s expected) := by
  unfold readCall
  rw [splitCall?_moved, place_moved, show (s.moved n).text = s.text from rfl]
  cases splitCall? s with
  | none => rfl
  | some call =>
      simp only [Option.map_some]
      split
      · rfl
      · split
        · rw [Span.arguments_moved, collectArguments_moved, movedResult_map]
          exact map_movedResult fun _ => rfl
        · rw [Span.trimmed_moved, readText_moved, movedResult_map]
          exact map_movedResult fun _ => rfl

theorem readScalar_moved (s : Span) (type : ScalarType) :
    r.readScalar (s.moved n) type = movedResult n (Value.moved n) (r.readScalar s type) := by
  unfold readScalar
  rw [place_moved, show (s.moved n).text = s.text from rfl]
  cases type with
  | struct name => exact readCall_moved r n s name
  | bool => simp only; split <;> rfl
  | int => simp only; split <;> rfl
  | float => simp only; split <;> rfl
  | str | date | time | dateTime =>
      simp only
      rw [readText_moved, movedResult_map]
      exact map_movedResult fun _ => rfl

/-- A part of a token is read alike wherever it stands. -/
theorem readElement_moved (s : Span) (type : ScalarType) :
    r.readElement (s.moved n) type = movedResult n (Value.moved n) (r.readElement s type) := by
  unfold readElement
  rw [show (s.moved n).text = s.text from rfl]
  split
  · rfl
  · exact readScalar_moved r n s type

end Reader

end RowConfig
