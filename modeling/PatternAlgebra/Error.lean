/-!
# Failures

A construction fails with a `BuildError`, and reading a rope outside its bounds fails with an
`IndexError`.  Both are raised where the faulty call is made, never later when a pattern is
rendered.  Each cause carries the values it complains about, and `message` is the only place
where it is put into words.
-/

namespace PatternAlgebra

/-- Why a construction was refused. -/
inductive BuildError where
  /-- A repetition range whose maximum is below its minimum. -/
  | invertedRepetitionRange (min max : Nat)
  /-- A repetition count that matching engines cannot represent. -/
  | repetitionCountTooLarge (count limit : Nat)
  /-- A character range whose first character sorts after its last. -/
  | invertedCharRange (first last : Char)
  /-- A combination of operands that received too few of them. -/
  | tooFewOperands (expected found : Nat)
  /-- A character set without members. -/
  | emptyCharSet
  /-- A look-behind around an expression, given by its text, that has no known maximum length. -/
  | unboundedLookBehind (expression : String)
  deriving DecidableEq, Repr

namespace BuildError

/-- The failure in words. -/
def message : BuildError → String
  | invertedRepetitionRange min max =>
    "invalid argument: maximum repetitions " ++ toString max
      ++ " is less than minimum repetitions " ++ toString min
  | repetitionCountTooLarge count limit =>
    "invalid argument: repetition count " ++ toString count
      ++ " exceeds the maximum of " ++ toString limit
  | invertedCharRange first last =>
    "invalid argument: character range '" ++ first.toString ++ "'-'" ++ last.toString
      ++ "' has first > last"
  | tooFewOperands expected found =>
    "invalid argument: expected at least " ++ toString expected
      ++ " operands, found " ++ toString found
  | emptyCharSet => "invalid argument: character set must contain at least one character"
  | unboundedLookBehind expression =>
    "look-behind cannot be applied to `" ++ expression
      ++ "` because its length is potentially unbounded"

end BuildError

/-- Why a position or a range does not lie inside a rope. -/
inductive IndexError where
  /-- A position at or past the end. -/
  | charAt (index length : Nat)
  /-- A range that starts after it ends. -/
  | startAfterEnd (start stop : Nat)
  /-- A range that ends past the end. -/
  | endPastLength (stop length : Nat)
  deriving DecidableEq, Repr

namespace IndexError

/-- The failure in words. -/
def message : IndexError → String
  | charAt index length =>
    "index out of range: index " ++ toString index ++ " is out of bounds for length "
      ++ toString length
  | startAfterEnd start stop =>
    "index out of range: start " ++ toString start ++ " is greater than end " ++ toString stop
  | endPastLength stop length =>
    "index out of range: end " ++ toString stop ++ " is greater than length " ++ toString length

end IndexError

/-- A computation in two steps succeeds if both steps do. -/
theorem bind_eq_ok_iff {ε α β : Type} {x : Except ε α} {f : α → Except ε β} {b : β} :
    (x >>= f) = .ok b ↔ ∃ a, x = .ok a ∧ f a = .ok b := by
  cases x with
  | error e => exact ⟨fun h => (nomatch h), fun ⟨_, ha, _⟩ => (nomatch ha)⟩
  | ok a =>
      constructor
      · exact fun h => ⟨a, rfl, h⟩
      · rintro ⟨a', ha, h⟩
        obtain rfl := Except.ok.inj ha
        exact h

end PatternAlgebra
