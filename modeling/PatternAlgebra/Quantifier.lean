import PatternAlgebra.Analysis
import PatternAlgebra.Error
/-!
# Quantifiers

A quantifier says how many times its base may repeat, and a mode how eagerly.  Counts are limited
to what engines can represent, and the two counts of a range are in order.
-/

namespace PatternAlgebra

/-- How many times the base may repeat. -/
inductive Quantifier where
  | anyTimes
  | atLeastOnce
  | optional
  /-- So many times. -/
  | exactly (count : Nat)
  /-- At least `min` times, and at most `max` times if a maximum is given. -/
  | range (min : Nat) (max : Option Nat)
  deriving DecidableEq, Repr, Hashable

/-- The largest repetition count that engines accept. -/
def maxRepetitions : Nat := 0x7FFFFFFF

/-- Refuses a count above the limit. -/
def checkCount (count : Nat) : Except BuildError Unit :=
  if maxRepetitions < count then .error (.repetitionCountTooLarge count maxRepetitions)
  else .ok ()

namespace Quantifier

/-- Refuses counts above the limit, the minimum before the maximum, and then a maximum that is
    below its minimum. -/
def check : Quantifier → Except BuildError Unit
  | exactly count => checkCount count
  | range min none => checkCount min
  | range min (some max) => do
    checkCount min
    checkCount max
    if max < min then throw (.invertedRepetitionRange min max)
  | _ => .ok ()

/-- The pattern text. -/
def text : Quantifier → String
  | anyTimes => "*"
  | atLeastOnce => "+"
  | optional => "?"
  | exactly count => "\x7b" ++ toString count ++ "\x7d"
  | range min (some max) => "\x7b" ++ toString min ++ "," ++ toString max ++ "\x7d"
  | range min none => "\x7b" ++ toString min ++ ",\x7d"

/-- What so many repetitions of a base can match.  A base of varying length may match a different
    length in every repetition, so a counted repetition of it has no reliable bound. -/
def analysis (q : Quantifier) (base : Analysis) : Analysis :=
  match q with
  | anyTimes => .unknown
  | optional =>
    { boundedLength := base.boundedLength
      repetitionInvalidatesBounds := true
      possiblyZeroLength := true }
  | atLeastOnce =>
    { boundedLength := none
      repetitionInvalidatesBounds := false
      possiblyZeroLength := base.possiblyZeroLength }
  | exactly count =>
    { boundedLength :=
        if base.repetitionInvalidatesBounds then none else mulBound base.boundedLength count
      repetitionInvalidatesBounds := base.repetitionInvalidatesBounds
      possiblyZeroLength := count == 0 || base.possiblyZeroLength }
  | range min max =>
    { boundedLength :=
        if base.repetitionInvalidatesBounds then none else max.bind (mulBound base.boundedLength)
      repetitionInvalidatesBounds := min == 0 || base.repetitionInvalidatesBounds
      possiblyZeroLength := min == 0 || base.possiblyZeroLength }

end Quantifier

/-- How eagerly a quantifier takes repetitions. -/
inductive Mode where
  /-- As many as possible, giving back on demand. -/
  | greedy
  /-- As few as possible. -/
  | reluctant
  /-- As many as possible, giving nothing back. -/
  | possessive
  deriving DecidableEq, Repr, Hashable

namespace Mode

/-- Quantifiers are greedy unless they say otherwise. -/
instance : Inhabited Mode := ⟨greedy⟩

/-- What is written after the quantifier. -/
def suffix : Mode → String
  | greedy => ""
  | reluctant => "?"
  | possessive => "+"

end Mode

end PatternAlgebra
