import PatternAlgebra.Machine
/-!
# Structural analysis

Every node knows three facts about what it can match: the largest number of characters, if there
is one; whether repeating it makes such a bound unreliable for what encloses it; and whether it
can match the empty text.  The facts of a node are computed from those of its parts alone.

A bound above `maxBoundedLength` counts as no bound.  The clamp is applied to every sum and every
product, and once a bound is lost it never comes back.  Sums and products are formed in machine
words, and one that no word holds is no bound either.
-/

namespace PatternAlgebra

/-- The largest length that matching engines can keep track of. -/
def maxBoundedLength : Nat := 0x0FFFFFFF

/-- What a node can match. -/
structure Analysis where
  /-- The largest number of characters matched, or `none` if there is no bound. -/
  boundedLength : Option Nat
  /-- Whether repeating the node makes the bounds of enclosing nodes unreliable. -/
  repetitionInvalidatesBounds : Bool
  /-- Whether the node can match the empty text. -/
  possiblyZeroLength : Bool
  deriving DecidableEq, Repr

/-- Forgets a bound above the ceiling. -/
def clampBound (bound : Option Nat) : Option Nat :=
  bound.filter (· ≤ maxBoundedLength)

/-- The bound of one match after another. -/
def addBounds : Option Nat → Option Nat → Option Nat
  | some m, some n => clampBound (fitWord? (m + n))
  | _, _ => none

/-- The bound of so many matches in a row. -/
def mulBound (bound : Option Nat) (times : Nat) : Option Nat :=
  clampBound (bound.bind fun n => fitWord? (n * times))

/-- The bound of either match. -/
def maxBounds : Option Nat → Option Nat → Option Nat
  | some m, some n => some (max m n)
  | _, _ => none

namespace Analysis

/-- Exactly one character. -/
def singleChar : Analysis where
  boundedLength := some 1
  repetitionInvalidatesBounds := false
  possiblyZeroLength := false

/-- Nothing is known. -/
def unknown : Analysis where
  boundedLength := none
  repetitionInvalidatesBounds := true
  possiblyZeroLength := true

/-- A position and no character.  Repeating an assertion never changes how much it consumes. -/
def assertion : Analysis where
  boundedLength := some 0
  repetitionInvalidatesBounds := false
  possiblyZeroLength := true

/-- A fixed run of characters. -/
def fixed (length : Nat) : Analysis where
  boundedLength := clampBound (some length)
  repetitionInvalidatesBounds := length == 0
  possiblyZeroLength := length == 0

/-- One match after another. -/
def followedBy (a b : Analysis) : Analysis where
  boundedLength := addBounds a.boundedLength b.boundedLength
  repetitionInvalidatesBounds := a.repetitionInvalidatesBounds || b.repetitionInvalidatesBounds
  possiblyZeroLength := a.possiblyZeroLength && b.possiblyZeroLength

/-- The empty text, which is where a concatenation starts. -/
def nothing : Analysis where
  boundedLength := some 0
  repetitionInvalidatesBounds := false
  possiblyZeroLength := true

/-- All parts, one after another. -/
def concatenation (parts : List Analysis) : Analysis :=
  parts.foldl followedBy nothing

/-- One of the alternatives.  They may differ in length, so a repetition has no reliable bound. -/
def alternation (alternatives : List Analysis) : Analysis where
  boundedLength := alternatives.foldl (fun bound a => maxBounds bound a.boundedLength) (some 0)
  repetitionInvalidatesBounds := true
  possiblyZeroLength := alternatives.any (·.possiblyZeroLength)

end Analysis

end PatternAlgebra
