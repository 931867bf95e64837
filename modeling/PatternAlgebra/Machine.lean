/-!
# Words and texts of the machine

Lengths are stored in machine words.  Some sums are formed with a check and are given up if no word
holds them; others are not checked and start over at zero past the last word.  A text is limited by
the memory that can be addressed, whatever its length is stored in.

A `Fault` is a step that the machine cannot take.  Unlike a failure it is not reported to the caller
as a result: the computation is cut short.
-/

namespace PatternAlgebra

/-- The least number that a machine word does not hold. -/
def wordLimit : Nat := 0x10000000000000000

/-- The number, if a machine word holds it. -/
def fitWord? (n : Nat) : Option Nat := if n < wordLimit then some n else none

/-- The sum of two words, as far as a word holds it. -/
def addWord (m n : Nat) : Nat := (m + n) % wordLimit

/-- The largest number of bytes that memory can be asked for at once, and so of a text. -/
def maxTextBytes : Nat := 0x7FFFFFFFFFFFFFFF

/-- A step that the machine cannot take. -/
inductive Fault where
  /-- A sum that no word holds. -/
  | overflow (m n : Nat)
  /-- A difference below zero. -/
  | underflow (m n : Nat)
  /-- A byte of a text at an offset that is past the end or inside a character. -/
  | byteAt (text : String) (offset : Nat)
  /-- A part of a text whose ends are out of order, past the end or inside a character. -/
  | cut (text : String) (start stop : Nat)
  /-- A text that takes up more bytes than there can be. -/
  | capacity
  deriving DecidableEq, Repr

/-- The fault in words. -/
def Fault.message : Fault → String
  | overflow m n => "no word holds " ++ toString m ++ " + " ++ toString n
  | underflow m n => toString m ++ " - " ++ toString n ++ " is below zero"
  | byteAt _ offset => "no character starts at byte " ++ toString offset
  | cut _ start stop => "bytes " ++ toString start ++ " to " ++ toString stop ++ " are no text"
  | capacity => "capacity overflow"

end PatternAlgebra
