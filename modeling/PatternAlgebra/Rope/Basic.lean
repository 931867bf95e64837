import PatternAlgebra.Error
import PatternAlgebra.Machine
import PatternAlgebra.Text.Chars
/-!
# Ropes

A `Rope` is a text that is cheap to put together.  Joining two ropes and taking a view of a rope
make one node and copy nothing; the text is written out once, at the end.  Lengths and positions
count characters.

The length of every node is stored in it, in a machine word.  Ropes share what they are made of, so
a text may be far longer than what is stored of it, and a join adds the lengths of its sides without
asking whether a word holds the sum.

As long as words hold all lengths, no node is without characters, a leaf stores the number of its
characters, a join the sum of both lengths, and a window lies inside its parent, is smaller than it,
and never looks at another window.
-/

namespace PatternAlgebra

/-- A text put together from pieces. -/
inductive Rope where
  /-- No characters. -/
  | empty
  /-- A text with the number of its characters. -/
  | leaf (text : String) (length : Nat)
  /-- The characters of `parent` at the positions `start`, …, `start + length - 1`. -/
  | window (parent : Rope) (start length : Nat)
  /-- The characters of `left` and then those of `right`. -/
  | concat (left right : Rope) (length : Nat)

namespace Rope

/-- The number of characters. -/
def length : Rope → Nat
  | empty => 0
  | leaf _ length => length
  | window _ _ length => length
  | concat _ _ length => length

/-- Whether there are no characters. -/
def isEmpty : Rope → Bool
  | empty => true
  | _ => false

/-- The rope of a text. -/
def ofString (text : String) : Rope :=
  if text.isEmpty then empty else leaf text text.length

/-- The rope of one character. -/
def ofChar (c : Char) : Rope := ofString (String.singleton c)

/-- One rope after another, with the sum of their lengths as a word. -/
def append (left right : Rope) : Rope :=
  if left.isEmpty then right
  else if right.isEmpty then left
  else concat left right (addWord left.length right.length)

instance : Append Rope := ⟨append⟩

/-- A view of the characters at the positions `start`, …, `stop - 1`.  A view of a view looks
    straight at the rope underneath. -/
def subSequence (rope : Rope) (start stop : Nat) : Except IndexError Rope :=
  if start > stop then .error (.startAfterEnd start stop)
  else if stop > rope.length then .error (.endPastLength stop rope.length)
  else if start = stop then .ok empty
  else if start = 0 ∧ stop = rope.length then .ok rope
  else match rope with
    | window parent offset _ => .ok (window parent (start + offset) (stop - start))
    | _ => .ok (window rope start (stop - start))

/-- The character at a position, found by descending towards it. -/
def locate? : Rope → Nat → Option Char
  | empty, _ => none
  | leaf text length, index => if length ≤ index then none else Text.charAt? text length index
  | window parent start length, index =>
    if length ≤ index then none else parent.locate? (index + start)
  | concat left right length, index =>
    if length ≤ index then none
    else if index < left.length then left.locate? index
    else right.locate? (index - left.length)

/-- The character at a position. -/
def charAt (rope : Rope) (index : Nat) : Except IndexError Char :=
  match rope.locate? index with
  | some c => .ok c
  | none => .error (.charAt index rope.length)

end Rope

end PatternAlgebra
