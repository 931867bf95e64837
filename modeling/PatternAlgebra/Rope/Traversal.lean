import PatternAlgebra.Rope.Basic
/-!
# Reading a rope from left to right

A rope is written out with a stack of ranges that are still to be written, the next one on top.
Taking the top range either yields a piece of some leaf, or replaces the range by ranges of the
ropes below it: the parent of a window, the two sides of a join, each clipped to what is asked
for.  The ropes on the stack get smaller with every replacement, so writing ends, however deep
the rope is, and it needs no call stack.

A rope may stand for more text than there is memory for.  Handing its pieces on is no trouble, but
putting them into one text may come to a fault.
-/

namespace PatternAlgebra.Rope

/-- A range of characters of a rope that is still to be written. -/
structure Pending where
  rope : Rope
  start : Nat
  stop : Nat

/-- The number of nodes that a reader may visit. -/
def nodeCount : Rope → Nat
  | empty => 1
  | leaf _ _ => 1
  | window parent _ _ => parent.nodeCount + 1
  | concat left right _ => left.nodeCount + right.nodeCount + 1

/-- The nodes of all ropes on the stack. -/
def stackWeight : List Pending → Nat
  | [] => 0
  | top :: rest => top.rope.nodeCount + stackWeight rest

theorem nodeCount_pos (rope : Rope) : 0 < rope.nodeCount := by
  cases rope <;> simp [nodeCount]

/-- The ranges of the two sides of a join, the left one first; a side of which nothing is asked
    for has none. -/
def sides (left right : Rope) (start stop : Nat) : List Pending :=
  (if start < left.length then [⟨left, start, min stop left.length⟩] else [])
    ++ (if left.length < stop then [⟨right, start - left.length, stop - left.length⟩] else [])

theorem stackWeight_append (upper lower : List Pending) :
    stackWeight (upper ++ lower) = stackWeight upper + stackWeight lower := by
  induction upper with
  | nil => simp [stackWeight]
  | cons top upper ih => simp only [List.cons_append, stackWeight, ih]; omega

theorem stackWeight_sides_le (left right : Rope) (start stop : Nat) :
    stackWeight (sides left right start stop) ≤ left.nodeCount + right.nodeCount := by
  unfold sides
  split <;> split <;> simp [stackWeight]

/-- The next piece of text, and the stack after it. -/
def nextPiece : List Pending → Option (String × List Pending)
  | [] => none
  | ⟨rope, start, stop⟩ :: rest =>
    if stop ≤ start then nextPiece rest
    else match rope with
      | empty => nextPiece rest
      | leaf text length => some (Text.charRange text length start stop, rest)
      | window parent offset _ => nextPiece (⟨parent, start + offset, stop + offset⟩ :: rest)
      | concat left right _ => nextPiece (sides left right start stop ++ rest)
termination_by stack => stackWeight stack
decreasing_by
  · simp only [stackWeight]; have := nodeCount_pos rope; omega
  · simp [stackWeight, nodeCount]
  · simp [stackWeight, nodeCount]
  · have := stackWeight_sides_le left right start stop
    simp only [stackWeight, nodeCount, stackWeight_append]; omega

/-- A piece is paid for with at least one node. -/
theorem stackWeight_lt_of_nextPiece {stack rest : List Pending} {piece : String}
    (h : nextPiece stack = some (piece, rest)) : stackWeight rest < stackWeight stack := by
  fun_induction nextPiece stack with
  | case1 => contradiction
  | case2 rope start stop tail hle ih =>
    have := ih h
    simp only [stackWeight]; omega
  | case3 start stop tail hlt ih =>
    have := ih h
    simp only [stackWeight]; omega
  | case4 start stop tail hlt text length =>
    obtain ⟨-, rfl⟩ := Prod.mk.inj (Option.some.inj h)
    simp [stackWeight, nodeCount]
  | case5 start stop tail hlt parent offset length ih =>
    have := ih h
    simp only [stackWeight, nodeCount] at this ⊢; omega
  | case6 start stop tail hlt left right length ih =>
    have := ih h
    have := stackWeight_sides_le left right start stop
    simp only [stackWeight, nodeCount, stackWeight_append] at *; omega

/-- Takes in the pieces from left to right. -/
def foldPieces {α : Type} (f : α → String → α) (acc : α) (stack : List Pending) : α :=
  match h : nextPiece stack with
  | none => acc
  | some (piece, rest) =>
    have := stackWeight_lt_of_nextPiece h
    foldPieces f (f acc piece) rest
termination_by stackWeight stack

/-- All of a rope, still to be written. -/
def unread (rope : Rope) : List Pending := [⟨rope, 0, rope.length⟩]

/-- The pieces of a rope, from left to right. -/
def pieces (rope : Rope) : Array String := foldPieces Array.push #[] rope.unread

/-- The characters of a rope, from left to right. -/
def chars (rope : Rope) : List Char := rope.pieces.toList.flatMap String.toList

/-- What is handed to a writer that takes any number of pieces. -/
def writeTo (rope : Rope) (out : String) : String := foldPieces (· ++ ·) out rope.unread

instance : ToString Rope := ⟨fun rope => rope.writeTo ""⟩

/-- A piece after what has been written already, if there can be such a text. -/
def checkedExtend (out : Except Fault String) (piece : String) : Except Fault String := do
  let written ← out
  if written.utf8ByteSize + piece.utf8ByteSize ≤ maxTextBytes then return written ++ piece
  else throw .capacity

/-- Writes a rope to a text, after what has been written there already. -/
def checkedWriteTo (rope : Rope) (out : String) : Except Fault String :=
  foldPieces checkedExtend (.ok out) rope.unread

/-- The text of a rope.  Memory is asked for first, a byte for every character. -/
def checkedRender (rope : Rope) : Except Fault String :=
  if rope.length ≤ maxTextBytes then rope.checkedWriteTo "" else .error .capacity

/-- Ropes are equal when they have the same characters, whatever their shapes. -/
instance : BEq Rope where
  beq a b := a.length == b.length && a.chars == b.chars

/-- Only the length and the characters enter the hash, so equal ropes have equal hashes. -/
instance : Hashable Rope where
  hash rope := mixHash (hash rope.length) (hash (rope.chars.map Char.toNat))

end PatternAlgebra.Rope
