import PatternAlgebra.Rope.Traversal
/-!
# Reading a rope with every step checked

The functions that read ropes add and subtract machine words and address stored texts by bytes, and
none of them asks whether that is possible.  Here they are run once more with a check at each such
step, and the first step that the machine could not take is reported as a `Fault`.

A checked function has the branches of the function it checks and differs from it by the checks
alone.  Where it comes to a result, that is the result of the other (`of_checkedNextPiece`), which
is also why a checked reading ends.
-/

namespace PatternAlgebra

/-! ## Words -/

/-- The sum of two words. -/
def checkedAdd (m n : Nat) : Except Fault Nat :=
  if m + n < wordLimit then .ok (m + n) else .error (.overflow m n)

/-- The difference of two words. -/
def checkedSub (m n : Nat) : Except Fault Nat :=
  if n ≤ m then .ok (m - n) else .error (.underflow m n)

theorem checkedAdd_of_lt {m n : Nat} (h : m + n < wordLimit) : checkedAdd m n = .ok (m + n) :=
  if_pos h

theorem checkedSub_of_le {m n : Nat} (h : n ≤ m) : checkedSub m n = .ok (m - n) := if_pos h

theorem of_checkedAdd {m n sum : Nat} (h : checkedAdd m n = .ok sum) : sum = m + n := by
  unfold checkedAdd at h
  by_cases hlt : m + n < wordLimit
  · rw [if_pos hlt] at h
    exact (Except.ok.inj h).symm
  · rw [if_neg hlt] at h
    exact nomatch h

theorem of_checkedSub {m n difference : Nat} (h : checkedSub m n = .ok difference) :
    difference = m - n := by
  unfold checkedSub at h
  by_cases hle : n ≤ m
  · rw [if_pos hle] at h
    exact (Except.ok.inj h).symm
  · rw [if_neg hle] at h
    exact nomatch h

/-! ## Stored texts -/

namespace Text

/-- The offset is inside the text or at its end, and not inside a character. -/
abbrev IsBoundary (text : String) (offset : Nat) : Prop := String.Pos.Raw.IsValid text ⟨offset⟩

/-- The byte at an offset. -/
def checkedByteAt (text : String) (offset : Nat) : Except Fault UInt8 :=
  if h : offset < text.utf8ByteSize ∧ IsBoundary text offset then
    .ok (text.getUTF8Byte ⟨offset⟩ h.1)
  else .error (.byteAt text offset)

/-- The text between two byte offsets. -/
def checkedByteRange (text : String) (start stop : Nat) : Except Fault String :=
  if start ≤ stop ∧ IsBoundary text start ∧ IsBoundary text stop then
    .ok (byteRange text start stop)
  else .error (.cut text start stop)

/-- The character at a position of a text of `length` characters. -/
def checkedCharAt (text : String) (length index : Nat) : Except Fault (Option Char) :=
  if text.utf8ByteSize = length then do
    let byte ← checkedByteAt text index
    return some (Char.ofUInt8 byte)
  else .ok text.toList[index]?

/-- The characters at the positions `start`, …, `stop - 1` of a text of `length` characters. -/
def checkedCharRange (text : String) (length start stop : Nat) : Except Fault String :=
  if start = 0 ∧ stop = length then .ok text
  else if text.utf8ByteSize = length then checkedByteRange text start stop
  else do
    let offsets := byteOffsets 0 text.toList
    let size := text.utf8ByteSize
    let first := offsets[start]?.getD size
    let count ← checkedSub stop start
    let between ← checkedSub count 1
    let last := (offsets.drop (start + 1))[between]?.getD size
    checkedByteRange text first last

theorem of_checkedByteRange {text piece : String} {start stop : Nat}
    (h : checkedByteRange text start stop = .ok piece) : piece = byteRange text start stop := by
  unfold checkedByteRange at h
  split at h
  · exact (Except.ok.inj h).symm
  · exact nomatch h

theorem of_checkedCharRange {text piece : String} {length start stop : Nat}
    (h : checkedCharRange text length start stop = .ok piece) :
    piece = charRange text length start stop := by
  unfold checkedCharRange at h
  unfold charRange
  by_cases hall : start = 0 ∧ stop = length
  · rw [if_pos hall] at h ⊢
    exact (Except.ok.inj h).symm
  · rw [if_neg hall] at h ⊢
    by_cases hbytes : text.utf8ByteSize = length
    · rw [if_pos hbytes] at h ⊢
      exact of_checkedByteRange h
    · rw [if_neg hbytes] at h ⊢
      obtain ⟨count, hcount, h⟩ := bind_eq_ok_iff.mp h
      obtain rfl := of_checkedSub hcount
      obtain ⟨between, hbetween, h⟩ := bind_eq_ok_iff.mp h
      obtain rfl := of_checkedSub hbetween
      exact of_checkedByteRange h

end Text

/-! ## Ropes -/

namespace Rope

/-- The character at a position, found by descending towards it. -/
def checkedLocate : Rope → Nat → Except Fault (Option Char)
  | empty, _ => .ok none
  | leaf text length, index =>
    if length ≤ index then .ok none else Text.checkedCharAt text length index
  | window parent start length, index =>
    if length ≤ index then .ok none
    else do
      let shifted ← checkedAdd index start
      parent.checkedLocate shifted
  | concat left right length, index =>
    if length ≤ index then .ok none
    else if index < left.length then left.checkedLocate index
    else do
      let shifted ← checkedSub index left.length
      right.checkedLocate shifted

/-- A view of the characters at the positions `start`, …, `stop - 1`. -/
def checkedSubSequence (rope : Rope) (start stop : Nat) : Except Fault (Except IndexError Rope) :=
  if start > stop then .ok (.error (.startAfterEnd start stop))
  else if stop > rope.length then .ok (.error (.endPastLength stop rope.length))
  else if start = stop then .ok (.ok empty)
  else if start = 0 ∧ stop = rope.length then .ok (.ok rope)
  else do
    let (parent, offset) := match rope with
      | window parent offset _ => (parent, offset)
      | _ => (rope, 0)
    let first ← checkedAdd start offset
    let length ← checkedSub stop start
    return .ok (window parent first length)

/-- The ranges of the two sides of a join.  Of the two differences only the end of the right range
    has to be one; its start stops at zero. -/
def checkedSides (left right : Rope) (start stop : Nat) : Except Fault (List Pending) := do
  let lower ← if left.length < stop then do
      let last ← checkedSub stop left.length
      pure [⟨right, start - left.length, last⟩]
    else pure []
  return (if start < left.length then [⟨left, start, min stop left.length⟩] else []) ++ lower

/-- The end of the right range is looked at only if it lies past the left side. -/
theorem checkedSides_eq (left right : Rope) (start stop : Nat) :
    checkedSides left right start stop = .ok (sides left right start stop) := by
  unfold checkedSides sides
  by_cases hright : left.length < stop
  · rw [if_pos hright, if_pos hright, checkedSub_of_le (Nat.le_of_lt hright)]
    rfl
  · rw [if_neg hright, if_neg hright]
    rfl

theorem of_checkedSides {left right : Rope} {start stop : Nat} {ranges : List Pending}
    (h : checkedSides left right start stop = .ok ranges) :
    ranges = sides left right start stop := by
  rw [checkedSides_eq] at h
  exact (Except.ok.inj h).symm

theorem stackWeight_le_of_checkedSides {left right : Rope} {start stop : Nat}
    {ranges : List Pending} (h : checkedSides left right start stop = .ok ranges) :
    stackWeight ranges ≤ left.nodeCount + right.nodeCount := by
  rw [of_checkedSides h]
  exact stackWeight_sides_le left right start stop

/-- The next piece of text, and the stack after it. -/
def checkedNextPiece : List Pending → Except Fault (Option (String × List Pending))
  | [] => .ok none
  | ⟨rope, start, stop⟩ :: rest =>
    if stop ≤ start then checkedNextPiece rest
    else match rope with
      | empty => checkedNextPiece rest
      | leaf text length => do
        let piece ← Text.checkedCharRange text length start stop
        return some (piece, rest)
      | window parent offset _ => do
        let first ← checkedAdd start offset
        let last ← checkedAdd stop offset
        checkedNextPiece (⟨parent, first, last⟩ :: rest)
      | concat left right _ =>
        match h : checkedSides left right start stop with
        | .error fault => .error fault
        | .ok ranges =>
          have := stackWeight_le_of_checkedSides h
          checkedNextPiece (ranges ++ rest)
termination_by stack => stackWeight stack
decreasing_by
  · simp only [stackWeight]; have := nodeCount_pos rope; omega
  · simp [stackWeight, nodeCount]
  · simp [stackWeight, nodeCount]
  · simp only [stackWeight, nodeCount, stackWeight_append]; omega

theorem nextPiece_of_le {rope : Rope} {start stop : Nat} (h : stop ≤ start)
    (rest : List Pending) : nextPiece (⟨rope, start, stop⟩ :: rest) = nextPiece rest := by
  rw [nextPiece.eq_def]
  exact if_pos h

/-- Where no fault comes up, the next piece is the next piece. -/
theorem of_checkedNextPiece {stack : List Pending} {next : Option (String × List Pending)}
    (h : checkedNextPiece stack = .ok next) : nextPiece stack = next := by
  fun_induction checkedNextPiece stack with
  | case1 =>
      rw [nextPiece]
      exact Except.ok.inj h
  | case2 rope start stop rest hle ih => rw [nextPiece_of_le hle, ih h]
  | case3 start stop rest hlt ih => rw [nextPiece, if_neg hlt, ih h]
  | case4 start stop rest hlt text length =>
      obtain ⟨piece, hpiece, h⟩ := bind_eq_ok_iff.mp h
      rw [nextPiece, if_neg hlt, ← Text.of_checkedCharRange hpiece]
      exact Except.ok.inj h
  | case5 start stop rest hlt parent offset length ih =>
      obtain ⟨first, hfirst, h⟩ := bind_eq_ok_iff.mp h
      obtain ⟨last, hlast, h⟩ := bind_eq_ok_iff.mp h
      obtain rfl := of_checkedAdd hfirst
      obtain rfl := of_checkedAdd hlast
      rw [nextPiece, if_neg hlt, ih _ _ h]
  | case6 start stop rest hlt left right length fault hsides => exact absurd h (by simp)
  | case7 start stop rest hlt left right length ranges hsides _ ih =>
      rw [nextPiece, if_neg hlt, ← of_checkedSides hsides, ih h]

/-- Takes in the pieces from left to right. -/
def checkedFoldPieces {α : Type} (f : α → String → α) (acc : α) (stack : List Pending) :
    Except Fault α :=
  match h : checkedNextPiece stack with
  | .error fault => .error fault
  | .ok none => .ok acc
  | .ok (some (piece, rest)) =>
    have := stackWeight_lt_of_nextPiece (of_checkedNextPiece h)
    checkedFoldPieces f (f acc piece) rest
termination_by stackWeight stack

end Rope

end PatternAlgebra
