/-!
# Positions in a text

A text is stored as UTF-8, while positions count characters.  If a text has as many bytes as
characters, then every character is one byte and a position is a byte offset; otherwise the
offsets have to be counted out.  Both functions below take the number of characters from the
caller, who has it at hand.
-/

namespace PatternAlgebra.Text

/-- The byte at an offset. -/
def byteAt? (text : String) (offset : Nat) : Option UInt8 :=
  if h : offset < text.utf8ByteSize then some (text.getUTF8Byte ⟨offset⟩ h) else none

/-- The text between two byte offsets. -/
def byteRange (text : String) (start stop : Nat) : String :=
  String.Pos.Raw.extract text ⟨start⟩ ⟨stop⟩

/-- The byte offset of every character, the first one at `start`, and then the offset of the end. -/
def byteOffsets (start : Nat) : List Char → List Nat
  | [] => [start]
  | c :: cs => start :: byteOffsets (start + c.utf8Size) cs

/-- The character at a position of a text of `length` characters. -/
def charAt? (text : String) (length index : Nat) : Option Char :=
  if text.utf8ByteSize = length then (byteAt? text index).map Char.ofUInt8
  else text.toList[index]?

/-- The characters at the positions `start`, …, `stop - 1` of a text of `length` characters. -/
def charRange (text : String) (length start stop : Nat) : String :=
  if start = 0 ∧ stop = length then text
  else if text.utf8ByteSize = length then byteRange text start stop
  else
    let offsets := byteOffsets 0 text.toList
    let size := text.utf8ByteSize
    -- the second offset is looked up among those that come after the first
    let first := offsets[start]?.getD size
    let last := (offsets.drop (start + 1))[stop - start - 1]?.getD size
    byteRange text first last

end PatternAlgebra.Text
