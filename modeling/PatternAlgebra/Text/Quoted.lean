/-!
# Quoted text

For inspection a text is shown between double quotes and a character between single quotes.  The
mark in use and the backslash get a backslash, a few control characters have a letter, and the
other control characters are shown by their code.
-/

namespace PatternAlgebra.Text

/-- Whether a character controls a device: the first 32, and the 33 from DEL on. -/
def isControl (c : Char) : Bool :=
  c.toNat < 0x20 || (0x7f ≤ c.toNat && c.toNat < 0xa0)

/-- How a character is shown between two marks. -/
def quotedChar (mark c : Char) : List Char :=
  if c = mark ∨ c = '\\' then ['\\', c]
  else match c with
    | '\x00' => ['\\', '0']
    | '\t' => ['\\', 't']
    | '\r' => ['\\', 'r']
    | '\n' => ['\\', 'n']
    | c =>
      if isControl c then ['\\', 'u', '\x7b'] ++ Nat.toDigits 16 c.toNat ++ ['\x7d'] else [c]

/-- Characters between two marks. -/
def quotedBetween (mark : Char) (text : List Char) : String :=
  String.ofList (mark :: text.flatMap (quotedChar mark) ++ [mark])

/-- A text between double quotes. -/
def quoted (text : String) : String := quotedBetween '"' text.toList

/-- A character between single quotes. -/
def quotedSingle (c : Char) : String := quotedBetween '\'' [c]

end PatternAlgebra.Text
