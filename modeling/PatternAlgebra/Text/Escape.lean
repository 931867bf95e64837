/-!
# Escaping

A literal is written so that an engine reads back exactly its characters: those with a meaning in
a pattern get a backslash, some control characters have an escape of their own, and all others
stand for themselves.

NUL is the one character whose form depends on what follows.  An engine reads up to three octal
digits after `\0`, so the short form `\00` is safe only when the next character is known and is
not an octal digit; otherwise the digits are used up by writing `\0000`.
-/

namespace PatternAlgebra

/-- The characters that need a backslash to stand for themselves. -/
def needsEscape : String := "()[]\x7b\x7d.,-\\|+*?$^&:!<>=#"

/-- The escape of a control character that has one of its own. -/
def controlEscape? : Char → Option (List Char)
  | '\n' => some ['\\', 'n']
  | '\t' => some ['\\', 't']
  | '\r' => some ['\\', 'r']
  | '\x0c' => some ['\\', 'f']
  | '\x07' => some ['\\', 'a']
  | '\x1b' => some ['\\', 'e']
  | '\x00' => some ['\\', '0', '0']
  | _ => none

/-- The digits that an octal escape can go on with. -/
def isOctalDigit (c : Char) : Bool := '0' ≤ c && c ≤ '7'

/-- Whether the short form of NUL cannot swallow what follows it. -/
def shortNulIsSafe : Option Char → Bool
  | some next => !isOctalDigit next
  | none => false

/-- How `c` is written before `next`, where `none` means that the next character is not known. -/
def escapedBefore (c : Char) (next : Option Char) : List Char :=
  if c = '\x00' ∧ shortNulIsSafe next = false then ['\\', '0', '0', '0', '0']
  else if c ∈ needsEscape.toList then ['\\', c]
  else (controlEscape? c).getD [c]

/-- How `c` is written when nothing is known about what follows. -/
def escapedAlone (c : Char) : List Char := escapedBefore c none

/-- How a run of characters is written; each is written with its successor in view. -/
def escapeChars : List Char → List Char
  | [] => []
  | c :: cs => escapedBefore c cs.head? ++ escapeChars cs

/-- The pattern text that matches exactly `text`. -/
def escape (text : String) : String := String.ofList (escapeChars text.toList)

/-- The pattern text that matches exactly `c`. -/
def escapeChar (c : Char) : String := String.ofList (escapedAlone c)

end PatternAlgebra
