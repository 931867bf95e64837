import PatternAlgebra.CharClass.Basic
import PatternAlgebra.Text.Escape
/-!
# The text of a character class

A class is written in two ways: bare, for a place between the brackets of a class around it, and
on its own.  The two differ only by a pair of brackets, which sets, ranges and unions need on
their own and no other class does.

Between brackets an item must not run into its neighbour.  Members and ends of ranges are escaped
like literals, with the next character in view where it is known, and every other item carries
its own delimiters.
-/

namespace PatternAlgebra

/-- The letter of a class with a one-letter name; the capital letter is the complement. -/
def Shorthand.letter (isNegated : Bool) : Shorthand → Char
  | digit => if isNegated then 'D' else 'd'
  | space => if isNegated then 'S' else 's'
  | word => if isNegated then 'W' else 'w'

namespace CharClass

/-- Whether the bare text needs brackets to stand on its own. -/
def needsBrackets : CharClass → Bool
  | set _ => true
  | range _ _ => true
  | union _ => true
  | _ => false

/-- Puts brackets around a text when asked to. -/
def bracketIf (needed : Bool) (text : List Char) : List Char :=
  if needed then '[' :: text ++ [']'] else text

/-- The text of a property, or of its complement. -/
def propertyChars (name : String) (isNegated : Bool) : List Char :=
  ['\\', if isNegated then 'P' else 'p', '\x7b'] ++ name.toList ++ ['\x7d']

mutual

/-- The characters of the bare text. -/
def bareChars : CharClass → List Char
  | single c => escapedAlone c
  | set members => escapeChars members
  | range first last => escapedBefore first (some '-') ++ '-' :: escapedAlone last
  | shorthand kind isNegated => ['\\', kind.letter isNegated]
  | property name isNegated => propertyChars name isNegated
  | complement inner => ['[', '^'] ++ bareChars inner ++ [']']
  | union members => bareCharsAll members
  | intersection members => '[' :: operandChars members ++ [']']

/-- The bare texts of all members, one after another. -/
def bareCharsAll : List CharClass → List Char
  | [] => []
  | k :: ks => bareChars k ++ bareCharsAll ks

/-- The texts of all operands on their own, joined by `&&`. -/
def operandChars : List CharClass → List Char
  | [] => []
  | [k] => bracketIf k.needsBrackets (bareChars k)
  | k :: ks => bracketIf k.needsBrackets (bareChars k) ++ '&' :: '&' :: operandChars ks

end

/-- The characters of the text of a class on its own. -/
def independentChars (k : CharClass) : List Char := bracketIf k.needsBrackets k.bareChars

/-- The text of a class between the brackets of an enclosing class. -/
def unitable (k : CharClass) : String := String.ofList k.bareChars

/-- The text of a class on its own. -/
def independent (k : CharClass) : String := String.ofList k.independentChars

end CharClass

end PatternAlgebra
