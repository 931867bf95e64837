import PatternAlgebra.Build.Sequence
import PatternAlgebra.Build.Alternation
import PatternAlgebra.Build.Quantified
import PatternAlgebra.Build.Group
import PatternAlgebra.CharClass.Catalog
/-!
# Dotted-decimal IPv4 addresses

The alternatives of an octet are tried in order, so an octet only keeps out larger numbers where
the expression around it forces it to take every digit.
-/

namespace PatternAlgebra.Ipv4

/-- Any digit. -/
def digit : Sequenceable := .ofCharClass .digit

/-- The digits from `first` to `last`. -/
def digits (first last : Char) : Sequenceable := .ofCharClass (.range first last)

/-- Two digits. -/
def twoDigits : Sequenceable :=
  .ofQuantified (.build (.ofCharClass .digit) (.exactly 2) .greedy)

/-- A decimal number from 0 to 255 without leading zeros. -/
def octet : Logged Alternation := do
  let tens ← Sequence.pair (digits '1' '9') digit
  let hundreds ← Sequence.pair (.ofChar '1') twoDigits
  let belowFifty ← Sequence.pair (.ofChar '2') (digits '0' '4')
  let twoHundreds ← Sequence.pair (.ofSequence belowFifty) digit
  let fifties ← Sequence.pair (.ofLiteral "25") (digits '0' '5')
  return Alternation.chain digit.toAlternative (Sequenceable.ofSequence tens).toAlternative
    [(Sequenceable.ofSequence hundreds).toAlternative,
      (Sequenceable.ofSequence twoHundreds).toAlternative,
      (Sequenceable.ofSequence fifties).toAlternative]

/-- An octet that is captured. -/
def capturedOctet : Logged Sequenceable := do
  let alternation ← octet
  return .ofGroup (.capture alternation.toExpr)

/-- Four captured octets with a dot between neighbours. -/
def dottedDecimal : Logged Sequence := do
  let first ← capturedOctet
  let second ← capturedOctet
  let third ← capturedOctet
  let fourth ← capturedOctet
  Sequence.chain first (.ofChar '.') [second, .ofChar '.', third, .ofChar '.', fourth]

end PatternAlgebra.Ipv4
