import PatternAlgebra.CharClass.Basic
/-!
# Predefined character classes

Engines know many classes by the name of a property: the classes of the POSIX locale, limited to
ASCII; the general categories of Unicode; some classes that follow the predicates of a character
library; and the blocks of Unicode.  Block names are not checked against a table.
-/

namespace PatternAlgebra

/-- The POSIX classes. -/
inductive PosixClass where
  | lower
  | upper
  | ascii
  | alpha
  | digit
  | alnum
  | punct
  | graph
  | print
  | blank
  | cntrl
  | xdigit
  | space
  deriving DecidableEq, Repr

/-- The name of the property. -/
def PosixClass.propertyName : PosixClass → String
  | lower => "Lower"
  | upper => "Upper"
  | ascii => "ASCII"
  | alpha => "Alpha"
  | digit => "Digit"
  | alnum => "Alnum"
  | punct => "Punct"
  | graph => "Graph"
  | print => "Print"
  | blank => "Blank"
  | cntrl => "Cntrl"
  | xdigit => "XDigit"
  | space => "Space"

/-- The classes that follow a predicate of Java's character library. -/
inductive JavaClass where
  | lowerCase
  | upperCase
  | whitespace
  | mirrored
  deriving DecidableEq, Repr

/-- The name of the property. -/
def JavaClass.propertyName : JavaClass → String
  | lowerCase => "javaLowerCase"
  | upperCase => "javaUpperCase"
  | whitespace => "javaWhitespace"
  | mirrored => "javaMirrored"

/-- The general categories of Unicode. -/
inductive GeneralCategory where
  | uppercaseLetter
  | lowercaseLetter
  | titlecaseLetter
  | modifierLetter
  | otherLetter
  | nonSpacingMark
  | combiningSpacingMark
  | enclosingMark
  | decimalDigitNumber
  | letterNumber
  | otherNumber
  | spaceSeparator
  | lineSeparator
  | paragraphSeparator
  | control
  | format
  | surrogate
  | privateUse
  | unassigned
  | connectorPunctuation
  | dashPunctuation
  | startPunctuation
  | endPunctuation
  | initialQuotePunctuation
  | finalQuotePunctuation
  | otherPunctuation
  | mathSymbol
  | currencySymbol
  | modifierSymbol
  | otherSymbol
  deriving DecidableEq, Repr

/-- The two-letter name of the category. -/
def GeneralCategory.propertyName : GeneralCategory → String
  | uppercaseLetter => "Lu"
  | lowercaseLetter => "Ll"
  | titlecaseLetter => "Lt"
  | modifierLetter => "Lm"
  | otherLetter => "Lo"
  | nonSpacingMark => "Mn"
  | combiningSpacingMark => "Mc"
  | enclosingMark => "Me"
  | decimalDigitNumber => "Nd"
  | letterNumber => "Nl"
  | otherNumber => "No"
  | spaceSeparator => "Zs"
  | lineSeparator => "Zl"
  | paragraphSeparator => "Zp"
  | control => "Cc"
  | format => "Cf"
  | surrogate => "Cs"
  | privateUse => "Co"
  | unassigned => "Cn"
  | connectorPunctuation => "Pc"
  | dashPunctuation => "Pd"
  | startPunctuation => "Ps"
  | endPunctuation => "Pe"
  | initialQuotePunctuation => "Pi"
  | finalQuotePunctuation => "Pf"
  | otherPunctuation => "Po"
  | mathSymbol => "Sm"
  | currencySymbol => "Sc"
  | modifierSymbol => "Sk"
  | otherSymbol => "So"

/-- A class that engines know without a description of its characters. -/
inductive PredefinedClass where
  | shorthand (kind : Shorthand)
  | posix (k : PosixClass)
  | java (k : JavaClass)
  | category (c : GeneralCategory)
  | block (name : String)
  deriving DecidableEq, Repr

namespace CharClass

/-- The class of a predefined name. -/
def predefined : PredefinedClass → CharClass
  | .shorthand kind => shorthand kind false
  | .posix k => property k.propertyName false
  | .java k => property k.propertyName false
  | .category c => property c.propertyName false
  | .block name => property ("In" ++ name) false

/-- A decimal digit, `\d`. -/
def digit : CharClass := predefined (.shorthand .digit)

end CharClass

end PatternAlgebra
