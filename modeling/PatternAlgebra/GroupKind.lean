/-!
# Kinds of groups

The kind of a group decides what its opening parenthesis looks like.  Two kinds switch matching
flags for what they enclose, and two look at the text before the current position.
-/

namespace PatternAlgebra

/-- A matching flag. -/
inductive Flag where
  | caseInsensitive
  | unixLines
  | multiline
  | dotAll
  | unicodeCase
  | comments
  deriving DecidableEq, Repr, Hashable

/-- The letter of the flag. -/
def Flag.letter : Flag → Char
  | caseInsensitive => 'i'
  | unixLines => 'd'
  | multiline => 'm'
  | dotAll => 's'
  | unicodeCase => 'u'
  | comments => 'x'

/-- The letters of some flags, in the order given. -/
def flagLetters (flags : List Flag) : String := String.ofList (flags.map Flag.letter)

/-- The flags in the order of their first occurrence, each of them once. -/
def distinctFlags (flags : List Flag) : List Flag :=
  flags.foldl (fun distinct flag => if flag ∈ distinct then distinct else distinct ++ [flag]) []

/-- What a pair of parentheses does. -/
inductive GroupKind where
  | capture
  | nonCapturing
  /-- Never backtracks into what it encloses. -/
  | independent
  | positiveLookAhead
  | negativeLookAhead
  | positiveLookBehind
  | negativeLookBehind
  | enableFlags (flags : List Flag)
  | disableFlags (flags : List Flag)
  deriving DecidableEq, Repr, Hashable

namespace GroupKind

/-- Whether what is enclosed must have a bounded length. -/
def isLookBehind : GroupKind → Bool
  | positiveLookBehind => true
  | negativeLookBehind => true
  | _ => false

/-- The opening parenthesis. -/
def opening : GroupKind → String
  | capture => "("
  | nonCapturing => "(?:"
  | independent => "(?>"
  | positiveLookAhead => "(?="
  | negativeLookAhead => "(?!"
  | positiveLookBehind => "(?<="
  | negativeLookBehind => "(?<!"
  | enableFlags flags => "(?" ++ flagLetters flags ++ ":"
  | disableFlags flags => "(?-" ++ flagLetters flags ++ ":"

/-- The same kind with every flag named once; without any flag there is nothing to switch. -/
def normalized : GroupKind → GroupKind
  | enableFlags flags =>
    if (distinctFlags flags).isEmpty then nonCapturing else enableFlags (distinctFlags flags)
  | disableFlags flags =>
    if (distinctFlags flags).isEmpty then nonCapturing else disableFlags (distinctFlags flags)
  | kind => kind

end GroupKind

end PatternAlgebra
