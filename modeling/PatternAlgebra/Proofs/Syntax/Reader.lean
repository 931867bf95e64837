import PatternAlgebra.CharClass.Printer
import PatternAlgebra.Proofs.Syntax.Tree
/-!
# A reader of patterns

The reader takes the text of a pattern to its tree, with the precedence that engines give it:
alternatives bind loosest, then rows of pieces, then a quantifier with the piece before it.  It
goes through the text once.  A token is read off the front of the text and changes the state: the
level that is being read and the levels around it.  Classes are read in the same way between their
brackets, with items for pieces and `&&` for the bar.

Nothing here knows how patterns are written, and the reader takes more than is ever written; a
character, for one, may be escaped without need.
-/

namespace PatternAlgebra.Syntax

/-! ## Levels -/

/-- What has been read at one level: the branches before the last bar, and the one after it. -/
structure Level (α : Type) where
  complete : List (List α) := []
  current : List α := []

namespace Level

variable {α : Type}

/-- One thing more in the current branch. -/
def add (level : Level α) (a : α) : Level α := { level with current := level.current ++ [a] }

/-- A bar: the current branch is complete, and the next one starts. -/
def split (level : Level α) : Level α := { complete := level.complete ++ [level.current] }

/-- All branches of a level that ends here. -/
def branches (level : Level α) : List (List α) := level.complete ++ [level.current]

end Level

/-- The level being read, and the levels around it from the inside out, each with the kind of
    parentheses that was opened in it. -/
structure State (κ α : Type) where
  level : Level α := {}
  around : List (κ × Level α) := []

namespace State

variable {κ α : Type}

/-- One thing more at the current level. -/
def add (state : State κ α) (a : α) : State κ α := { state with level := state.level.add a }

/-- A bar at the current level. -/
def split (state : State κ α) : State κ α := { state with level := state.level.split }

/-- Parentheses open. -/
def enter (state : State κ α) (kind : κ) : State κ α :=
  { around := (kind, state.level) :: state.around }

end State

/-! ## Characters -/

/-- The character whose code is written with the octal digits at the front, at most three. -/
def readOctal (text : List Char) : Option (Char × List Char) :=
  match (text.take 3).takeWhile isOctalDigit with
  | [] => none
  | digits => some (Char.ofNat (Nat.ofDigitChars 8 digits 0), text.drop digits.length)

/-- The character that is escaped by a backslash before the text. -/
def readEscaped : List Char → Option (Char × List Char)
  | 'n' :: text => some ('\n', text)
  | 't' :: text => some ('\t', text)
  | 'r' :: text => some ('\r', text)
  | 'f' :: text => some ('\x0c', text)
  | 'a' :: text => some ('\x07', text)
  | 'e' :: text => some ('\x1b', text)
  | '0' :: text => readOctal text
  | c :: text => if c.isAlphanum then none else some (c, text)
  | [] => none

/-- A character, which is escaped if it is one of those with a meaning. -/
def readChar (special : String) : List Char → Option (Char × List Char)
  | '\\' :: text => readEscaped text
  | c :: text => if c ∈ special.toList then none else some (c, text)
  | [] => none

/-- The characters with a meaning outside brackets. -/
def specialInPattern : String := "\\()[]\x7b\x7d.|+*?^$"

/-- The characters with a meaning between brackets. -/
def specialInClass : String := "\\[]^-&"

/-! ## Classes -/

/-- A property by its name, up to the brace that closes it. -/
def readProperty (isNegated : Bool) (text : List Char) : Option (ClassItem × List Char) :=
  match text.dropWhile (· != '\x7d') with
  | [] => none
  | _ :: rest => some (.property (String.ofList (text.takeWhile (· != '\x7d'))) isNegated, rest)

/-- The class with a name that comes after a backslash. -/
def readNamedClass : List Char → Option (ClassItem × List Char)
  | 'd' :: text => some (.shorthand .digit false, text)
  | 'D' :: text => some (.shorthand .digit true, text)
  | 's' :: text => some (.shorthand .space false, text)
  | 'S' :: text => some (.shorthand .space true, text)
  | 'w' :: text => some (.shorthand .word false, text)
  | 'W' :: text => some (.shorthand .word true, text)
  | 'p' :: '\x7b' :: text => readProperty false text
  | 'P' :: '\x7b' :: text => readProperty true text
  | _ => none

/-- A character, or a range if a dash follows. -/
def readRange (text : List Char) : Option (ClassItem × List Char) :=
  match readChar specialInClass text with
  | none => none
  | some (first, '-' :: rest) =>
    (readChar specialInClass rest).map (Prod.map (.range first) id)
  | some (c, rest) => some (.char c, rest)

/-- What can come next between brackets. -/
inductive ClassToken where
  | item (k : ClassItem)
  /-- `&&` -/
  | split
  /-- `[`, or `[^` for the complement. -/
  | enter (isNegated : Bool)
  /-- `]` -/
  | leave

/-- The next token between brackets. -/
def nextClassToken : List Char → Option (ClassToken × List Char)
  | ']' :: text => some (.leave, text)
  | '[' :: '^' :: text => some (.enter true, text)
  | '[' :: text => some (.enter false, text)
  | '&' :: '&' :: text => some (.split, text)
  | '\\' :: text =>
    match readNamedClass text with
    | some (k, rest) => some (.item k, rest)
    | none => (readRange ('\\' :: text)).map (Prod.map .item id)
  | text => (readRange text).map (Prod.map .item id)

/-- The class whose opening bracket stands before the text.  A token takes at least one character;
    the reader makes sure of it, since it ends only because of that. -/
def readBracket (isNegated : Bool) (state : State Bool ClassItem) (text : List Char) :
    Option (ClassItem × List Char) :=
  match nextClassToken text with
  | none => none
  | some (token, rest) =>
    if rest.length < text.length then
      match token with
      | .item k => readBracket isNegated (state.add k) rest
      | .split => readBracket isNegated state.split rest
      | .enter isNegated' => readBracket isNegated (state.enter isNegated') rest
      | .leave =>
        match state.around with
        | [] => some (.bracket isNegated state.level.branches, rest)
        | (isNegated', outer) :: around =>
          readBracket isNegated
            ⟨outer.add (.bracket isNegated' state.level.branches), around⟩ rest
    else none
termination_by text.length

/-! ## Patterns -/

/-- An entity. -/
def readEntity : List Char → Option (Entity × List Char)
  | '.' :: text => some (.anyChar, text)
  | '^' :: text => some (.lineBegin, text)
  | '$' :: text => some (.lineEnd, text)
  | '\\' :: 'b' :: text => some (.wordBoundary, text)
  | '\\' :: 'B' :: text => some (.nonWordBoundary, text)
  | '\\' :: 'A' :: text => some (.inputBegin, text)
  | '\\' :: 'G' :: text => some (.matchEnd, text)
  | '\\' :: 'Z' :: text => some (.inputEndSkipEol, text)
  | '\\' :: 'z' :: text => some (.inputEnd, text)
  | _ => none

/-- A decimal number. -/
def readNumber (text : List Char) : Option (Nat × List Char) :=
  match text.takeWhile Char.isDigit with
  | [] => none
  | digits => some (Nat.ofDigitChars 10 digits 0, text.dropWhile Char.isDigit)

/-- The maximum, if there is one, and the closing brace. -/
def readMaximum (text : List Char) : Option (Option Nat × List Char) :=
  match readNumber text, text with
  | some (max, '\x7d' :: rest), _ => some (some max, rest)
  | none, '\x7d' :: rest => some (none, rest)
  | _, _ => none

/-- The counts whose opening brace stands before the text. -/
def readCounts (text : List Char) : Option (Quantifier × List Char) :=
  match readNumber text with
  | some (count, '\x7d' :: rest) => some (.exactly count, rest)
  | some (min, ',' :: rest) => (readMaximum rest).map (Prod.map (.range min) id)
  | _ => none

/-- A quantifier without its mode. -/
def readQuantifier : List Char → Option (Quantifier × List Char)
  | '*' :: text => some (.anyTimes, text)
  | '+' :: text => some (.atLeastOnce, text)
  | '?' :: text => some (.optional, text)
  | '\x7b' :: text => readCounts text
  | _ => none

/-- The mode of the quantifier before the text. -/
def readMode : List Char → Mode × List Char
  | '?' :: text => (.reluctant, text)
  | '+' :: text => (.possessive, text)
  | text => (.greedy, text)

/-- The flag of a letter. -/
def flagOf? : Char → Option Flag
  | 'i' => some .caseInsensitive
  | 'd' => some .unixLines
  | 'm' => some .multiline
  | 's' => some .dotAll
  | 'u' => some .unicodeCase
  | 'x' => some .comments
  | _ => none

/-- The flags at the front, as far as there are letters of flags. -/
def readFlags : List Char → List Flag × List Char
  | [] => ([], [])
  | c :: text =>
    match flagOf? c with
    | some flag => (flag :: (readFlags text).1, (readFlags text).2)
    | none => ([], c :: text)

/-- The kind of a group that switches flags, from the letters up to the colon. -/
def readFlagGroup (kind : List Flag → GroupKind) (text : List Char) :
    Option (GroupKind × List Char) :=
  match readFlags text with
  | (flags, ':' :: rest) => some (kind flags, rest)
  | _ => none

/-- The kind of a group whose opening parenthesis stands before the text. -/
def readGroupKind : List Char → Option (GroupKind × List Char)
  | '?' :: ':' :: text => some (.nonCapturing, text)
  | '?' :: '>' :: text => some (.independent, text)
  | '?' :: '=' :: text => some (.positiveLookAhead, text)
  | '?' :: '!' :: text => some (.negativeLookAhead, text)
  | '?' :: '<' :: '=' :: text => some (.positiveLookBehind, text)
  | '?' :: '<' :: '!' :: text => some (.negativeLookBehind, text)
  | '?' :: '-' :: text => readFlagGroup .disableFlags text
  | '?' :: text => readFlagGroup .enableFlags text
  | text => some (.capture, text)

/-- What can come next in a pattern. -/
inductive Token where
  | piece (p : Piece)
  | quantifier (q : Quantifier) (mode : Mode)
  /-- `|` -/
  | bar
  /-- An opening parenthesis and what tells the kind of group. -/
  | enter (kind : GroupKind)
  /-- `)` -/
  | leave

/-- A character, or a class that comes after a backslash. -/
def readSimplePiece : List Char → Option (Token × List Char)
  | '\\' :: text =>
    match readNamedClass text with
    | some (k, rest) => some (.piece (.charClass k), rest)
    | none => (readEscaped text).map (Prod.map (.piece ∘ .char) id)
  | text => (readChar specialInPattern text).map (Prod.map (.piece ∘ .char) id)

/-- The next token of a pattern. -/
def nextToken (text : List Char) : Option (Token × List Char) :=
  match readEntity text with
  | some (e, rest) => some (.piece (.entity e), rest)
  | none =>
    match readQuantifier text with
    | some (q, rest) => some (.quantifier q (readMode rest).1, (readMode rest).2)
    | none =>
      match text with
      | '|' :: rest => some (.bar, rest)
      | '(' :: rest => (readGroupKind rest).map (Prod.map .enter id)
      | ')' :: rest => some (.leave, rest)
      | '[' :: '^' :: rest => (readBracket true {} rest).map (Prod.map (.piece ∘ .charClass) id)
      | '[' :: rest => (readBracket false {} rest).map (Prod.map (.piece ∘ .charClass) id)
      | text => readSimplePiece text

/-- What a token does.  A quantifier needs a piece to apply to, and that piece has no quantifier
    yet. -/
def step (state : State GroupKind Piece) : Token → Option (State GroupKind Piece)
  | .piece p => some (state.add p)
  | .bar => some state.split
  | .enter kind => some (state.enter kind)
  | .leave =>
    match state.around with
    | [] => none
    | (kind, outer) :: around => some ⟨outer.add (.group kind state.level.branches), around⟩
  | .quantifier q mode =>
    match state.level.current.getLast? with
    | none => none
    | some p =>
      if p.isRepeated then none
      else
        let current := state.level.current.dropLast ++ [.repeated p q mode]
        some { state with level := { state.level with current } }

/-- Reads on to the end of the text, where no parenthesis may be left open. -/
def readFrom (state : State GroupKind Piece) (text : List Char) : Option (List (List Piece)) :=
  if text.isEmpty then
    if state.around.isEmpty then some state.level.branches else none
  else
    match nextToken text with
    | none => none
    | some (token, rest) =>
      if rest.length < text.length then
        match step state token with
        | none => none
        | some next => readFrom next rest
      else none
termination_by text.length

/-- The tree of a pattern. -/
def read (pattern : String) : Option (List (List Piece)) := readFrom {} pattern.toList

end PatternAlgebra.Syntax
