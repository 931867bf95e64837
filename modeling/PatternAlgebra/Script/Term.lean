import PatternAlgebra.CharClass.Catalog
import PatternAlgebra.GroupKind
import PatternAlgebra.Quantifier
import PatternAlgebra.Entity
/-!
# Terms

A term describes how a node is built: it names every construction and every conversion, and it
may refer to the values of earlier steps of the script it stands in.  The constructions are sorted
by the number of their operands, so that a term is evaluated in the same way whatever it builds:
first the operands, from left to right, and then the construction.
-/

namespace PatternAlgebra.Script

/-- The constructions without operands. -/
inductive Leaf where
  | literal (text : String)
  | charLiteral (c : Char)
  | entity (e : Entity)
  | adopted (pattern : String)
  /-- The class of one character. -/
  | classOf (c : Char)
  /-- The class of the characters listed. -/
  | classOfChars (chars : List Char)
  /-- The class of the characters of a range. -/
  | classOfRange (first last : Char)
  | predefined (k : PredefinedClass)
  | ipv4Octet
  | ipv4DottedDecimal

/-- The constructions with one operand. -/
inductive Unary where
  | toLiteral
  | toRaw
  | toExpr
  | toQuantifiable
  | toSequenceable
  | toAlternative
  /-- The complement of a class. -/
  | negate
  | quantify (quantifier : Quantifier) (mode : Mode)
  /-- A group of a kind in normal form. -/
  | wrap (kind : GroupKind)
  /-- A group in a group in a group, the first kind innermost. -/
  | enclose (kinds : List GroupKind)
  | enableFlag (flag : Flag)
  | disableFlag (flag : Flag)
  /-- The expression in a place. -/
  | placed
  /-- What an expression consists of. -/
  | unwrap
  /-- What a raw node consists of. -/
  | unwrapRaw
  | nested
  | base
  | component (index : Nat)
  /-- An expression as a raw node. -/
  | asRaw

/-- The constructions with two operands. -/
inductive Binary where
  /-- A sequence. -/
  | followedBy
  /-- An alternation. -/
  | orElse
  /-- A compound. -/
  | append
  /-- The union of two classes. -/
  | unite
  /-- The intersection of two classes. -/
  | intersect

/-- How many operands a joining construction takes. -/
inductive Arity where
  /-- The first two. -/
  | pair
  /-- Two and then any number. -/
  | chain
  /-- Any number, to be checked. -/
  | list

/-- The end of a list from which its items are combined. -/
inductive Side where
  | left
  | right

/-- The constructions with any number of operands. -/
inductive Nary where
  | compound
  | sequence (arity : Arity)
  | alternation (arity : Arity)
  /-- The items, listed so many times over, combined two at a time from one of the ends. -/
  | combine (op : Binary) (side : Side) (times : Nat)

/-- How a node is built. -/
inductive Term where
  /-- The value of a step. -/
  | value (step : Nat)
  | leaf (l : Leaf)
  | unary (op : Unary) (a : Term)
  | binary (op : Binary) (a b : Term)
  | nary (op : Nary) (parts : List Term)

/-- So many kinds, taken from a list again and again. -/
def cycle (kinds : List GroupKind) (times : Nat) : List GroupKind :=
  (List.range times).filterMap fun i => kinds[i % kinds.length]?

end PatternAlgebra.Script
