import PatternAlgebra.Script.Error
import PatternAlgebra.Script.Term
import PatternAlgebra.Prefab.Ipv4
/-!
# Evaluating terms

A term has a value, given the values of the steps it may refer to.  The operands are evaluated
from left to right, and the first failure ends the evaluation.  Only when all operands have a
value are they converted to what the construction takes, again from left to right.

The events of an evaluation are kept also if it fails.
-/

namespace PatternAlgebra.Script

/-- A computation that logs events and may fail. -/
abbrev Eval (α : Type) := ExceptT Failure Logged α

namespace Eval

variable {α : Type}

/-- A construction that logs events. -/
def logging (x : Logged α) : Eval α := ExceptT.lift x

/-- A construction that may be refused. -/
def checked (x : Except BuildError α) : Eval α :=
  match x with
  | .ok a => pure a
  | .error e => throw (.build e)

/-- A construction that logs events and may be refused. -/
def building (x : Logged (Except BuildError α)) : Eval α := do
  checked (← logging x)

/-- A computation that may come to a fault. -/
def guarded (x : Except Fault α) : Eval α :=
  match x with
  | .ok a => pure a
  | .error f => throw (.fault f)

/-- A construction that logs events and may be refused, unless it comes to a fault. -/
def attempting (x : Except Fault (Logged (Except BuildError α))) : Eval α := do
  building (← guarded x)

/-- A value that may be missing. -/
def require (found : Option α) (failure : Failure) : Eval α :=
  match found with
  | some a => pure a
  | none => throw failure

end Eval

open Eval

/-! ## Conversions -/

/-- The node as an expression. -/
def asExpr (n : Node) : Eval Expr := require n.toExpr? (.notConvertible n.type .expr)

/-- The node under a quantifier. -/
def asQuantifiable (n : Node) : Eval Quantifiable :=
  require n.toQuantifiable? (.notConvertible n.type .quantifiable)

/-- The node as an item of a sequence. -/
def asSequenceable (n : Node) : Eval Sequenceable :=
  require n.toSequenceable? (.notConvertible n.type .sequenceable)

/-- The node between bars. -/
def asAlternative (n : Node) : Eval Alternative :=
  require n.toAlternative? (.notConvertible n.type .alternative)

/-- The node as a raw node. -/
def asRaw (n : Node) : Eval Raw := require n.toRaw? (.notConvertible n.type .raw)

/-- The node as a character class. -/
def asCharClass (n : Node) : Eval CharClass :=
  require n.toCharClass? (.notConvertible n.type .charClass)

/-- The text of a node that is a literal. -/
def asLiteral (n : Node) : Eval String :=
  require n.toLiteral? (.notConvertible n.type .literal)

/-! ## Constructions -/

/-- The value of a construction without operands. -/
def Leaf.build : Leaf → Eval Node
  | literal text => pure (.literal text)
  | charLiteral c => pure (.charLiteral c)
  | entity e => pure (.entity e)
  | adopted pattern => do
    logging (Logged.log (.adoptingPattern pattern))
    return .adopted pattern
  | classOf c => pure (.charClass (.single c))
  | classOfChars chars => .charClass <$> checked (CharClass.ofChars chars)
  | classOfRange first last => .charClass <$> checked (CharClass.ofRange first last)
  | predefined k => pure (.charClass (.predefined k))
  | ipv4Octet => .alternation <$> logging Ipv4.octet
  | ipv4DottedDecimal => .sequence <$> logging Ipv4.dottedDecimal

/-- A group in a group in a group, the first kind innermost. -/
def enclose (n : Node) : List GroupKind → Eval Node
  | [] => pure n
  | kind :: kinds => do
    let nested ← asExpr n
    let group ← attempting (Group.ofKind kind nested)
    enclose (.group group) kinds

/-- The value of a construction with one operand. -/
def Unary.build (op : Unary) (n : Node) : Eval Node :=
  match op with
  | toLiteral => .literal <$> asLiteral n
  | toRaw => .raw <$> Script.asRaw n
  | toExpr => .expr <$> asExpr n
  | toQuantifiable => .quantifiable <$> asQuantifiable n
  | toSequenceable => .sequenceable <$> asSequenceable n
  | toAlternative => .alternative <$> asAlternative n
  | negate => do return .charClass (← asCharClass n).negate
  | quantify quantifier mode => do
    let base ← asQuantifiable n
    .quantified <$> checked (Quantified.apply base quantifier mode)
  | wrap kind => do
    let nested ← asExpr n
    .group <$> attempting (Group.wrap kind nested)
  | enclose kinds => Script.enclose n kinds
  | enableFlag flag => do return .group (Group.enableFlag flag (← asExpr n))
  | disableFlag flag => do return .group (Group.disableFlag flag (← asExpr n))
  | placed => .expr <$> require n.placed? (.notPlaced n.type)
  | unwrap => .ofExpr <$> asExpr n
  | unwrapRaw => .ofRaw <$> Script.asRaw n
  | nested => .expr <$> require n.nested? (.lacks n.type .nested)
  | base => .expr <$> require n.base? (.lacks n.type .base)
  | component index => do
    let components ← require n.components? (.lacks n.type .component)
    require components[index]? (.noComponent index)
  | asRaw => do
    let e ← asExpr n
    .raw <$> require e.asRaw? .notRaw

/-- The value of a construction with two operands. -/
def Binary.build (op : Binary) (a b : Node) : Eval Node :=
  match op with
  | followedBy => do
    let first ← asSequenceable a
    let second ← asSequenceable b
    .sequence <$> logging (Sequence.pair first second)
  | orElse => do
    let first ← asAlternative a
    let second ← asAlternative b
    return .alternation (Alternation.pair first second)
  | append => do
    let first ← asRaw a
    let second ← asRaw b
    return .raw (first.append second)
  | unite => do
    let first ← asCharClass a
    let second ← asCharClass b
    return .charClass (first.unite second)
  | intersect => do
    let first ← asCharClass a
    let second ← asCharClass b
    return .charClass (first.intersect second)

/-- The sequence of some items. -/
def sequenceOf : Arity → List Sequenceable → Eval Sequence
  | .pair, first :: second :: _ => logging (Sequence.pair first second)
  | .chain, first :: second :: rest => logging (Sequence.chain first second rest)
  | .list, items => building (Sequence.ofList items)
  | _, _ => throw (.malformed "parts")

/-- The alternation of some items. -/
def alternationOf : Arity → List Alternative → Eval Alternation
  | .pair, first :: second :: _ => pure (Alternation.pair first second)
  | .chain, first :: second :: rest => pure (Alternation.chain first second rest)
  | .list, items => checked (Alternation.ofList items)
  | _, _ => throw (.malformed "parts")

/-- The items combined two at a time: the first two, their value with the third, and so on. -/
def combineLeft (op : Binary) (acc : Node) : List Node → Eval Node
  | [] => pure acc
  | n :: ns => do combineLeft op (← op.build acc n) ns

/-- The items combined two at a time: the last two, the one before with their value, and so on. -/
def combineRight (op : Binary) (first : Node) : List Node → Eval Node
  | [] => pure first
  | n :: ns => do op.build first (← combineRight op n ns)

/-- The items combined two at a time from one of the ends. -/
def combine (op : Binary) (side : Side) : List Node → Eval Node
  | [] => throw (.malformed "parts")
  | n :: ns =>
    match side with
    | .left => combineLeft op n ns
    | .right => combineRight op n ns

/-- The value of a construction with any number of operands. -/
def Nary.build (op : Nary) (parts : List Node) : Eval Node :=
  match op with
  | compound => do return .compound (Compound.ofParts (← parts.mapM asRaw))
  | sequence arity => do
    let items ← parts.mapM asSequenceable
    .sequence <$> sequenceOf arity items
  | alternation arity => do
    let items ← parts.mapM asAlternative
    .alternation <$> alternationOf arity items
  | combine op side times => Script.combine op side (List.replicate times parts).flatten

/-! ## Terms -/

/-- The values of the steps so far; a step without a value has none. -/
abbrev Values := Array (Option Node)

/-- The value of an earlier step. -/
def valueAt (values : Values) (step : Nat) : Eval Node :=
  require (values[step]?.join) (.noValue step)

mutual

/-- The value of a term. -/
def Term.eval (values : Values) : Term → Eval Node
  | value step => valueAt values step
  | leaf l => l.build
  | unary op a => do op.build (← a.eval values)
  | binary op a b => do
    let x ← a.eval values
    let y ← b.eval values
    op.build x y
  | nary op parts => do op.build (← evalAll values parts)

/-- The values of all terms, from left to right. -/
def Term.evalAll (values : Values) : List Term → Eval (List Node)
  | [] => pure []
  | a :: as => do
    let x ← a.eval values
    let xs ← evalAll values as
    return x :: xs

end

end PatternAlgebra.Script
