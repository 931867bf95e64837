import PatternAlgebra.Expr.Composite
/-!
# Placement

Where a node may stand without parentheses depends on its kind alone.  There are three places:
under a quantifier, as an item of a sequence, and as one of several alternatives; whatever may
stand in one of them may stand in the later ones.  Each place has a type of the expressions that
it takes, so a construction that needs parentheses cannot be written without them.

Adopted text may stand in none of the places, since nothing is known about how its ends would
read next to other text.
-/

namespace PatternAlgebra

namespace Expr

/-- Whether a quantifier after the node applies to all of it. -/
def isQuantifiable : Expr → Bool
  | charLiteral _ => true
  | raw (.atom (.entity _)) => true
  | charClass _ => true
  | group _ _ _ => true
  | _ => false

/-- Whether the node keeps its meaning next to others in a sequence. -/
def isSequenceable : Expr → Bool
  | adopted _ => false
  | alternation _ _ => false
  | _ => true

/-- Whether the node keeps its meaning between bars. -/
def isAlternative : Expr → Bool
  | adopted _ => false
  | _ => true

theorem isSequenceable_of_isQuantifiable {e : Expr} (h : e.isQuantifiable = true) :
    e.isSequenceable = true := by
  cases e <;> first | rfl | exact absurd h (by simp [isQuantifiable])

theorem isAlternative_of_isSequenceable {e : Expr} (h : e.isSequenceable = true) :
    e.isAlternative = true := by
  cases e <;> first | rfl | exact absurd h (by simp [isSequenceable])

end Expr

/-- An expression that may stand under a quantifier. -/
structure Quantifiable where
  expr : Expr
  allowed : expr.isQuantifiable = true

/-- An expression that may stand in a sequence. -/
structure Sequenceable where
  expr : Expr
  allowed : expr.isSequenceable = true

/-- An expression that may stand between bars. -/
structure Alternative where
  expr : Expr
  allowed : expr.isAlternative = true

namespace Quantifiable

/-- A single character. -/
def ofChar (c : Char) : Quantifiable := ⟨.charLiteral c, rfl⟩

/-- An entity. -/
def ofEntity (e : Entity) : Quantifiable := ⟨.raw (.entity e), rfl⟩

/-- A character class. -/
def ofCharClass (k : CharClass) : Quantifiable := ⟨.charClass k, rfl⟩

/-- A group. -/
def ofGroup (g : Group) : Quantifiable := ⟨g.toExpr, rfl⟩

/-- What may stand under a quantifier may stand in a sequence. -/
def toSequenceable (q : Quantifiable) : Sequenceable :=
  ⟨q.expr, Expr.isSequenceable_of_isQuantifiable q.allowed⟩

end Quantifiable

namespace Sequenceable

/-- A literal. -/
def ofLiteral (text : String) : Sequenceable := ⟨.literal text, rfl⟩

/-- A single character. -/
def ofChar (c : Char) : Sequenceable := ⟨.charLiteral c, rfl⟩

/-- A raw node. -/
def ofRaw (r : Raw) : Sequenceable := ⟨.raw r, rfl⟩

/-- A character class. -/
def ofCharClass (k : CharClass) : Sequenceable := ⟨.charClass k, rfl⟩

/-- A quantified node. -/
def ofQuantified (q : Quantified) : Sequenceable := ⟨q.toExpr, rfl⟩

/-- A group. -/
def ofGroup (g : Group) : Sequenceable := ⟨g.toExpr, rfl⟩

/-- A sequence. -/
def ofSequence (s : Sequence) : Sequenceable := ⟨s.toExpr, rfl⟩

/-- What may stand in a sequence may stand between bars. -/
def toAlternative (s : Sequenceable) : Alternative :=
  ⟨s.expr, Expr.isAlternative_of_isSequenceable s.allowed⟩

end Sequenceable

/-- An alternation. -/
def Alternative.ofAlternation (a : Alternation) : Alternative := ⟨a.toExpr, rfl⟩

end PatternAlgebra
