import PatternAlgebra.Expr.Basic
/-!
# Nodes with parts

A sequence, an alternation, a quantified node and a group each have a type of their own, with the
same fields as the expression they are.  Everything known about them as expressions carries over.
-/

namespace PatternAlgebra

/-- One component after another. -/
structure Sequence where
  components : List Expr
  profile : Profile

/-- The first alternative that matches. -/
structure Alternation where
  alternatives : List Expr
  profile : Profile

/-- Repetitions of a base. -/
structure Quantified where
  base : Expr
  quantifier : Quantifier
  mode : Mode
  profile : Profile

/-- An expression in parentheses. -/
structure Group where
  kind : GroupKind
  nested : Expr
  profile : Profile

/-- The sequence as an expression. -/
def Sequence.toExpr (s : Sequence) : Expr := .sequence s.components s.profile

/-- The alternation as an expression. -/
def Alternation.toExpr (a : Alternation) : Expr := .alternation a.alternatives a.profile

/-- The quantified node as an expression. -/
def Quantified.toExpr (q : Quantified) : Expr := .quantified q.base q.quantifier q.mode q.profile

/-- The group as an expression. -/
def Group.toExpr (g : Group) : Expr := .group g.kind g.nested g.profile

instance : BEq Sequence := ⟨fun a b => a.toExpr == b.toExpr⟩

instance : BEq Alternation := ⟨fun a b => a.toExpr == b.toExpr⟩

instance : BEq Quantified := ⟨fun a b => a.toExpr == b.toExpr⟩

instance : BEq Group := ⟨fun a b => a.toExpr == b.toExpr⟩

end PatternAlgebra
