import PatternAlgebra.Expr.Placement
/-!
# Building repetitions

A quantifier is checked once, before it is applied.
-/

namespace PatternAlgebra.Quantified

/-- The base under a quantifier that has been checked. -/
def build (base : Quantifiable) (quantifier : Quantifier) (mode : Mode) : Quantified where
  base := base.expr
  quantifier := quantifier
  mode := mode
  profile :=
    { text := base.expr.text ++ Rope.ofString (quantifier.text ++ mode.suffix)
      analysis := quantifier.analysis base.expr.analysis }

/-- The base under a quantifier, if the quantifier is in order. -/
def apply (base : Quantifiable) (quantifier : Quantifier) (mode : Mode) :
    Except BuildError Quantified := do
  quantifier.check
  return build base quantifier mode

end PatternAlgebra.Quantified
