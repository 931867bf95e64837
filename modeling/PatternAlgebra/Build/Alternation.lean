import PatternAlgebra.Expr.Placement
/-!
# Building alternations

Alternations stay flat: the alternatives of a nested alternation take its place.
-/

namespace PatternAlgebra

/-- The alternatives that an expression offers. -/
def Expr.alternatives : Expr → List Expr
  | .alternation alternatives _ => alternatives
  | e => [e]

namespace Alternation

/-- The alternation of some expressions, in normal form. -/
def ofItems (items : List Alternative) : Alternation :=
  let alternatives := items.flatMap (·.expr.alternatives)
  { alternatives, profile := .alternation (alternatives.map Expr.profile) }

/-- The alternation of two expressions. -/
def pair (first second : Alternative) : Alternation := ofItems [first, second]

/-- The alternation of two or more expressions. -/
def chain (first second : Alternative) (rest : List Alternative) : Alternation :=
  ofItems (first :: second :: rest)

/-- The alternation of any number of expressions, if there are at least two. -/
def ofList (items : List Alternative) : Except BuildError Alternation :=
  if items.length < 2 then .error (.tooFewOperands 2 items.length) else .ok (ofItems items)

end Alternation

end PatternAlgebra
