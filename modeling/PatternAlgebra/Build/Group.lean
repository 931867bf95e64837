import PatternAlgebra.Expr.Composite
import PatternAlgebra.Event
/-!
# Building groups

A group has the analysis of what it encloses, whatever its kind.  The one thing that can go wrong
is a look-behind around an expression without a bounded length, since an engine could not tell
how far to step back.  Such a group is refused with the text of the expression, which has to be
written out for that.
-/

namespace PatternAlgebra.Group

/-- Parentheses around an expression. -/
def build (kind : GroupKind) (nested : Expr) : Group where
  kind := kind
  nested := nested
  profile :=
    { text := Rope.ofString kind.opening ++ nested.text ++ Rope.ofChar ')'
      analysis := nested.analysis }

/-- A look-behind is refused around an expression with this text. -/
def refusal (text : String) : Logged (Except BuildError Group) :=
  ⟨.error (.unboundedLookBehind text), [.rejectingLookBehind text]⟩

/-- A group of the given kind, flags as listed. -/
def ofKind (kind : GroupKind) (nested : Expr) : Except Fault (Logged (Except BuildError Group)) :=
  if kind.isLookBehind ∧ nested.analysis.boundedLength = none then
    refusal <$> nested.checkedRender
  else return pure (.ok (build kind nested))

/-- A group of the given kind, every flag listed once and no flag group without flags. -/
def wrap (kind : GroupKind) (nested : Expr) : Except Fault (Logged (Except BuildError Group)) :=
  ofKind kind.normalized nested

/-- `(nested)` -/
def capture (nested : Expr) : Group := build .capture nested

/-- An expression with a flag switched on. -/
def enableFlag (flag : Flag) (nested : Expr) : Group :=
  build (GroupKind.enableFlags [flag]).normalized nested

/-- An expression with a flag switched off. -/
def disableFlag (flag : Flag) (nested : Expr) : Group :=
  build (GroupKind.disableFlags [flag]).normalized nested

end PatternAlgebra.Group
