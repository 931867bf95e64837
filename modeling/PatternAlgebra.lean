import PatternAlgebra.Script.Program
import PatternAlgebra.Script.Ropes
import PatternAlgebra.Proofs.Rope.Contents
import PatternAlgebra.Proofs.Rope.Reading
import PatternAlgebra.Proofs.Rope.Programs
import PatternAlgebra.Proofs.Analysis.Concatenation
import PatternAlgebra.Proofs.Construction.Invariant
import PatternAlgebra.Proofs.Construction.Classes
import PatternAlgebra.Proofs.Construction.Composites
import PatternAlgebra.Proofs.Script.Returns
import PatternAlgebra.Proofs.Script.Constructible
import PatternAlgebra.Proofs.Analysis.Lengths
import PatternAlgebra.Proofs.Expr.Shape
import PatternAlgebra.Proofs.Expr.Occurrences
import PatternAlgebra.Proofs.Sequence.Runs
import PatternAlgebra.Proofs.Sequence.Bracketing
import PatternAlgebra.Proofs.Syntax.Reader
import PatternAlgebra.Proofs.Syntax.Characters
import PatternAlgebra.Proofs.Syntax.ReadClass
import PatternAlgebra.Proofs.Syntax.ReadToken
import PatternAlgebra.Proofs.Syntax.ReadBack
import PatternAlgebra.Proofs.Syntax.Decoding
import PatternAlgebra.Proofs.Construction.Coherence
import PatternAlgebra.Proofs.Analysis.LookBehind
import PatternAlgebra.Proofs.CharClass.Denotation
import PatternAlgebra.Proofs.Syntax.ClassMeaning
import PatternAlgebra.Proofs.Syntax.Comments
import PatternAlgebra.Proofs.Analysis.ZeroLength
import PatternAlgebra.Proofs.Construction.NormalForm
import PatternAlgebra.Proofs.Sequence.Unmerging
import PatternAlgebra.Proofs.Analysis.Regrouping
import PatternAlgebra.Proofs.Analysis.Repetition
import PatternAlgebra.Proofs.Alternation.Bracketing
import PatternAlgebra.Proofs.CharClass.Complement
import PatternAlgebra.Proofs.Raw.Flattening
import PatternAlgebra.Proofs.Group.Nesting
import PatternAlgebra.Proofs.Analysis.Order
import PatternAlgebra.Proofs.Script.Tightening
import PatternAlgebra.Proofs.CharClass.ExplicitUnion
import PatternAlgebra.Proofs.Expr.Language
import PatternAlgebra.Proofs.Prefab.Ipv4
import PatternAlgebra.Proofs.Rope.Checked
import PatternAlgebra.Proofs.Rope.Words
import PatternAlgebra.Proofs.Rope.Overflow
import PatternAlgebra.Proofs.Rope.Safety
import PatternAlgebra.Proofs.Rope.Draining
import PatternAlgebra.Proofs.Rope.Leaves
import PatternAlgebra.Proofs.Sequence.Reports
import PatternAlgebra.Proofs.Rope.Writing
import PatternAlgebra.Proofs.Raw.Splicing
import PatternAlgebra.Proofs.Rope.Behaviour
