import PatternAlgebra.Raw
import PatternAlgebra.Quantifier
import PatternAlgebra.GroupKind
/-!
# Expressions

`Expr` is the union of all kinds of nodes.  A node with parts stores its profile next to them.
Expressions are compared by what can be seen of them, so the stored profile is left out: it is
determined by the parts.
-/

namespace PatternAlgebra

/-- A node of a pattern. -/
inductive Expr where
  /-- Exactly a text. -/
  | literal (text : String)
  /-- Exactly one character; unlike a literal it takes a quantifier. -/
  | charLiteral (c : Char)
  /-- An entity, a literal, or a run of both. -/
  | raw (r : Raw)
  /-- Pattern text from outside, taken over unread. -/
  | adopted (pattern : String)
  /-- One character of a class. -/
  | charClass (k : CharClass)
  /-- One component after another. -/
  | sequence (components : List Expr) (profile : Profile)
  /-- The first alternative that matches. -/
  | alternation (alternatives : List Expr) (profile : Profile)
  /-- Repetitions of a base. -/
  | quantified (base : Expr) (quantifier : Quantifier) (mode : Mode) (profile : Profile)
  /-- An expression in parentheses. -/
  | group (kind : GroupKind) (nested : Expr) (profile : Profile)

namespace Expr

/-- The text and the analysis of the node. -/
def profile : Expr → Profile
  | literal text => .ofLiteral text
  | charLiteral c => .ofChar c
  | raw r => r.profile
  | adopted pattern => .ofAdopted pattern
  | charClass k => .ofCharClass k
  | sequence _ profile => profile
  | alternation _ profile => profile
  | quantified _ _ _ profile => profile
  | group _ _ profile => profile

/-- The text of the node. -/
def text (e : Expr) : Rope := e.profile.text

/-- What the node can match. -/
def analysis (e : Expr) : Analysis := e.profile.analysis

/-- The pattern that the node stands for, if it can be written out. -/
def checkedRender (e : Expr) : Except Fault String := e.text.checkedRender

/-- The node as a raw node, if it is one or a literal of either kind. -/
def asRaw? : Expr → Option Raw
  | literal text => some (.literal text)
  | charLiteral c => some (.literal (String.singleton c))
  | raw r => some r
  | _ => none

/-! ## Equality -/

mutual

/-- Whether two expressions have the same structure. -/
def same : Expr → Expr → Bool
  | literal a, literal b => a == b
  | charLiteral c, charLiteral d => c == d
  | raw a, raw b => a == b
  | adopted a, adopted b => a == b
  | charClass a, charClass b => a == b
  | sequence as _, sequence bs _ => sameAll as bs
  | alternation as _, alternation bs _ => sameAll as bs
  | quantified a p m _, quantified b q n _ => p == q && m == n && same a b
  | group k a _, group l b _ => k == l && same a b
  | _, _ => false

/-- Whether two lists of expressions agree item by item. -/
def sameAll : List Expr → List Expr → Bool
  | [], [] => true
  | a :: as, b :: bs => same a b && sameAll as bs
  | _, _ => false

end

instance : BEq Expr := ⟨same⟩

mutual

/-- A hash of everything that equality looks at. -/
def hashCode : Expr → UInt64
  | literal text => mixHash 1 (hash text)
  | charLiteral c => mixHash 2 (hash c.toNat)
  | raw r => mixHash 3 (hash r)
  | adopted pattern => mixHash 4 (hash pattern)
  | charClass k => mixHash 5 (hash k)
  | sequence components _ => mixHash 6 (hashCodes components)
  | alternation alternatives _ => mixHash 7 (hashCodes alternatives)
  | quantified base quantifier mode _ =>
    mixHash 8 (mixHash (hashCode base) (mixHash (hash quantifier) (hash mode)))
  | group kind nested _ => mixHash 9 (mixHash (hash kind) (hashCode nested))

/-- A hash of the items in order. -/
def hashCodes : List Expr → UInt64
  | [] => 10
  | a :: as => mixHash (hashCode a) (hashCodes as)

end

instance : Hashable Expr := ⟨hashCode⟩

end Expr

end PatternAlgebra
