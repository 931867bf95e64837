import PatternAlgebra.Expr.Basic
/-!
# The tree of a pattern

A pattern as an engine reads it is a list of alternative branches, each of them a row of pieces,
and a piece is a single character, an entity, a class, a group or a repetition of one of these.  So
no trace is left of how literals were cut, of sequences in sequences, or of places.

Every expression has such a tree, its normal form.  What a normal form forgets is only what cannot
be seen in a pattern: a literal is the row of its characters, a class of one character standing by
itself is that character, and a group that switches no flag on captures nothing and does nothing
else.
-/

namespace PatternAlgebra

/-! ## Trees -/

/-- An item between the brackets of a class. -/
inductive ClassItem where
  | char (c : Char)
  | range (first last : Char)
  | shorthand (kind : Shorthand) (isNegated : Bool)
  | property (name : String) (isNegated : Bool)
  /-- A class in brackets: the characters that all operands have in common, or all others. -/
  | bracket (isNegated : Bool) (operands : List (List ClassItem))

/-- A part of a branch. -/
inductive Piece where
  | char (c : Char)
  | entity (e : Entity)
  | charClass (k : ClassItem)
  | group (kind : GroupKind) (branches : List (List Piece))
  | repeated (base : Piece) (quantifier : Quantifier) (mode : Mode)

namespace Piece

/-- Whether the piece has a quantifier already. -/
def isRepeated : Piece → Bool
  | repeated _ _ _ => true
  | _ => false

/-- A class item standing by itself; one that is a character is no class there. -/
def ofClassItem : ClassItem → Piece
  | .char c => char c
  | item => charClass item

end Piece

/-! ## Normal forms -/

namespace CharClass

/-- Puts brackets around some items when asked to. -/
def bracketItemsIf (needed : Bool) (items : List ClassItem) : List ClassItem :=
  if needed then [.bracket false [items]] else items

mutual

/-- The items of a class between the brackets of another. -/
def items : CharClass → List ClassItem
  | single c => [.char c]
  | set members => members.map .char
  | range first last => [.range first last]
  | shorthand kind isNegated => [.shorthand kind isNegated]
  | property name isNegated => [.property name isNegated]
  | complement inner => [.bracket true [items inner]]
  | union members => itemsAll members
  | intersection members => [.bracket false (operands members)]

/-- The items of all members, one after another. -/
def itemsAll : List CharClass → List ClassItem
  | [] => []
  | k :: ks => items k ++ itemsAll ks

/-- The items of each class, in brackets where it needs them on its own. -/
def operands : List CharClass → List (List ClassItem)
  | [] => []
  | k :: ks => bracketItemsIf k.needsBrackets (items k) :: operands ks

end

theorem operands_ne_nil {ks : List CharClass} (h : ks ≠ []) : operands ks ≠ [] := by
  cases ks with
  | nil => exact absurd rfl h
  | cons k ks => exact List.cons_ne_nil _ _

/-- The piece that a class is on its own. -/
def pieces (k : CharClass) : List Piece :=
  (bracketItemsIf k.needsBrackets k.items).map .ofClassItem

end CharClass

/-- The kind as it can be told from the opening parenthesis. -/
def GroupKind.asWritten : GroupKind → GroupKind
  | enableFlags [] => nonCapturing
  | kind => kind

/-- The pieces of an atom. -/
def RawAtom.pieces : RawAtom → List Piece
  | entity e => [.entity e]
  | literal text => text.toList.map .char

namespace Expr

mutual

/-- The branches of an expression, of which there are several only for alternatives. -/
def branches : Expr → List (List Piece)
  | alternation alternatives _ => branchesOfAny alternatives
  | literal text => [text.toList.map .char]
  | charLiteral c => [[.char c]]
  | raw r => [r.atoms.flatMap RawAtom.pieces]
  | adopted _ => []
  | charClass k => [k.pieces]
  | sequence components _ => [piecesInRow components]
  | quantified base quantifier mode _ =>
    [(branches base).flatten.map fun piece => .repeated piece quantifier mode]
  | group kind nested _ => [[.group kind.asWritten (branches nested)]]

/-- The branches of all alternatives. -/
def branchesOfAny : List Expr → List (List Piece)
  | [] => []
  | e :: es => branches e ++ branchesOfAny es

/-- The pieces of components in a row, none of which is an alternation. -/
def piecesInRow : List Expr → List Piece
  | [] => []
  | e :: es => (branches e).flatten ++ piecesInRow es

end

end Expr

/-! ## What can be read back -/

namespace CharClass

mutual

/-- Whether no property in the class has a name in which a closing brace occurs. -/
def isReadable : CharClass → Bool
  | property name _ => !name.toList.contains '\x7d'
  | complement inner => isReadable inner
  | union members => areReadable members
  | intersection members => areReadable members
  | _ => true

/-- Whether all classes are readable. -/
def areReadable : List CharClass → Bool
  | [] => true
  | k :: ks => isReadable k && areReadable ks

end

theorem isReadable_of_mem {k : CharClass} {ks : List CharClass} (h : areReadable ks = true)
    (hk : k ∈ ks) : k.isReadable = true := by
  induction ks with
  | nil => exact nomatch hk
  | cons j js ih =>
      rw [areReadable, Bool.and_eq_true] at h
      rcases List.mem_cons.mp hk with rfl | hk
      · exact h.1
      · exact ih h.2 hk

end CharClass

namespace Expr

mutual

/-- Whether the expression contains no adopted text, and no property with a closing brace in its
    name. -/
def isReadable : Expr → Bool
  | adopted _ => false
  | charClass k => k.isReadable
  | sequence components _ => areReadable components
  | alternation alternatives _ => areReadable alternatives
  | quantified base _ _ _ => isReadable base
  | group _ nested _ => isReadable nested
  | _ => true

/-- Whether all expressions are readable. -/
def areReadable : List Expr → Bool
  | [] => true
  | e :: es => isReadable e && areReadable es

end

theorem isReadable_of_mem {e : Expr} {es : List Expr} (h : areReadable es = true) (he : e ∈ es) :
    e.isReadable = true := by
  induction es with
  | nil => exact nomatch he
  | cons d ds ih =>
      rw [areReadable, Bool.and_eq_true] at h
      rcases List.mem_cons.mp he with rfl | he
      · exact h.1
      · exact ih h.2 he

end Expr

end PatternAlgebra
