import PatternAlgebra.Expr.Placement
/-!
# Nodes of every type

The constructions speak of many types: leaves, nodes with parts, the three places, and the union
`Expr` of all expressions.  A `Node` is a value of any of them, together with its type, so that a
value can be passed on before it is known what it is used for.

Each type converts to the types that accept it and to no other.  A compound is a run that has not
been made a raw node yet, so it is the one type that is no expression.
-/

namespace PatternAlgebra

/-- The types of nodes. -/
inductive NodeType where
  | literal
  | charLiteral
  | entity
  | raw
  | compound
  | adopted
  | charClass
  | sequence
  | alternation
  | quantified
  | group
  | quantifiable
  | sequenceable
  | alternative
  | expr
  deriving DecidableEq, Repr

/-- The name of the type. -/
def NodeType.name : NodeType → String
  | literal => "Literal"
  | charLiteral => "CharLiteral"
  | entity => "Entity"
  | raw => "Raw"
  | compound => "Compound"
  | adopted => "Adopted"
  | charClass => "CharClass"
  | sequence => "Sequence"
  | alternation => "Alternation"
  | quantified => "Quantified"
  | group => "Group"
  | quantifiable => "Quantifiable"
  | sequenceable => "Sequenceable"
  | alternative => "Alternative"
  | expr => "Expr"

/-- A value of one of the types. -/
inductive Node where
  | literal (text : String)
  | charLiteral (c : Char)
  | entity (e : Entity)
  | raw (r : Raw)
  | compound (c : Compound)
  | adopted (pattern : String)
  | charClass (k : CharClass)
  | sequence (s : Sequence)
  | alternation (a : Alternation)
  | quantified (q : Quantified)
  | group (g : Group)
  | quantifiable (q : Quantifiable)
  | sequenceable (s : Sequenceable)
  | alternative (a : Alternative)
  | expr (e : Expr)

namespace Node

/-- The type of the node. -/
def type : Node → NodeType
  | literal _ => .literal
  | charLiteral _ => .charLiteral
  | entity _ => .entity
  | raw _ => .raw
  | compound _ => .compound
  | adopted _ => .adopted
  | charClass _ => .charClass
  | sequence _ => .sequence
  | alternation _ => .alternation
  | quantified _ => .quantified
  | group _ => .group
  | quantifiable _ => .quantifiable
  | sequenceable _ => .sequenceable
  | alternative _ => .alternative
  | expr _ => .expr

/-- What a node consists of once its type is forgotten. -/
inductive Content where
  | expr (e : Expr)
  | compound (c : Compound)

/-- The content of a node. -/
def content : Node → Content
  | literal text => .expr (.literal text)
  | charLiteral c => .expr (.charLiteral c)
  | entity e => .expr (.raw (.entity e))
  | raw r => .expr (.raw r)
  | compound c => .compound c
  | adopted pattern => .expr (.adopted pattern)
  | charClass k => .expr (.charClass k)
  | sequence s => .expr s.toExpr
  | alternation a => .expr a.toExpr
  | quantified q => .expr q.toExpr
  | group g => .expr g.toExpr
  | quantifiable q => .expr q.expr
  | sequenceable s => .expr s.expr
  | alternative a => .expr a.expr
  | expr e => .expr e

/-- The text and the analysis of a content. -/
def Content.profile : Content → Profile
  | expr e => e.profile
  | compound c => c.profile

/-- The text and the analysis of the node. -/
def profile (n : Node) : Profile := n.content.profile

/-- The pattern that the node stands for, if it can be written out. -/
def checkedRender (n : Node) : Except Fault String := n.profile.text.checkedRender

instance : BEq Content where
  beq
    | .expr a, .expr b => a == b
    | .compound a, .compound b => a == b
    | _, _ => false

instance : Hashable Content where
  hash
    | .expr e => mixHash 1 (hash e)
    | .compound c => mixHash 2 (hash c)

/-! ## Conversions -/

/-- The node as an expression. -/
def toExpr? (n : Node) : Option Expr :=
  match n.content with
  | .expr e => some e
  | .compound _ => none

/-- The node under a quantifier. -/
def toQuantifiable? : Node → Option Quantifiable
  | charLiteral c => some (.ofChar c)
  | entity e => some (.ofEntity e)
  | charClass k => some (.ofCharClass k)
  | group g => some (.ofGroup g)
  | quantifiable q => some q
  | _ => none

/-- The node as an item of a sequence. -/
def toSequenceable? : Node → Option Sequenceable
  | literal text => some (.ofLiteral text)
  | raw r => some (.ofRaw r)
  | quantified q => some (.ofQuantified q)
  | sequence s => some (.ofSequence s)
  | sequenceable s => some s
  | n => n.toQuantifiable?.map Quantifiable.toSequenceable

/-- The node between bars. -/
def toAlternative? : Node → Option Alternative
  | alternation a => some (.ofAlternation a)
  | alternative a => some a
  | n => n.toSequenceable?.map Sequenceable.toAlternative

/-- The node as a raw node. -/
def toRaw? : Node → Option Raw
  | literal text => some (.literal text)
  | charLiteral c => some (.literal (String.singleton c))
  | entity e => some (.entity e)
  | raw r => some r
  | compound c => some (.compound c)
  | _ => none

/-- The node as a character class. -/
def toCharClass? : Node → Option CharClass
  | charClass k => some k
  | _ => none

/-- The text of a literal of either kind. -/
def toLiteral? : Node → Option String
  | literal text => some text
  | charLiteral c => some (String.singleton c)
  | _ => none

/-! ## Parts -/

/-- An expression as a node of its own type. -/
def ofExpr : Expr → Node
  | .literal text => literal text
  | .charLiteral c => charLiteral c
  | .raw r => raw r
  | .adopted pattern => adopted pattern
  | .charClass k => charClass k
  | .sequence components profile => sequence ⟨components, profile⟩
  | .alternation alternatives profile => alternation ⟨alternatives, profile⟩
  | .quantified base quantifier mode profile => quantified ⟨base, quantifier, mode, profile⟩
  | .group kind nested profile => group ⟨kind, nested, profile⟩

/-- An entity or a literal as a node of its own type. -/
def ofAtom : RawAtom → Node
  | .entity e => entity e
  | .literal text => literal text

/-- A raw node as a node of its own type. -/
def ofRaw : Raw → Node
  | .atom a => ofAtom a
  | .compound c => compound c

/-- The expression in a place. -/
def placed? : Node → Option Expr
  | quantifiable q => some q.expr
  | sequenceable s => some s.expr
  | alternative a => some a.expr
  | _ => none

/-- The expression in the parentheses of a group. -/
def nested? : Node → Option Expr
  | group g => some g.nested
  | _ => none

/-- The base of a quantified node. -/
def base? : Node → Option Expr
  | quantified q => some q.base
  | _ => none

/-- The parts of a node that has a list of them. -/
def components? : Node → Option (List Node)
  | sequence s => some (s.components.map expr)
  | alternation a => some (a.alternatives.map expr)
  | compound c => some (c.atoms.map fun a => raw (.atom a))
  | _ => none

end Node

end PatternAlgebra
