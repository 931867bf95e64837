import PatternAlgebra.Profile
/-!
# Raw nodes

Runs of literal text are by far the most common shape in a pattern.  A raw node is an entity, a
literal, or a compound: a run of entities and literals that is kept as one flat list, however it
was put together.
-/

namespace PatternAlgebra

/-- A part of a compound. -/
inductive RawAtom where
  | entity (e : Entity)
  | literal (text : String)
  deriving DecidableEq, Repr, Hashable

/-- The text and the analysis of the atom. -/
def RawAtom.profile : RawAtom → Profile
  | entity e => .ofEntity e
  | literal text => .ofLiteral text

/-- A flat run of entities and literals. -/
structure Compound where
  atoms : List RawAtom
  profile : Profile

/-- A node that needs no grouping next to its neighbours. -/
inductive Raw where
  | atom (a : RawAtom)
  | compound (c : Compound)

namespace Raw

/-- An entity as a raw node. -/
def entity (e : Entity) : Raw := atom (.entity e)

/-- A literal as a raw node. -/
def literal (text : String) : Raw := atom (.literal text)

/-- The text and the analysis of the node. -/
def profile : Raw → Profile
  | atom a => a.profile
  | compound c => c.profile

/-- The entities and literals that the node consists of. -/
def atoms : Raw → List RawAtom
  | atom a => [a]
  | compound c => c.atoms

end Raw

/-- Compounds are compared by their parts. -/
instance : BEq Compound where
  beq a b := a.atoms == b.atoms

instance : Hashable Compound where
  hash c := hash c.atoms

/-- Raw nodes are compared by their structure: a compound of one atom is not that atom. -/
instance : BEq Raw where
  beq
    | .atom a, .atom b => a == b
    | .compound a, .compound b => a == b
    | _, _ => false

instance : Hashable Raw where
  hash
    | .atom a => mixHash 1 (hash a)
    | .compound c => mixHash 2 (hash c)

/-- One raw node after another, with the compounds among them opened. -/
def Compound.ofParts (parts : List Raw) : Compound where
  atoms := parts.flatMap Raw.atoms
  profile := .concatenation (parts.map Raw.profile)

/-- One raw node after another. -/
def Raw.append (a b : Raw) : Raw := compound (.ofParts [a, b])

end PatternAlgebra
