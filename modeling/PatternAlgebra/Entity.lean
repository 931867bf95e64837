import PatternAlgebra.Analysis
/-!
# Entities

An entity is a construct of the pattern language with a fixed text: any character, or an
assertion about a position in the input.
-/

namespace PatternAlgebra

/-- A construct with a fixed text. -/
inductive Entity where
  | anyChar
  | lineBegin
  | lineEnd
  | wordBoundary
  | nonWordBoundary
  | inputBegin
  | matchEnd
  | inputEndSkipEol
  | inputEnd
  deriving DecidableEq, Repr, Hashable

namespace Entity

/-- The pattern text. -/
def text : Entity → String
  | anyChar => "."
  | lineBegin => "^"
  | lineEnd => "$"
  | wordBoundary => "\\b"
  | nonWordBoundary => "\\B"
  | inputBegin => "\\A"
  | matchEnd => "\\G"
  | inputEndSkipEol => "\\Z"
  | inputEnd => "\\z"

/-- Whether the entity asserts a position rather than taking a character. -/
def isZeroWidth : Entity → Bool
  | anyChar => false
  | _ => true

/-- What the entity can match. -/
def analysis (e : Entity) : Analysis :=
  if e.isZeroWidth then .assertion else .singleChar

end Entity

end PatternAlgebra
