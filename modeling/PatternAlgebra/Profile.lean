import PatternAlgebra.Analysis
import PatternAlgebra.Rope.Traversal
import PatternAlgebra.Text.Escape
import PatternAlgebra.Entity
import PatternAlgebra.CharClass.Printer
/-!
# Profiles

The profile of a node is all that an enclosing node needs to know of it: its text and its
analysis.  Leaves have their profile computed on demand; every other node stores it, so putting
nodes together never walks through them.
-/

namespace PatternAlgebra

/-- The text and the analysis of a node. -/
structure Profile where
  text : Rope
  analysis : Analysis

namespace Profile

/-- A literal is written escaped and matches as many characters as it has. -/
def ofLiteral (text : String) : Profile where
  text := Rope.ofString (escape text)
  analysis := .fixed text.length

/-- A single character is written escaped. -/
def ofChar (c : Char) : Profile where
  text := Rope.ofString (escapeChar c)
  analysis := .singleChar

/-- An entity has a fixed text. -/
def ofEntity (e : Entity) : Profile where
  text := Rope.ofString e.text
  analysis := e.analysis

/-- Adopted text is taken as it is, and nothing is known about it. -/
def ofAdopted (pattern : String) : Profile where
  text := Rope.ofString pattern
  analysis := .unknown

/-- A class is written on its own and matches one character. -/
def ofCharClass (k : CharClass) : Profile where
  text := Rope.ofString k.independent
  analysis := .singleChar

/-- Parts written and matched one after another. -/
def concatenation (parts : List Profile) : Profile where
  text := parts.foldl (fun text part => text ++ part.text) .empty
  analysis := .concatenation (parts.map Profile.analysis)

/-- Alternatives written with a bar between neighbours. -/
def alternation (alternatives : List Profile) : Profile where
  text := match alternatives with
    | [] => .empty
    | first :: rest =>
      rest.foldl (fun text part => text ++ Rope.ofChar '|' ++ part.text) first.text
  analysis := .alternation (alternatives.map Profile.analysis)

end Profile

end PatternAlgebra
