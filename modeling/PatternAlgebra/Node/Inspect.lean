import PatternAlgebra.Node.Basic
import PatternAlgebra.Text.Quoted
/-!
# Inspecting nodes

The inspected form of a node shows its structure on one line: every value with the name of its
type, the values of an enumeration by their names, texts quoted.  A node is shown without its
profile, so nodes that are equal look the same.
-/

namespace PatternAlgebra

namespace Inspect

/-- A value in parentheses behind a name. -/
def tagged (name inner : String) : String := name ++ "(" ++ inner ++ ")"

/-- Values in brackets. -/
def listed (items : List String) : String := "[" ++ String.intercalate ", " items ++ "]"

/-- Values in braces. -/
def setOf (items : List String) : String := "\x7b" ++ String.intercalate ", " items ++ "\x7d"

/-- Named fields in braces behind a name. -/
def record (name : String) (fields : List (String × String)) : String :=
  name ++ " \x7b " ++ String.intercalate ", " (fields.map fun f => f.1 ++ ": " ++ f.2) ++ " \x7d"

/-- A text as the only leaf of a rope. -/
def rope (text : String) : String := tagged "Rope" (Text.quoted text)

end Inspect

open Inspect

/-- The inspected form of a rope, if it can be written out. -/
def Rope.inspect (r : Rope) : Except Fault String := Inspect.rope <$> r.checkedRender

/-- The name of the entity. -/
def Entity.name : Entity → String
  | anyChar => "AnyChar"
  | lineBegin => "LineBegin"
  | lineEnd => "LineEnd"
  | wordBoundary => "WordBoundary"
  | nonWordBoundary => "NonWordBoundary"
  | inputBegin => "InputBegin"
  | matchEnd => "MatchEnd"
  | inputEndSkipEol => "InputEndSkipEol"
  | inputEnd => "InputEnd"

/-- The name of the flag. -/
def Flag.name : Flag → String
  | caseInsensitive => "CaseInsensitive"
  | unixLines => "UnixLines"
  | multiline => "Multiline"
  | dotAll => "DotAll"
  | unicodeCase => "UnicodeCase"
  | comments => "Comments"

/-- The name of the mode. -/
def Mode.name : Mode → String
  | greedy => "Greedy"
  | reluctant => "Reluctant"
  | possessive => "Possessive"

/-- The name of the kind, without its flags. -/
def GroupKind.name : GroupKind → String
  | capture => "Capture"
  | nonCapturing => "NonCapturing"
  | independent => "Independent"
  | positiveLookAhead => "PositiveLookAhead"
  | negativeLookAhead => "NegativeLookAhead"
  | positiveLookBehind => "PositiveLookBehind"
  | negativeLookBehind => "NegativeLookBehind"
  | enableFlags _ => "EnableFlags"
  | disableFlags _ => "DisableFlags"

/-- The flags that the kind switches, if it switches flags. -/
def GroupKind.flags? : GroupKind → Option (List Flag)
  | enableFlags flags => some flags
  | disableFlags flags => some flags
  | _ => none

/-- The inspected form of the kind. -/
def GroupKind.inspect (kind : GroupKind) : String :=
  match kind.flags? with
  | some flags => tagged kind.name (listed (flags.map Flag.name))
  | none => kind.name

/-- The inspected form of the quantifier. -/
def Quantifier.inspect : Quantifier → String
  | anyTimes => "AnyTimes"
  | atLeastOnce => "AtLeastOnce"
  | optional => "Optional"
  | exactly count => tagged "Exactly" (toString count)
  | range min none => record "Range" [("min", toString min), ("max", "None")]
  | range min (some max) =>
    record "Range" [("min", toString min), ("max", tagged "Some" (toString max))]

namespace CharClass

/-- A class of which the kind is given in words. -/
def inspectKind (kind : String) : String := record "CharClass" [("kind", kind)]

mutual

/-- The inspected form of the class. -/
def inspect : CharClass → String
  | single c => inspectKind (tagged "Single" (Text.quotedSingle c))
  | set members => inspectKind (tagged "Set" (setOf (members.map Text.quotedSingle)))
  | range first last =>
    inspectKind (record "Range"
      [("first", Text.quotedSingle first), ("last", Text.quotedSingle last)])
  | shorthand kind isNegated =>
    inspectKind (tagged "Predefined" (Text.quotedSingle (kind.letter isNegated)))
  | property name isNegated =>
    inspectKind (record "Named" [("name", Text.quoted name), ("negated", toString isNegated)])
  | complement inner => inspectKind (tagged "Negated" (inspect inner))
  | union members => inspectKind (tagged "Union" (listed (inspectAll members)))
  | intersection members => inspectKind (tagged "Intersection" (listed (inspectAll members)))

/-- The inspected forms of all members. -/
def inspectAll : List CharClass → List String
  | [] => []
  | k :: ks => inspect k :: inspectAll ks

end

end CharClass

namespace Inspect

/-- The inspected form of a literal. -/
def literal (text : String) : String := tagged "Literal" (Text.quoted text)

/-- The inspected form of a single character. -/
def charLiteral (c : Char) : String := record "CharLiteral" [("c", Text.quotedSingle c)]

/-- The inspected form of adopted text. -/
def adopted (pattern : String) : String := record "Adopted" [("expression", rope pattern)]

/-- The inspected form of an atom as a raw node. -/
def atom : RawAtom → String
  | .entity e => tagged "Entity" e.name
  | .literal text => tagged "Literal" (literal text)

/-- The inspected form of a compound. -/
def compound (c : Compound) : String := tagged "Compound" (listed (c.atoms.map atom))

/-- The inspected form of a raw node. -/
def raw : Raw → String
  | .atom a => atom a
  | .compound c => tagged "Compound" (compound c)

end Inspect

namespace Expr

/-- The name of the kind of the expression. -/
def kindName (e : Expr) : String := (Node.ofExpr e).type.name

mutual

/-- The inspected form of what an expression consists of. -/
def inspectPayload : Expr → String
  | literal text => Inspect.literal text
  | charLiteral c => Inspect.charLiteral c
  | raw r => Inspect.raw r
  | adopted pattern => Inspect.adopted pattern
  | charClass k => k.inspect
  | sequence components _ => tagged "Sequence" (listed (inspectAll components))
  | alternation alternatives _ => tagged "Alternation" (listed (inspectAll alternatives))
  | quantified base quantifier mode _ =>
    record "Quantified"
      [("base", tagged base.kindName (inspectPayload base)),
        ("quantifier", quantifier.inspect), ("mode", mode.name)]
  | group kind nested _ =>
    record "Group"
      [("kind", kind.inspect), ("nested", tagged nested.kindName (inspectPayload nested))]

/-- The inspected forms of all expressions. -/
def inspectAll : List Expr → List String
  | [] => []
  | e :: es => tagged e.kindName (inspectPayload e) :: inspectAll es

end

/-- The inspected form of the expression: what it consists of, behind the name of its kind. -/
def inspect (e : Expr) : String := tagged e.kindName e.inspectPayload

end Expr

/-- The inspected form of the node.  A place shows the expression in it, and the other types show
    what they consist of. -/
def Node.inspect : Node → String
  | literal text => Inspect.literal text
  | charLiteral c => Inspect.charLiteral c
  | entity e => e.name
  | raw r => Inspect.raw r
  | compound c => Inspect.compound c
  | adopted pattern => Inspect.adopted pattern
  | charClass k => k.inspect
  | sequence s => s.toExpr.inspectPayload
  | alternation a => a.toExpr.inspectPayload
  | quantified q => q.toExpr.inspectPayload
  | group g => g.toExpr.inspectPayload
  | quantifiable q => tagged "Quantifiable" q.expr.inspect
  | sequenceable s => tagged "Sequenceable" s.expr.inspect
  | alternative a => tagged "Alternative" a.expr.inspect
  | expr e => e.inspect

end PatternAlgebra
