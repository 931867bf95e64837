import PatternAlgebra.Script.Eval
import PatternAlgebra.Node.Inspect
/-!
# Scripts

A script is a list of steps.  A step builds a node or asks about nodes, and either may fail
without ending the script.  Later steps refer to the nodes built before them by the number of the
step, the first step being number 0.
-/

namespace PatternAlgebra.Script

open Eval

/-- One step of a script. -/
inductive Step where
  /-- Builds a node. -/
  | build (t : Term)
  /-- Compares two nodes of the same type. -/
  | compare (a b : Term)
  /-- Asks for the pattern of a node. -/
  | render (t : Term)
  /-- Asks for the structure of a node. -/
  | inspect (t : Term)
  /-- Asks for the two texts of a literal of either kind. -/
  | escaped (t : Term)

/-- The result of a step. -/
inductive Answer where
  | built (n : Node)
  /-- Whether two nodes are equal, and whether their hashes are. -/
  | compared (equal sameHash : Bool)
  | rendered (text : String)
  | inspected (text : String)
  /-- A text as it stands in a pattern, and as it is matched. -/
  | escaped (pattern matched : String)

/-- The node that an answer brings into the script. -/
def Answer.node? : Answer → Option Node
  | built n => some n
  | _ => none

/-- Compares two nodes by content; nodes of different types cannot be compared. -/
def compare (a b : Node) : Eval Answer :=
  if a.type = b.type then
    return .compared (a.content == b.content) (hash a.content == hash b.content)
  else throw (.incomparable a.type b.type)

/-- The result of a step after steps of which the values are known. -/
def Step.answer (values : Values) : Step → Eval Answer
  | build t => .built <$> t.eval values
  | compare a b => do
    let x ← a.eval values
    let y ← b.eval values
    Script.compare x y
  | render t => do
    let n ← t.eval values
    .rendered <$> guarded (n.profile.text.checkedWriteTo "")
  | inspect t => do return .inspected (← t.eval values).inspect
  | escaped t => do
    let n ← t.eval values
    let matched ← require n.toLiteral? (.lacks n.type .escaped)
    return .escaped (← guarded n.checkedRender) matched

/-- The result of a step and the events of it. -/
abbrev Outcome := Logged (Except Failure Answer)

/-- The node that an outcome brings into the script. -/
def Outcome.node? (o : Outcome) : Option Node :=
  match o.value with
  | .ok a => a.node?
  | .error _ => none

/-- The outcomes of some steps after steps of which the values are known. -/
def outcomes (values : Values) : List Step → List Outcome
  | [] => []
  | step :: steps =>
    let o : Outcome := (step.answer values).run
    o :: outcomes (values.push o.node?) steps

/-- The outcomes of the steps of a script. -/
def run (steps : List Step) : List Outcome := outcomes #[] steps

end PatternAlgebra.Script
