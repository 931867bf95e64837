import PatternAlgebra.Script.Eval
import PatternAlgebra.Node.Inspect
/-!
# Scripts on ropes

A script may also put ropes together and read them.  Here the operands are always the ropes of
earlier steps.  A rope may be used any number of times, so a short script can get to lengths that
no word holds and to texts that cannot be written out.
-/

namespace PatternAlgebra.Script

/-- A step that makes a rope. -/
inductive RopeTerm where
  | empty
  | ofString (text : String)
  | ofChar (c : Char)
  /-- The text of a node that refers to no steps. -/
  | ofNode (t : Term)
  | append (a b : Nat)
  /-- Appends `b` so many times. -/
  | appendTimes (a b times : Nat)
  /-- Puts `a` in front of `b` so many times. -/
  | prependTimes (a b times : Nat)
  | subSequence (a start stop : Nat)

/-- One step of a script on ropes. -/
inductive RopeStep where
  | build (t : RopeTerm)
  | charAt (a index : Nat)
  | chars (a : Nat)
  /-- Asks for the text of a rope, written after some other text. -/
  | writeAfter (a : Nat) (text : String)
  | render (a : Nat)
  | inspect (a : Nat)
  | compare (a b : Nat)

/-- The result of a step. -/
inductive RopeAnswer where
  | built (r : Rope)
  | char (c : Char)
  | chars (cs : List Char)
  | text (text : String)
  | inspected (text : String)
  /-- Whether two ropes are equal, and whether their hashes are. -/
  | compared (equal sameHash : Bool)

/-- The ropes of the steps so far; a step without a rope has none. -/
abbrev Ropes := Array (Option Rope)

/-- The rope of an earlier step. -/
def ropeAt (ropes : Ropes) (step : Nat) : Except Failure Rope :=
  match ropes[step]?.join with
  | some r => .ok r
  | none => .error (.noValue step)

/-- A reading that may be out of bounds. -/
def indexed {α : Type} (x : Except IndexError α) : Except Failure α := x.mapError .outOfBounds

/-- A reading that may come to a fault. -/
def unfaulted {α : Type} (x : Except Fault α) : Except Failure α := x.mapError .fault

/-- The rope that a step makes. -/
def RopeTerm.build (ropes : Ropes) : RopeTerm → Except Failure Rope
  | empty => .ok .empty
  | ofString text => .ok (.ofString text)
  | ofChar c => .ok (.ofChar c)
  | ofNode t => do return (← (t.eval #[]).run.value).profile.text
  | append a b => do
    let x ← ropeAt ropes a
    let y ← ropeAt ropes b
    return x ++ y
  | appendTimes a b times => do
    let x ← ropeAt ropes a
    let y ← ropeAt ropes b
    return Nat.repeat (· ++ y) times x
  | prependTimes a b times => do
    let x ← ropeAt ropes a
    let y ← ropeAt ropes b
    return Nat.repeat (x ++ ·) times y
  | subSequence a start stop => do
    let x ← ropeAt ropes a
    indexed (x.subSequence start stop)

/-- The result of a step after steps of which the ropes are known. -/
def RopeStep.answer (ropes : Ropes) : RopeStep → Except Failure RopeAnswer
  | build t => .built <$> t.build ropes
  | charAt a index => do
    let x ← ropeAt ropes a
    .char <$> indexed (x.charAt index)
  | chars a => do return .chars (← ropeAt ropes a).chars
  | writeAfter a text => do
    let x ← ropeAt ropes a
    .text <$> unfaulted (x.checkedWriteTo text)
  | render a => do
    let x ← ropeAt ropes a
    .text <$> unfaulted (x.checkedWriteTo "")
  | inspect a => do
    let x ← ropeAt ropes a
    .inspected <$> unfaulted x.inspect
  | compare a b => do
    let x ← ropeAt ropes a
    let y ← ropeAt ropes b
    return .compared (x == y) (hash x == hash y)

/-- The rope that a result brings into the script. -/
def RopeAnswer.rope? : RopeAnswer → Option Rope
  | built r => some r
  | _ => none

/-- The results of some steps after steps of which the ropes are known. -/
def ropeAnswers (ropes : Ropes) : List RopeStep → List (Except Failure RopeAnswer)
  | [] => []
  | step :: steps =>
    let a := step.answer ropes
    a :: ropeAnswers (ropes.push (a.toOption.bind RopeAnswer.rope?)) steps

/-- The results of the steps of a script on ropes. -/
def runRopes (steps : List RopeStep) : List (Except Failure RopeAnswer) := ropeAnswers #[] steps

end PatternAlgebra.Script
