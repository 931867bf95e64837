/-!
# Events

Some constructions report what they do.  `Logged` pairs a value with the events of its
computation, oldest first, so a report is an ordinary result: it can be compared, and nothing is
lost when a later step fails, because a failing computation is `Logged (Except _ _)` and keeps the
events that led up to the failure.
-/

namespace PatternAlgebra

/-- What a construction reports. -/
inductive Event where
  /-- Pattern text was taken over unread. -/
  | adoptingPattern (pattern : String)
  /-- So many neighbouring raw components became one. -/
  | mergingRun (count : Nat)
  /-- A look-behind was refused around an expression without a bounded length. -/
  | rejectingLookBehind (expression : String)
  deriving DecidableEq, Repr

/-- How much an event matters. -/
inductive Level where
  | trace
  | debug
  deriving DecidableEq, Repr

/-- The name of the level in a log. -/
def Level.name : Level → String
  | trace => "TRACE"
  | debug => "DEBUG"

namespace Event

/-- A refusal is reported for debugging, routine work only when tracing. -/
def level : Event → Level
  | adoptingPattern _ => .trace
  | mergingRun _ => .trace
  | rejectingLookBehind _ => .debug

/-- The event in words. -/
def message : Event → String
  | adoptingPattern pattern => "adopting external pattern `" ++ pattern ++ "`"
  | mergingRun count => "merging " ++ toString count ++ " adjacent raw components"
  | rejectingLookBehind expression =>
    "rejecting look-behind around unbounded `" ++ expression ++ "`"

/-- The line of the event in a log. -/
def line (e : Event) : String := e.level.name ++ " " ++ e.message

end Event

/-- A value and the events of its computation, oldest first. -/
structure Logged (α : Type) where
  value : α
  events : List Event := []

namespace Logged

variable {α β : Type}

/-- Continues with the value; the events of the continuation come after those already logged. -/
def andThen (x : Logged α) (f : α → Logged β) : Logged β :=
  let y := f x.value
  ⟨y.value, x.events ++ y.events⟩

instance : Monad Logged where
  pure a := ⟨a, []⟩
  bind := andThen

/-- Logs one event. -/
def log (e : Event) : Logged Unit := ⟨(), [e]⟩

end Logged

end PatternAlgebra
