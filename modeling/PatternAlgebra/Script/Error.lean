import PatternAlgebra.Error
import PatternAlgebra.Machine
import PatternAlgebra.Node.Basic
/-!
# Why a step of a script fails

A script may ask for a construction that is refused, for a value that does not exist, or for a
use of a value that its type does not have.  A fault is listed with these as well, though nothing
comes after it.
-/

namespace PatternAlgebra.Script

/-- What a step can ask of a value beyond its conversions. -/
inductive Accessor where
  | nested
  | base
  | component
  | escaped
  deriving DecidableEq, Repr

/-- The name of the accessor. -/
def Accessor.name : Accessor → String
  | nested => "nested"
  | base => "base"
  | component => "component"
  | escaped => "escaped"

/-- Why a step fails. -/
inductive Failure where
  /-- A construction was refused. -/
  | build (e : BuildError)
  /-- A position or a range lies outside a rope. -/
  | outOfBounds (e : IndexError)
  /-- A value of the type `source` was used where `target` is needed. -/
  | notConvertible (source target : NodeType)
  /-- A value that is no place was asked for the expression in it. -/
  | notPlaced (source : NodeType)
  /-- A value was asked for something that its type does not have. -/
  | lacks (source : NodeType) (accessor : Accessor)
  /-- Two values of different types were compared. -/
  | incomparable (first second : NodeType)
  /-- A step without a value was referred to. -/
  | noValue (step : Nat)
  /-- A node does not have that many components. -/
  | noComponent (index : Nat)
  /-- An expression is not a raw node. -/
  | notRaw
  /-- A field of a step is missing or makes no sense. -/
  | malformed (field : String)
  /-- The machine could not take a step of the construction. -/
  | fault (f : Fault)
  deriving DecidableEq, Repr

namespace Failure

/-- The failure in words. -/
def message : Failure → String
  | build e => e.message
  | outOfBounds e => e.message
  | notConvertible source target => source.name ++ " is not " ++ target.name
  | notPlaced source => source.name ++ " is not a place"
  | lacks source accessor => source.name ++ " has no " ++ accessor.name
  | incomparable first second => first.name ++ " and " ++ second.name
  | noValue step => "step " ++ toString step ++ " has no value"
  | noComponent index => "no component " ++ toString index
  | notRaw => "not a raw node"
  | malformed field => field
  | fault f => f.message

end Failure

end PatternAlgebra.Script
