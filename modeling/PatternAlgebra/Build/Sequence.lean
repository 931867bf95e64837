import PatternAlgebra.Expr.Placement
import PatternAlgebra.Event
/-!
# Building sequences

Sequences stay flat and short.  Nested sequences are opened into their components, and raw
neighbours, that is literals, single characters and raw nodes, are merged into one compound.

The items are taken in from left to right.  A raw item is held back, because more may follow; any
other item first releases what is held.  A run of one is released as it is, and a longer run is
released as one compound, which is reported with the length of the run.
-/

namespace PatternAlgebra

/-- Whether the node can be merged with its neighbours. -/
def Expr.isRawLike : Expr → Bool
  | .literal _ => true
  | .charLiteral _ => true
  | .raw _ => true
  | _ => false

/-- A sequence under construction. -/
structure Assembly where
  /-- The components that are settled. -/
  components : Array Expr := #[]
  /-- The raw items held back, all of them to the right of the settled components. -/
  run : Array Expr := #[]
  /-- The merges so far. -/
  events : Array Event := #[]

namespace Assembly

/-- The compound of a run of raw items. -/
def merged (run : List Expr) : Expr := .raw (.compound (.ofParts (run.filterMap Expr.asRaw?)))

/-- Settles the run. -/
def release (a : Assembly) : Assembly :=
  match a.run.toList with
  | [] => a
  | [item] => { a with components := a.components.push item, run := #[] }
  | run =>
    { components := a.components.push (merged run)
      run := #[]
      events := a.events.push (.mergingRun run.length) }

/-- Settles the run and then an item that is not raw. -/
def settle (a : Assembly) (item : Expr) : Assembly :=
  let b := a.release
  { b with components := b.components.push item }

/-- Adds a raw item to the run. -/
def hold (a : Assembly) (item : Expr) : Assembly := { a with run := a.run.push item }

mutual

/-- Takes in one more item. -/
def push (a : Assembly) : Expr → Assembly
  | .sequence components _ => pushAll a components
  | item => if item.isRawLike then a.hold item else a.settle item

/-- Takes in more items. -/
def pushAll (a : Assembly) : List Expr → Assembly
  | [] => a
  | item :: items => pushAll (push a item) items

end

end Assembly

namespace Sequence

/-- A sequence with these components as they are. -/
def ofComponents (components : List Expr) : Sequence where
  components := components
  profile := .concatenation (components.map Expr.profile)

/-- The sequence of some items, in normal form. -/
def ofItems (items : List Sequenceable) : Logged Sequence :=
  let a := (Assembly.pushAll {} (items.map Sequenceable.expr)).release
  ⟨ofComponents a.components.toList, a.events.toList⟩

/-- The sequence of two items. -/
def pair (first second : Sequenceable) : Logged Sequence := ofItems [first, second]

/-- The sequence of two or more items. -/
def chain (first second : Sequenceable) (rest : List Sequenceable) : Logged Sequence :=
  ofItems (first :: second :: rest)

/-- The sequence of any number of items, if there are at least two. -/
def ofList (items : List Sequenceable) : Logged (Except BuildError Sequence) :=
  if items.length < 2 then pure (.error (.tooFewOperands 2 items.length))
  else .ok <$> ofItems items

end Sequence

end PatternAlgebra
