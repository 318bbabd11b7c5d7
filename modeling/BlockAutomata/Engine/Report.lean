/-
  What an engine tells about its work: reports, events and the standing of sections.
-/
import BlockAutomata.Action
import BlockAutomata.Coordinates

namespace BlockAutomata.Engine

/-- Where a section stands. -/
inductive Standing where
  /-- its owner has not loaded it -/
  | unloaded
  /-- no cell of it is tracked -/
  | loaded
  /-- some cell of it is tracked -/
  | active
  deriving DecidableEq, Repr

/-- An event, with the tick and the cell at which it was raised. -/
structure RaisedEvent where
  tick : Nat
  cell : Cell
  event : Event
  deriving DecidableEq, Repr

/-- The counts of one tick, or of one step of it. -/
structure Report where
  tick : Nat
  /-- engine steps counted -/
  steps : Nat
  /-- sections with a tracked cell when a step began to evaluate -/
  busySections : Nat
  /-- cells evaluated -/
  evaluated : Nat
  /-- actions applied, placements included -/
  applied : Nat
  /-- placements applied -/
  placements : Nat
  /-- applied actions that modified their cell -/
  modified : Nat
  /-- actions handed to the timing wheel -/
  scheduled : Nat
  /-- actions whose delay does not fit the timing wheel -/
  rejected : Nat
  /-- actions dropped because their section is gone or their guard fails -/
  stale : Nat
  /-- events raised -/
  events : Nat
  /-- sections whose changes were passed on -/
  flushed : Nat
  deriving DecidableEq, Repr, Inhabited

namespace Report

/-- Nothing has been counted. -/
def ofTick (tick : Nat) : Report := ⟨tick, 0, 0, 0, 0, 0, 0, 0, 0, 0, 0, 0⟩

/-- Add the counts of a step. -/
def add (r s : Report) : Report where
  tick := r.tick
  steps := r.steps + s.steps
  busySections := r.busySections + s.busySections
  evaluated := r.evaluated + s.evaluated
  applied := r.applied + s.applied
  placements := r.placements + s.placements
  modified := r.modified + s.modified
  scheduled := r.scheduled + s.scheduled
  rejected := r.rejected + s.rejected
  stale := r.stale + s.stale
  events := r.events + s.events
  flushed := r.flushed + s.flushed

/-- Whether any cell was modified. -/
def changed (r : Report) : Bool := decide (0 < r.modified)

end Report

end BlockAutomata.Engine
