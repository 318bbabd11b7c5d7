/-
  Actions: what a rule asks to be done to its cell.

  An action is data.  It names new values for some channels, perhaps after resetting all of them;
  the neighbours to look at again once it has been applied; a guard that must still hold when it is
  applied; how long to wait; and events to raise with it.  Whether and when it is applied is for the
  engine to decide.
-/
import BlockAutomata.SlotMap
import BlockAutomata.Neighborhood

namespace BlockAutomata

/-- A named notification that a rule raises. -/
structure Event where
  name : String
  value : Option Int64
  deriving DecidableEq, Repr, Inhabited

/-- A requested change of one cell. -/
structure Action where
  /-- the channels to write -/
  writes : SlotMap
  /-- whether every channel is reset to zero before writing -/
  reset : Bool
  /-- where cells are to be evaluated again once the action is applied -/
  wake : List Offset
  /-- the channel values that must still hold when the action is applied -/
  guard : Option SlotMap
  /-- steps to wait; none means in this step -/
  delay : Nat
  /-- the events raised along with the change -/
  events : List Event
  deriving DecidableEq, Repr, Inhabited

namespace Action

/-- Write the channels in this step and wake the cube around the cell. -/
def write (writes : SlotMap) : Action where
  writes := writes
  reset := false
  wake := Neighborhood.moore3dSelf
  guard := none
  delay := 0
  events := []

/-- Write the channels after `delay` steps. -/
def writeAfter (delay : Nat) (writes : SlotMap) : Action :=
  { write writes with delay := delay }

/-- Write the channels after `delay` steps if the guard then holds. -/
def guardedWrite (delay : Nat) (guard writes : SlotMap) : Action :=
  { writeAfter delay writes with guard := some guard }

/-- Raise events; write nothing and wake nobody. -/
def announce (events : List Event) : Action :=
  { write SlotMap.empty with wake := [], events := events }

/-- The same action without its delay. -/
def undelayed (a : Action) : Action := { a with delay := 0 }

/-- Whether the action waits. -/
def waits (a : Action) : Bool := decide (0 < a.delay)

/-- Whether the guard holds when slots have the given values. -/
def guardHolds (a : Action) (current : Nat → Int64) : Bool :=
  match a.guard with
  | none => true
  | some guard => guard.entries.all fun e => current e.1 == e.2

end Action

/-! ## Outcomes

  What a rule answers for one cell.  `one a` and `many [a]` carry the same actions but are
  different answers. -/

/-- The answer of a rule: nothing, one action, or a list of them. -/
inductive Outcome where
  | idle
  | one (action : Action)
  | many (actions : List Action)
  deriving DecidableEq, Repr, Inhabited

namespace Outcome

/-- The actions in order. -/
def actions : Outcome → List Action
  | idle => []
  | one a => [a]
  | many as => as

/-- Number of actions. -/
def length (o : Outcome) : Nat := o.actions.length

/-- Whether the outcome carries no action. -/
def isEmpty (o : Outcome) : Bool := o.actions.isEmpty

/-- At most one action. -/
def ofOption : Option Action → Outcome
  | none => idle
  | some a => one a

/-- The actions of one outcome, then those of the other. -/
def append : Outcome → Outcome → Outcome
  | idle, other => other
  | this, idle => this
  | one a, one b => many [a, b]
  | one a, many bs => many (a :: bs)
  | many as, one b => many (as ++ [b])
  | many as, many bs => many (as ++ bs)

instance : Append Outcome := ⟨append⟩

@[simp] theorem actions_append (a b : Outcome) : (a ++ b).actions = a.actions ++ b.actions := by
  show (append a b).actions = _
  cases a <;> cases b <;> simp [append, actions]

end Outcome

end BlockAutomata
