/-
  Exchanging the rule of a running world.

  1. Channels are known by name.  Every channel of the new rule takes over the values of the old
     rule's channel of the same name, and is 0 where the old rule had none.  The block stays.

  2. Requests that wait are renumbered the same way: writes to channels that are gone are dropped,
     and so is a request whose guard asks about one of them.  Tasks of the timing wheel keep their
     remaining delay.

  3. Then every section is seeded for the new rule.  Cells that were tracked stay tracked.
-/
import BlockAutomata.Engine.World

namespace BlockAutomata.Engine

/-- For each slot of the new rule, the slot of the old rule with the same name. -/
def sourceSlots (old new : LocalRule) : List (Option Nat) :=
  some 0 :: new.names.map old.slot?

/-- The new slot of an old one.  If several new slots take over the old one, it is the last. -/
def newSlot? (sources : List (Option Nat)) (slot : Nat) : Option Nat :=
  (sources.zipIdx.reverse.find? fun e => e.1 == some slot).map Prod.snd

/-- Renumber the slots of an action; nothing remains of an action whose guard names a slot without
    a new number. -/
def renumberAction (slot? : Nat → Option Nat) (a : Action) : Option Action :=
  match a.guard with
  | none => some { a with writes := a.writes.renumber slot? }
  | some guard =>
    if guard.entries.all fun e => (slot? e.1).isSome then
      some { a with writes := a.writes.renumber slot?, guard := some (guard.renumber slot?) }
    else none

/-- Renumber the slots of a request. -/
def renumberRequest (slot? : Nat → Option Nat) (r : Request) : Option Request :=
  (renumberAction slot? r.action).map fun a => { r with action := a }

/-- Schedule tasks again with their remaining delays. -/
def reschedule (wheel : TimingWheel Request) :
    List (Nat × Request) → Except DelayTooLong (TimingWheel Request)
  | [] => .ok wheel
  | (delay, r) :: rest =>
    match wheel.schedule r delay with
    | .ok (_, wheel) => reschedule wheel rest
    | .error e => .error e

namespace World

/-- Exchange the rule. -/
def exchangeRule (w : World) (rule : LocalRule) : Except DelayTooLong World :=
  let sources := sourceSlots w.rule rule
  let slot? := newSlot? sources
  let (tasks, emptied) := w.wheel.drain
  let kept := tasks.filterMap fun t => (renumberRequest slot? t.2).map fun r => (t.1, r)
  (reschedule emptied kept).map fun wheel =>
    let w :=
      { w with
        rule := rule
        sections := w.sections.map fun _ s => s.relayout sources
        wheel := wheel
        placements := w.placements.filterMap (renumberRequest slot?) }
    w.sections.keys.foldl seed w

end World

end BlockAutomata.Engine
