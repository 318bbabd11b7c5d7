/-
  Steps and ticks.

  One step runs through these phases:

  1. the waiting placements are applied in order;
  2. every tracked cell is evaluated, section by section and in ascending order within each; all of
     them see the world as it is after the placements, and no cell is tracked any more;
  3. of the actions that the rule asked for, those with a delay go to the timing wheel, and those
     without are due;
  4. the timing wheel advances, and its tasks are due after the others;
  5. what is due is applied in order;
  6. the owner of the terrain gets the records of all changed blocks, one batch for each section in
     the order in which the sections first changed.

  Applying an action is the only way in which channels change, and every change of a block is passed
  on to the terrain at once.
-/
import BlockAutomata.ChangeRecord
import BlockAutomata.Engine.World

namespace BlockAutomata.Engine

/-- A step under way. -/
structure Turn where
  world : World
  /-- the records of changed blocks, by section -/
  changes : OrderedMap Section (Array Int64)
  report : Report

namespace Turn

/-- The beginning of a step. -/
def start (w : World) : Turn := ⟨w, OrderedMap.empty, { Report.ofTick w.tick with steps := 1 }⟩

/-! ## Applying an action -/

/-- Count an action that is dropped. -/
def countStale (t : Turn) : Turn :=
  { t with report := { t.report with stale := t.report.stale + 1 } }

/-- Pass a changed block on to the terrain, and record it. -/
def passOn (t : Turn) (p : Cell) (block : Int64) : Turn :=
  { t with
    world := { t.world with terrain := t.world.terrain.takeOver p block }
    changes := t.changes.upsert p.home #[] fun records =>
      records.push (ChangeRecord.encode p block) }

/-- Count an action that has been applied. -/
def countApplied (t : Turn) (modified : Bool) : Turn :=
  { t with
    report :=
      { t.report with
        modified := if modified then t.report.modified + 1 else t.report.modified
        applied := t.report.applied + 1 } }

/-- Raise an event at a cell. -/
def raise (t : Turn) (p : Cell) (e : Event) : Turn :=
  { t with
    world := { t.world with events := t.world.events.push ⟨t.world.tick, p, e⟩ }
    report := { t.report with events := t.report.events + 1 } }

/-- What follows from a write that was made: a change of block is passed on, events are raised, and
    cells are woken. -/
def follow (t : Turn) (r : Request) (w : Storage.Written) : Turn :=
  let t := if w.after ≠ w.before then t.passOn r.cell w.after else t
  let t := t.countApplied w.modified
  let t := r.action.events.foldl (fun t e => t.raise r.cell e) t
  { t with world := t.world.wake r.cell r.action.wake }

/-- Apply an action; the answer says whether it was applied.  It is dropped when its section has no
    storage or its guard does not hold. -/
def apply (t : Turn) (r : Request) : Bool × Turn :=
  let (result, sections) :=
    t.world.sections.modifyGet r.cell.home fun s => s.perform r.cell.index r.action
  let t := { t with world := { t.world with sections := sections } }
  match result with
  | some (some written) => (true, t.follow r written)
  | _ => (false, t.countStale)

/-! ## Phases -/

/-- Apply a placement.  Its section gets storage first. -/
def applyPlacement (t : Turn) (r : Request) : Turn :=
  let t := { t with world := t.world.provide r.cell.home }
  let (applied, t) := t.apply r
  if applied then { t with report := { t.report with placements := t.report.placements + 1 } }
  else t

/-- Apply the waiting placements. -/
def applyPlacements (t : Turn) : Turn :=
  let waiting := t.world.placements
  waiting.foldl applyPlacement { t with world := { t.world with placements := [] } }

/-- The tracked cells, section by section. -/
def cellsToEvaluate (w : World) : List Cell :=
  w.sections.entries.flatMap fun e => e.2.tracked.toList.map e.1.cell

/-- What the rule asks for at a cell. -/
def evaluate (w : World) (p : Cell) : List Request :=
  (w.rule.outcome (w.viewAt p)).actions.map fun a => ⟨p, a⟩

/-- Evaluate the tracked cells and stop tracking them. -/
def evaluateTracked (t : Turn) : List Request × Turn :=
  let cells := cellsToEvaluate t.world
  let busy := t.world.sections.entries.countP fun e => !e.2.tracked.isEmpty
  let asked := cells.flatMap (evaluate t.world)
  (asked,
    { t with
      world := { t.world with sections := t.world.sections.map fun _ s => s.untrackAll }
      report :=
        { t.report with
          busySections := t.report.busySections + busy
          evaluated := t.report.evaluated + cells.length } })

/-- Hand an action with a delay to the timing wheel; one whose delay does not fit is rejected. -/
def schedule (t : Turn) (r : Request) : Turn :=
  match t.world.wheel.schedule ⟨r.cell, r.action.undelayed⟩ r.action.delay with
  | .ok (_, wheel) =>
    { t with
      world := { t.world with wheel := wheel }
      report := { t.report with scheduled := t.report.scheduled + 1 } }
  | .error _ => { t with report := { t.report with rejected := t.report.rejected + 1 } }

/-- The actions without delay, and the turn after scheduling the others. -/
def dispatch (t : Turn) (asked : List Request) : List Request × Turn :=
  (asked.filter fun r => !r.action.waits,
    (asked.filter fun r => r.action.waits).foldl schedule t)

/-- The tasks of the timing wheel that are due now. -/
def advance (t : Turn) : List Request × Turn :=
  let (fired, wheel) := t.world.wheel.advance
  (fired, { t with world := { t.world with wheel := wheel } })

/-- Apply what is due. -/
def applyAll (t : Turn) (due : List Request) : Turn := due.foldl (fun t r => (t.apply r).2) t

/-- Pass the batches of records on. -/
def flush (t : Turn) : World × Report :=
  let terrain := t.changes.entries.foldl (fun terrain e => terrain.receive e.1 e.2.toList)
    t.world.terrain
  ({ t.world with terrain := terrain },
    { t.report with flushed := t.report.flushed + t.changes.size })

end Turn

namespace World

/-- One step. -/
def step (w : World) : World × Report :=
  let t := (Turn.start w).applyPlacements
  let (asked, t) := t.evaluateTracked
  let (now, t) := t.dispatch asked
  let (fired, t) := t.advance
  (t.applyAll (now ++ fired)).flush

/-- Several steps; their counts are added to a report. -/
def steps : Nat → World × Report → World × Report
  | 0, acc => acc
  | n + 1, (w, report) =>
    let (w, s) := w.step
    steps n (w, report.add s)

/-- The last `n` elements. -/
def lastOf {α : Type} (n : Nat) (l : List α) : List α := l.drop (l.length - n)

/-- One tick. -/
def runTick (w : World) : World × Report :=
  let (w, report) := steps w.config.stepsPerTick (w, Report.ofTick w.tick)
  ({ w with
      history := lastOf w.config.historyLength (w.history ++ [report])
      tick := w.tick + 1 },
    report)

/-- A number of ticks. -/
def ticks : Nat → World → World × List Report
  | 0, w => (w, [])
  | n + 1, w =>
    let (w, report) := w.runTick
    let (w, reports) := ticks n w
    (w, report :: reports)

/-- Ticks until the world is at rest, but no more than `n`. -/
def ticksUntilRest : Nat → World → World × List Report
  | 0, w => (w, [])
  | n + 1, w =>
    let (w, report) := w.runTick
    if w.atRest then (w, [report])
    else
      let (w, reports) := ticksUntilRest n w
      (w, report :: reports)

end World

end BlockAutomata.Engine
