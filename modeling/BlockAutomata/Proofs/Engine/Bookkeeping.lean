/-
  The books balance.

  1. An action comes into an engine as a placement or out of the rule.  From then on it waits to be
     placed, waits on the wheel, or has come to an end: it was applied, or it was stale, or its
     delay did not fit.  The reports count the ends (`Report.ended`).

  2. Each phase of a step moves actions on and loses none: every request that is applied comes to an
     end, every request with a delay goes to the wheel or comes to an end, and what the wheel fires
     is applied (`ended_step`).

  3. A tick adds the reports of its steps, and a run has the reports of its ticks, so the balance of
     a step carries over to any run (`placed_add_emitted_eq_ended`).
-/
import BlockAutomata.Proofs.Engine.Deferral
import Mathlib.Algebra.GroupWithZero.Nat

namespace BlockAutomata.Engine

/-- The actions that have come to an end. -/
def Report.ended (r : Report) : Nat := r.applied + r.stale + r.rejected

theorem Report.ended_add (r s : Report) : (r.add s).ended = r.ended + s.ended := by
  show r.applied + s.applied + (r.stale + s.stale) + (r.rejected + s.rejected) = _
  simp only [ended]
  omega

namespace Turn

variable (t : Turn)

/-! ## Phases -/

/-- A request is applied or stale. -/
theorem ended_apply (r : Request) : (t.apply r).2.report.ended = t.report.ended + 1 := by
  rw [report_apply]
  split
  · show t.report.applied + 1 + t.report.stale + t.report.rejected = _
    rw [Report.ended]
    omega
  · show t.report.applied + (t.report.stale + 1) + t.report.rejected = _
    rw [Report.ended]
    omega

theorem ended_applyAll (due : List Request) :
    (t.applyAll due).report.ended = t.report.ended + due.length := by
  induction due generalizing t with
  | nil => rfl
  | cons r rest ih =>
    show ((t.apply r).2.applyAll rest).report.ended = _
    rw [ih, ended_apply, List.length_cons]
    omega

theorem ended_applyPlacement (r : Request) :
    (t.applyPlacement r).report.ended = t.report.ended + 1 := by
  rw [applyPlacement_eq]
  have h := (t.provided r).ended_apply r
  split <;> exact h

theorem ended_foldl_applyPlacement (waiting : List Request) :
    (waiting.foldl applyPlacement t).report.ended = t.report.ended + waiting.length := by
  induction waiting generalizing t with
  | nil => rfl
  | cons r rest ih =>
    rw [List.foldl_cons, ih, ended_applyPlacement, List.length_cons]
    omega

/-- A request with a delay goes to the wheel, or is rejected. -/
theorem ended_schedule (r : Request) :
    (t.schedule r).report.ended + (t.schedule r).world.wheel.taskCount =
        t.report.ended + t.world.wheel.taskCount + 1 ∧
      (t.schedule r).world.wheel.taskCount + t.report.scheduled =
        t.world.wheel.taskCount + (t.schedule r).report.scheduled := by
  unfold schedule
  split
  · rename_i ticket wheel hw
    have hcount := TimingWheel.taskCount_schedule hw
    show t.report.ended + wheel.taskCount = _ ∧ wheel.taskCount + _ = _ + (_ + 1)
    omega
  · show t.report.applied + t.report.stale + (t.report.rejected + 1) + t.world.wheel.taskCount = _ ∧
      t.world.wheel.taskCount + t.report.scheduled = t.world.wheel.taskCount + t.report.scheduled
    rw [Report.ended]
    omega

theorem ended_foldl_schedule (l : List Request) :
    (l.foldl schedule t).report.ended + (l.foldl schedule t).world.wheel.taskCount =
        t.report.ended + t.world.wheel.taskCount + l.length ∧
      (l.foldl schedule t).world.wheel.taskCount + t.report.scheduled =
        t.world.wheel.taskCount + (l.foldl schedule t).report.scheduled := by
  induction l generalizing t with
  | nil => exact ⟨rfl, rfl⟩
  | cons r rest ih =>
    obtain ⟨hended, hscheduled⟩ := t.ended_schedule r
    obtain ⟨hended', hscheduled'⟩ := ih (t.schedule r)
    rw [List.foldl_cons, List.length_cons]
    omega

end Turn

namespace World

/-! ## A step -/

section

variable (w : World)

/-- The number of actions that the rule asks for in the step, over all cells that are evaluated. -/
def emitted : Nat :=
  ((Turn.cellsToEvaluate w.placed.world).map fun p =>
    (w.rule.outcome (w.placed.world.viewAt p)).length).sum

theorem length_asked : w.asked.length = w.emitted := by
  have hrule : w.placed.world.rule = w.rule := by rw [placed_frame]
  show (List.flatMap (Turn.evaluate w.placed.world) _).length = _
  rw [List.length_flatMap, emitted]
  congr 2
  funext p
  rw [Turn.evaluate, List.length_map, hrule]
  rfl

theorem ended_placed : w.placed.report.ended = w.placements.length :=
  (w.opening.ended_foldl_applyPlacement w.placements).trans (Nat.zero_add _)

/-- What is asked for is due now, or waits. -/
theorem length_immediate :
    w.immediate.length + (w.asked.filter fun r => r.action.waits).length = w.asked.length := by
  have hsplit := List.length_eq_countP_add_countP (l := w.asked) fun r => r.action.waits
  simp only [decide_not, Bool.decide_eq_true] at hsplit
  rw [immediate, ← List.countP_eq_length_filter, ← List.countP_eq_length_filter, Nat.add_comm,
    hsplit]

theorem ended_flush (t : Turn) : t.flush.2.ended = t.report.ended := rfl

/-- What waited to be placed, what the rule asked for and what waited on the wheel has come to an
    end or waits on the wheel. -/
theorem ended_step :
    w.placements.length + w.emitted + w.wheel.taskCount =
        w.step.2.ended + w.step.1.wheel.taskCount ∧
      w.step.1.wheel.taskCount + w.fired.length = w.wheel.taskCount + w.step.2.scheduled := by
  have hwheel : w.placed.evaluateTracked.2.world.wheel = w.wheel := w.wheel_placed
  -- through the phases: placing and evaluating, then scheduling, then applying
  have hdispatch : (w.asked.filter fun r => r.action.waits).foldl Turn.schedule
      w.placed.evaluateTracked.2 = w.scheduled := rfl
  obtain ⟨hended, hscheduled⟩ := w.placed.evaluateTracked.2.ended_foldl_schedule
    (w.asked.filter fun r => r.action.waits)
  have hplaced : w.placed.evaluateTracked.2.report.ended = w.placements.length :=
    w.ended_placed
  have hnone : w.placed.evaluateTracked.2.report.scheduled = 0 := by
    show w.placed.report.scheduled = 0
    rw [report_placed_frame]
    rfl
  rw [hdispatch, hwheel, hplaced] at hended
  rw [hdispatch, hwheel, hnone] at hscheduled
  have hfired : w.step.1.wheel.taskCount + w.fired.length = w.scheduled.world.wheel.taskCount := by
    rw [wheel_step]
    exact w.scheduled.world.wheel.taskCount_advance
  have hdone : w.step.2.ended =
      w.scheduled.report.ended + w.immediate.length + w.fired.length := by
    rw [step_eq, ended_flush, Turn.ended_applyAll, Turn.ended_applyAll]
    rfl
  have hreport : w.step.2.scheduled = w.scheduled.report.scheduled := by
    rw [step_eq, report_flush, Turn.report_applyAll_frame, Turn.report_applyAll_frame]
    rfl
  have hasked := w.length_immediate
  rw [length_asked] at hasked
  omega

end

/-! ## A tick -/

/-- In a tick those come to an end that do in its steps. -/
theorem ended_steps (n : Nat) (w : World) (report : Report) :
    w.placements.length + ((stepStarts n w).map emitted).sum + w.wheel.taskCount + report.ended =
      (steps n (w, report)).2.ended + (stepped n w).placements.length +
        (stepped n w).wheel.taskCount := by
  induction n generalizing w report with
  | zero =>
    show w.placements.length + 0 + w.wheel.taskCount + report.ended = report.ended + _ + _
    rw [stepped]
    omega
  | succ n ih =>
    have hfirst := w.ended_step.1
    -- no placements are left for the steps after the first
    have hrest := ih w.step.1 (report.add w.step.2)
    rw [placements_step, Report.ended_add] at hrest
    rw [stepStarts, List.map_cons, List.sum_cons]
    show _ = (steps n (w.step.1, report.add w.step.2)).2.ended +
      (stepped n w.step.1).placements.length + (stepped n w.step.1).wheel.taskCount
    rw [← hrest, List.length_nil]
    omega

/-! ## A run -/

/-- The reports of the ticks of a run. -/
def reportsAlong : World → List Command → List Report
  | _, [] => []
  | w, .tick :: rest => w.runTick.2 :: reportsAlong (w.obey .tick) rest
  | w, c :: rest => reportsAlong (w.obey c) rest

/-- How many placements are made in a run. -/
def placesAlong (run : List Command) : Nat :=
  run.countP fun c => match c with
    | .place _ _ => true
    | _ => false

/-- What came in has come to an end, or waits. -/
theorem ended_after (w : World) (run : List Command) :
    w.placements.length + w.wheel.taskCount + placesAlong run +
        ((w.stepsAlong run).map emitted).sum =
      ((w.reportsAlong run).map Report.ended).sum + (w.after run).placements.length +
        (w.after run).wheel.taskCount := by
  induction run generalizing w with
  | nil =>
    show w.placements.length + w.wheel.taskCount + 0 + 0 =
      0 + w.placements.length + w.wheel.taskCount
    omega
  | cons c rest ih =>
    have hrest := ih (w.obey c)
    cases c with
    | tick =>
      have htick := ended_steps w.config.stepsPerTick w (Report.ofTick w.tick)
      have hzero : (Report.ofTick w.tick).ended = 0 := rfl
      rw [show (w.obey .tick).placements = _ from w.placements_runTick,
        show (w.obey .tick).wheel = _ from w.wheel_runTick] at hrest
      rw [stepsAlong, List.map_append, List.sum_append, reportsAlong, List.map_cons, List.sum_cons]
      show _ + placesAlong rest + _ = w.runTick.2.ended + _ +
        ((w.obey .tick).after rest).placements.length + ((w.obey .tick).after rest).wheel.taskCount
      have hreport : w.runTick.2 =
        (steps w.config.stepsPerTick (w, Report.ofTick w.tick)).2 := rfl
      rw [hreport]
      omega
    | place p channels =>
      have hplaced : (w.obey (.place p channels)).placements.length = w.placements.length + 1 :=
        List.length_append
      have hcount : placesAlong (.place p channels :: rest) = placesAlong rest + 1 :=
        List.countP_cons_of_pos rfl
      rw [hplaced, show (w.obey (.place p channels)).wheel = w.wheel from rfl] at hrest
      rw [hcount]
      show _ + _ + _ + (((w.obey (.place p channels)).stepsAlong rest).map emitted).sum =
        (((w.obey (.place p channels)).reportsAlong rest).map Report.ended).sum +
          ((w.obey (.place p channels)).after rest).placements.length +
          ((w.obey (.place p channels)).after rest).wheel.taskCount
      omega
    | load s =>
      rw [show (w.obey (.load s)).placements = _ from congrArg placements (w.sectionLoaded_eq s),
        show (w.obey (.load s)).wheel = _ from congrArg wheel (w.sectionLoaded_eq s)] at hrest
      exact hrest
    | unload s => exact hrest
    | takeEvents => exact hrest
    | reshape terrain => exact hrest

/-- No action is lost or counted twice.  What has ever been placed or asked for by the rule is
    reported as applied, stale or rejected, or still waits to be placed, or waits on the wheel; and
    in each step the wheel gains what is reported as scheduled and loses what fires. -/
theorem placed_add_emitted_eq_ended {terrain : Terrain} {rule : LocalRule} {config : Config}
    {w : World}
    (hw : ofTerrain terrain rule config = .ok w ∨ ofLoaded terrain rule config = .ok w)
    (run : List Command) :
    placesAlong run + ((w.stepsAlong run).map emitted).sum =
        ((w.reportsAlong run).map fun r => r.applied + r.stale + r.rejected).sum +
          (w.after run).placements.length + (w.after run).wheel.taskCount ∧
      ∀ u ∈ w.stepsAlong run,
        u.step.1.wheel.taskCount + u.fired.length = u.wheel.taskCount + u.step.2.scheduled := by
  have hnew := (eq_of_new hw).1
  have hplacements : w.placements.length = 0 := by rw [hnew]; rfl
  have hwheel : w.wheel.taskCount = 0 := by
    rw [hnew, TimingWheel.taskCount_eq_zero_iff]
    exact fun d _ => TimingWheel.pending_ofSize _ d
  have hall := w.ended_after run
  rw [hplacements, hwheel, Nat.zero_add] at hall
  exact ⟨hall, fun u _ => u.ended_step.2⟩

/-- A block is placed and asks to be another one after a step. -/
theorem placed_add_emitted_eq_ended_late :
    ∃ w, ofTerrain Terrain.empty lateRule Config.fast = .ok w ∧
      1 + ((w.stepsAlong lateRun).map emitted).sum =
        ((w.reportsAlong lateRun).map fun r => r.applied + r.stale + r.rejected).sum +
          (w.after lateRun).placements.length + (w.after lateRun).wheel.taskCount := by
  obtain ⟨w, hw⟩ : ∃ w, ofTerrain Terrain.empty lateRule Config.fast = .ok w := ⟨_, rfl⟩
  exact ⟨w, hw, (placed_add_emitted_eq_ended (.inl hw) lateRun).1⟩

end World

end BlockAutomata.Engine
