/-
  A world at rest.

  1. The engine is at rest when three numbers are 0: those of the waiting tasks, of the waiting
     placements and of the tracked cells.  The wheel counts its tasks along, and so does every set
     of tracked cells with its members; that these counts are right is part of what a wheel and a
     set of cells are.  So no bucket has a task (`TimingWheel.isEmpty_iff`) and no set of tracked
     cells has a member (`eq_empty_of_trackedCount_eq_zero`).

  2. A step of such a world has nothing to place, to evaluate, to fire or to pass on.  All it does
     is to move the cursor of the wheel (`step_of_atRest`), and the wheel stays empty.  Steps and
     ticks follow by induction (`steps_of_atRest`, `ticks_of_atRest`).

  3. Running until the world is at rest is the beginning of running for all of the ticks
     (`ticks_eq_ticksUntilRest`).  What is left of the ticks begins at rest, or there are none left.
-/
import BlockAutomata.Proofs.Engine.Tracking

namespace BlockAutomata.Engine

/-! ## Nothing to do -/

/-- A wheel without tasks has none after an advance, which fires nothing. -/
theorem TimingWheel.isEmpty_advance {α : Type} {t : TimingWheel α} (h : t.isEmpty = true) :
    t.advance.1 = [] ∧ t.advance.2.isEmpty = true := by
  rw [isEmpty_iff] at h
  refine ⟨t.advance_fst.trans (h 0 t.size_pos), (isEmpty_iff _).2 fun d hd => ?_⟩
  rw [size_advance] at hd
  rw [pending_advance t hd]
  split
  · rfl
  · exact h (d + 1) (by omega)

/-- A wheel without tasks has none to be drained. -/
theorem TimingWheel.drain_of_isEmpty {α : Type} {t : TimingWheel α} (h : t.isEmpty = true) :
    t.drain.1 = [] := by
  rw [isEmpty_iff] at h
  rw [drain_fst]
  refine List.flatMap_eq_nil_iff.2 fun d hd => ?_
  rw [h d (List.mem_range.1 hd), List.map_nil]

variable {w : World}

namespace World

theorem atRest_iff : w.atRest = true ↔
    w.wheel.isEmpty = true ∧ w.placements = [] ∧ w.trackedCount = 0 := by
  rw [atRest, Bool.and_eq_true, Bool.and_eq_true, List.isEmpty_iff, beq_iff_eq, and_assoc]

theorem eq_empty_of_trackedCount_eq_zero (h : w.trackedCount = 0) :
    ∀ e ∈ w.sections.entries, e.2.tracked = CellSet.empty := by
  intro e he
  have hsum : (w.sections.values.map fun s => s.tracked.size).sum = 0 := by
    rw [List.sum, List.foldr_map]
    exact h
  have hsize := List.sum_eq_zero_iff_forall_eq_nat.1 hsum e.2.tracked.size
    (List.mem_map_of_mem (List.mem_map_of_mem he))
  exact CellSet.eq_empty_of_size_eq_zero hsize

theorem cellsToEvaluate_of_trackedCount_eq_zero (h : w.trackedCount = 0) :
    Turn.cellsToEvaluate w = [] := by
  rw [← List.length_eq_zero_iff, ← trackedCount_eq_length, h]

/-- In a world whose tracked cells lie where they belong, the count is 0 when no cell is tracked. -/
theorem TrackedInPlace.trackedCount_eq_zero_iff (h : w.TrackedInPlace) :
    w.trackedCount = 0 ↔ ∀ p, w.tracks p = false := by
  rw [trackedCount_eq_length, List.length_eq_zero_iff, List.eq_nil_iff_forall_not_mem]
  refine forall_congr' fun p => ?_
  rw [mem_cellsToEvaluate h, Bool.not_eq_true]

/-- Where nothing is tracked, there is nothing to stop tracking. -/
theorem untrackAll_of_trackedCount_eq_zero (h : w.trackedCount = 0) :
    (w.sections.map fun _ s => s.untrackAll) = w.sections := by
  refine OrderedMap.map_eq_self fun e he => ?_
  rw [Storage.untrackAll, ← eq_empty_of_trackedCount_eq_zero h e he]

end World

/-- Where nothing is tracked, nothing is evaluated. -/
theorem Turn.evaluateTracked_of_trackedCount_eq_zero {t : Turn} (h : t.world.trackedCount = 0) :
    t.evaluateTracked = ([], t) := by
  have hbusy : (t.world.sections.entries.countP fun e => !e.2.tracked.isEmpty) = 0 := by
    refine List.countP_eq_zero.2 fun e he => ?_
    rw [World.eq_empty_of_trackedCount_eq_zero h e he]
    simp [CellSet.isEmpty_iff, CellSet.contains_empty]
  simp only [evaluateTracked, World.cellsToEvaluate_of_trackedCount_eq_zero h, hbusy,
    World.untrackAll_of_trackedCount_eq_zero h]
  rfl

namespace World

/-! ## One step -/

/-- A step of a world at rest moves the cursor of the wheel, and that is all. -/
theorem step_of_atRest (h : w.atRest = true) :
    w.step =
      ({ w with wheel := w.wheel.advance.2 }, { Report.ofTick w.tick with steps := 1 }) := by
  obtain ⟨hwheel, hplacements, hcount⟩ := atRest_iff.1 h
  have hplaced : w.placed = Turn.start w := by
    obtain ⟨_, _, _, _, _, placements, _, _, _⟩ := w
    obtain rfl : placements = [] := hplacements
    rfl
  have hevaluate : w.placed.evaluateTracked = ([], Turn.start w) := by
    rw [hplaced]
    exact Turn.evaluateTracked_of_trackedCount_eq_zero hcount
  have hasked : w.asked = [] := congrArg Prod.fst hevaluate
  have hfired : w.fired = [] := by
    rw [fired_eq, ← TimingWheel.advance_fst]
    exact (TimingWheel.isEmpty_advance hwheel).1
  have hscheduled : w.scheduled = Turn.start w := by
    rw [scheduled, hasked]
    exact congrArg Prod.snd hevaluate
  rw [step_eq_flush, done, immediate, hasked, hfired, ready, hscheduled]
  rfl

/-- It stays at rest. -/
theorem atRest_step (h : w.atRest = true) : w.step.1.atRest = true := by
  obtain ⟨hwheel, hplacements, hcount⟩ := atRest_iff.1 h
  rw [step_of_atRest h, atRest_iff]
  exact ⟨(TimingWheel.isEmpty_advance hwheel).2, hplacements, hcount⟩

/-! ## Many steps -/

/-- Steps of a world at rest move the cursor of the wheel, and are counted. -/
theorem steps_of_atRest (h : w.atRest = true) (n : Nat) (report : Report) :
    (steps n (w, report)).1 = { w with wheel := (steps n (w, report)).1.wheel } ∧
      (steps n (w, report)).1.atRest = true ∧
      (steps n (w, report)).2 = { report with steps := report.steps + n } := by
  induction n generalizing w report with
  | zero => exact ⟨rfl, h, rfl⟩
  | succ n ih =>
    have hrest := atRest_step h
    have hstep := step_of_atRest h
    obtain ⟨hworld, hstays, hreport⟩ := ih hrest (report.add w.step.2)
    have hunfold : steps (n + 1) (w, report) = steps n (w.step.1, report.add w.step.2) := rfl
    rw [hunfold]
    refine ⟨?_, hstays, ?_⟩
    · rw [hworld, hstep]
    · rw [hreport, hstep]
      simp [Report.add, Report.ofTick, Nat.add_assoc, Nat.add_comm 1]

/-- What is reported of the tick that begins so many ticks from now, if nothing happens in it. -/
def quietReport (w : World) (later : Nat) : Report :=
  { Report.ofTick (w.tick + later) with steps := w.config.stepsPerTick }

/-- A tick of a world at rest moves the time on. -/
theorem runTick_of_atRest (h : w.atRest = true) :
    w.runTick.1 =
        { w with
          wheel := w.runTick.1.wheel
          history := w.runTick.1.history
          tick := w.tick + 1 } ∧
      w.runTick.1.atRest = true ∧ w.runTick.2 = w.quietReport 0 := by
  obtain ⟨hworld, hstays, hreport⟩ :=
    steps_of_atRest h w.config.stepsPerTick (Report.ofTick w.tick)
  refine ⟨?_, hstays, ?_⟩
  · rw [runTick_fst, ← steps_fst w.config.stepsPerTick (w, Report.ofTick w.tick), hworld]
  · refine hreport.trans ?_
    simp [quietReport, Report.ofTick]

/-- Ticks of a world at rest move the time on. -/
theorem ticks_of_atRest (h : w.atRest = true) (n : Nat) :
    (ticks n w).1 =
        { w with
          wheel := (ticks n w).1.wheel
          history := (ticks n w).1.history
          tick := w.tick + n } ∧
      (ticks n w).1.atRest = true ∧ (ticks n w).2 = (List.range n).map w.quietReport := by
  induction n generalizing w with
  | zero => exact ⟨rfl, h, rfl⟩
  | succ n ih =>
    obtain ⟨hworld, hstays, hreport⟩ := runTick_of_atRest h
    obtain ⟨hworld', hstays', hreports⟩ := ih hstays
    have hunfold : ticks (n + 1) w =
        ((ticks n w.runTick.1).1, w.runTick.2 :: (ticks n w.runTick.1).2) := rfl
    have hlater : ∀ i, w.runTick.1.quietReport i = w.quietReport (i + 1) := by
      intro i
      rw [hworld, quietReport, quietReport]
      simp only [Nat.add_assoc, Nat.add_comm 1]
    rw [hunfold]
    refine ⟨?_, hstays', ?_⟩
    · rw [hworld', hworld, Nat.add_assoc, Nat.add_comm 1]
    · rw [hreports, hreport, List.range_succ_eq_map, List.map_cons, List.map_map]
      exact congrArg _ (List.map_congr_left fun i _ => hlater i)

/-! ## Running until nothing is left to do -/

/-- Running for a number of ticks begins with running until the world is at rest.  When this took
    fewer ticks, the others begin at rest. -/
theorem ticks_eq_ticksUntilRest (n : Nat) (w : World) :
    ∃ rest, (ticksUntilRest n w).2.length + rest = n ∧
      (rest ≠ 0 → (ticksUntilRest n w).1.atRest = true) ∧
      (ticks n w).1 = (ticks rest (ticksUntilRest n w).1).1 ∧
      (ticks n w).2 = (ticksUntilRest n w).2 ++ (ticks rest (ticksUntilRest n w).1).2 := by
  induction n generalizing w with
  | zero => exact ⟨0, rfl, fun h => absurd rfl h, rfl, rfl⟩
  | succ n ih =>
    have hticks : ticks (n + 1) w =
        ((ticks n w.runTick.1).1, w.runTick.2 :: (ticks n w.runTick.1).2) := rfl
    cases hrest : w.runTick.1.atRest with
    | true =>
      have huntil : ticksUntilRest (n + 1) w = (w.runTick.1, [w.runTick.2]) := if_pos hrest
      rw [huntil, hticks]
      exact ⟨n, Nat.add_comm 1 n, fun _ => hrest, rfl, rfl⟩
    | false =>
      have huntil : ticksUntilRest (n + 1) w =
          ((ticksUntilRest n w.runTick.1).1,
            w.runTick.2 :: (ticksUntilRest n w.runTick.1).2) :=
        if_neg (Bool.eq_false_iff.1 hrest)
      obtain ⟨rest, hlength, hstays, hworld, hreports⟩ := ih w.runTick.1
      rw [huntil, hticks]
      refine ⟨rest, ?_, hstays, hworld, ?_⟩
      · rw [List.length_cons]
        omega
      · rw [hreports, List.cons_append]

/-- A world at rest is one in which nothing waits and nothing is tracked.  Ticks leave it as it is
    but for the time, the position of the wheel and the reports, which count nothing.  So a world
    that runs until it is at rest ends like one that runs on. -/
theorem atRest_stays (w : World) :
    (Reachable w →
      (w.atRest = true ↔
        (∀ d < w.wheel.size, w.wheel.pending d = []) ∧ w.placements = [] ∧
          ∀ p, w.tracks p = false)) ∧
    (w.atRest = true → ∀ n,
      (ticks n w).1 =
          { w with
            wheel := (ticks n w).1.wheel
            history := (ticks n w).1.history
            tick := w.tick + n } ∧
        (ticks n w).1.atRest = true ∧
        (ticks n w).2 = (List.range n).map fun i =>
          { Report.ofTick (w.tick + i) with steps := w.config.stepsPerTick }) ∧
    ∀ n, ∃ rest, (ticksUntilRest n w).2.length + rest = n ∧
      (ticks n w).1 =
          { (ticksUntilRest n w).1 with
            wheel := (ticks n w).1.wheel
            history := (ticks n w).1.history
            tick := (ticksUntilRest n w).1.tick + rest } ∧
        (ticks n w).1.wheel.drain.1 = (ticksUntilRest n w).1.wheel.drain.1 ∧
        (ticks n w).2 =
          (ticksUntilRest n w).2 ++ (List.range rest).map (ticksUntilRest n w).1.quietReport := by
  refine ⟨?_, ticks_of_atRest, ?_⟩
  · intro h
    rw [atRest_iff, TimingWheel.isEmpty_iff, h.trackedInPlace.trackedCount_eq_zero_iff]
  · intro n
    obtain ⟨rest, hlength, hrest, hworld, hreports⟩ := ticks_eq_ticksUntilRest n w
    refine ⟨rest, hlength, ?_⟩
    rw [hworld, hreports]
    rcases Nat.eq_zero_or_pos rest with rfl | hpos
    · exact ⟨rfl, rfl, rfl⟩
    · have hbefore := hrest (Nat.ne_of_gt hpos)
      obtain ⟨hsame, hafter, hquiet⟩ := ticks_of_atRest hbefore rest
      refine ⟨hsame, ?_, congrArg _ hquiet⟩
      rw [TimingWheel.drain_of_isEmpty (atRest_iff.1 hbefore).1,
        TimingWheel.drain_of_isEmpty (atRest_iff.1 hafter).1]

/-- A block stays where it has been placed, for a rule that never acts. -/
theorem atRest_stays_firstBlock :
    ∃ w, Reachable w ∧ w.atRest = true ∧ (ticks 4 w).1.atRest = true ∧
      (ticks 4 w).1.read ⟨8, 8, 8⟩ 0 = 1 := by
  have hidle : ∀ v, ((default : LocalRule).outcome v).actions = [] := fun _ => rfl
  obtain ⟨w, hreachable, -, hplacements, hpending, htracks, -, hblock⟩ :=
    exists_settled_firstBlock hidle
  obtain ⟨hrest, hstays, -⟩ := atRest_stays w
  have hatRest := (hrest hreachable).2 ⟨hpending, hplacements, htracks⟩
  obtain ⟨hsame, hafter, -⟩ := hstays hatRest 4
  refine ⟨w, hreachable, hatRest, hafter, ?_⟩
  rw [hsame]
  exact hblock

end World

end BlockAutomata.Engine
