/-
  What a step does to the timing wheel.

  1. Requests with a delay join the lists of the wheel that belong to their delays; a delay that
     does not fit is counted and has no other effect (`foldl_schedule_eq`).

  2. Then the wheel fires the list of delay 0, and every other list comes one delay closer
     (`pending_step`).  Nothing that is asked for in a step fires in the same step (`fired_eq`).

  3. The report tells how many requests fitted and how many did not (`report_ready`).
-/
import BlockAutomata.Proofs.Engine.Phases

namespace BlockAutomata.Engine

/-- The task that the wheel keeps for a request. -/
def Request.undelayed (r : Request) : Request := ⟨r.cell, r.action.undelayed⟩

/-! ## Scheduling -/

namespace Turn

/-- Count requests that are rejected. -/
def countRejected (t : Turn) (n : Nat) : Turn :=
  { t with report := { t.report with rejected := t.report.rejected + n } }

variable (t : Turn) (l : List Request)

/-- A delay that fits: the request comes last among those of this delay, and is counted. -/
theorem schedule_of_lt (r : Request) (h : r.action.delay < t.world.wheel.size) :
    ∃ wheel,
      t.schedule r =
          { t with
            world := { t.world with wheel := wheel }
            report := { t.report with scheduled := t.report.scheduled + 1 } } ∧
        wheel.size = t.world.wheel.size ∧ wheel.cursor = t.world.wheel.cursor ∧
        ∀ d < t.world.wheel.size,
          wheel.pending d =
            if d = r.action.delay then t.world.wheel.pending d ++ [r.undelayed]
            else t.world.wheel.pending d := by
  obtain ⟨ticket, wheel, hw, hwheel⟩ := t.world.wheel.schedule_of_lt r.undelayed h
  refine ⟨wheel, ?_, hwheel⟩
  rw [Request.undelayed] at hw
  rw [schedule, hw]

/-- A delay that does not fit is counted, and has no other effect. -/
theorem schedule_of_le (r : Request) (h : t.world.wheel.size ≤ r.action.delay) :
    t.schedule r = t.countRejected 1 := by
  have hw := t.world.wheel.schedule_of_le r.undelayed h
  rw [Request.undelayed] at hw
  rw [schedule, hw]
  rfl

theorem schedule_countRejected (n : Nat) (r : Request) :
    (t.countRejected n).schedule r = (t.schedule r).countRejected n := by
  have hwheel : (t.countRejected n).world.wheel = t.world.wheel := rfl
  rw [schedule, schedule, hwheel]
  cases t.world.wheel.schedule ⟨r.cell, r.action.undelayed⟩ r.action.delay with
  | ok taken => rfl
  | error e => simp only [countRejected, Nat.add_right_comm]

theorem size_schedule (r : Request) : (t.schedule r).world.wheel.size = t.world.wheel.size := by
  rcases Nat.lt_or_ge r.action.delay t.world.wheel.size with h | h
  · obtain ⟨wheel, ht, hsize, -⟩ := t.schedule_of_lt r h
    rw [ht, hsize]
  · rw [t.schedule_of_le r h]
    rfl

theorem cursor_schedule (r : Request) :
    (t.schedule r).world.wheel.cursor = t.world.wheel.cursor := by
  rcases Nat.lt_or_ge r.action.delay t.world.wheel.size with h | h
  · obtain ⟨wheel, ht, -, hcursor, -⟩ := t.schedule_of_lt r h
    rw [ht, hcursor]
  · rw [t.schedule_of_le r h]
    rfl

/-- A scheduled request comes last among those of its delay. -/
theorem pending_schedule (r : Request) {d : Nat} (hd : d < t.world.wheel.size) :
    (t.schedule r).world.wheel.pending d =
      t.world.wheel.pending d ++ if r.action.delay = d then [r.undelayed] else [] := by
  rcases Nat.lt_or_ge r.action.delay t.world.wheel.size with h | h
  · obtain ⟨wheel, ht, -, -, hpending⟩ := t.schedule_of_lt r h
    rw [ht, hpending d hd]
    by_cases hdd : d = r.action.delay
    · rw [if_pos hdd, if_pos hdd.symm]
    · rw [if_neg hdd, if_neg (Ne.symm hdd), List.append_nil]
  · rw [t.schedule_of_le r h, if_neg (by omega), List.append_nil]
    rfl

theorem size_foldl_schedule :
    (l.foldl schedule t).world.wheel.size = t.world.wheel.size := by
  induction l generalizing t with
  | nil => rfl
  | cons r rest ih => rw [List.foldl_cons, ih, size_schedule]

theorem cursor_foldl_schedule :
    (l.foldl schedule t).world.wheel.cursor = t.world.wheel.cursor := by
  induction l generalizing t with
  | nil => rfl
  | cons r rest ih => rw [List.foldl_cons, ih, cursor_schedule]

theorem pending_foldl_schedule {d : Nat} (hd : d < t.world.wheel.size) :
    (l.foldl schedule t).world.wheel.pending d =
      t.world.wheel.pending d ++ (l.filter fun r => r.action.delay = d).map Request.undelayed := by
  induction l generalizing t with
  | nil => simp
  | cons r rest ih =>
    rw [← t.size_schedule r] at hd
    rw [List.foldl_cons, ih _ hd, pending_schedule t r (by rwa [← t.size_schedule r]),
      List.append_assoc]
    by_cases h : r.action.delay = d <;> simp [h]

/-- Of the requests that are scheduled, those that do not fit are counted, and that is all. -/
theorem foldl_schedule_eq :
    l.foldl schedule t =
      ((l.filter fun r => r.action.delay < t.world.wheel.size).foldl schedule t).countRejected
        (l.filter fun r => t.world.wheel.size ≤ r.action.delay).length := by
  have hcount : ∀ (l : List Request) (t : Turn) (n : Nat),
      l.foldl schedule (t.countRejected n) = (l.foldl schedule t).countRejected n := by
    intro l
    induction l with
    | nil => intro _ _; rfl
    | cons r rest ih => intro t n; rw [List.foldl_cons, schedule_countRejected, ih, List.foldl_cons]
  induction l generalizing t with
  | nil => rfl
  | cons r rest ih =>
    rw [List.foldl_cons, ih, size_schedule]
    rcases Nat.lt_or_ge r.action.delay t.world.wheel.size with h | h
    · have h' : ¬ t.world.wheel.size ≤ r.action.delay := Nat.not_le.2 h
      rw [List.filter_cons_of_pos (by simpa using h), List.filter_cons_of_neg (by simpa using h'),
        List.foldl_cons]
    · have h' : ¬ r.action.delay < t.world.wheel.size := Nat.not_lt.2 h
      rw [List.filter_cons_of_neg (by simpa using h'), List.filter_cons_of_pos (by simpa using h),
        t.schedule_of_le r h, hcount, List.length_cons]
      simp only [countRejected, Nat.add_assoc, Nat.add_comm 1]

end Turn

namespace World

/-! ## One step -/

variable (w : World)

theorem wheel_placed : w.placed.world.wheel = w.wheel := by
  rw [placed_frame]

/-- The wheel that a step leaves is the one that was ready before the due requests. -/
theorem wheel_step : w.step.1.wheel = w.scheduled.world.wheel.advance.2 := by
  rw [step_eq, flush_frame, Turn.applyAll_frame, Turn.applyAll_frame]
  rfl

/-- A delay that does not fit is a delay. -/
theorem filter_le_delay_filter_waits (l : List Request) :
    ((l.filter fun r => r.action.waits).filter fun r => w.wheel.size ≤ r.action.delay) =
      l.filter fun r => w.wheel.size ≤ r.action.delay := by
  have hpos := w.wheel.size_pos
  rw [List.filter_filter]
  congr 1
  funext r
  rw [Action.waits, ← Bool.decide_and, decide_eq_decide]
  omega

theorem filter_delay_lt_filter_waits (l : List Request) :
    ((l.filter fun r => r.action.waits).filter fun r => r.action.delay < w.wheel.size) =
      l.filter fun r => 0 < r.action.delay ∧ r.action.delay < w.wheel.size := by
  rw [List.filter_filter]
  congr 1
  funext r
  rw [Action.waits, ← Bool.decide_and, decide_eq_decide]
  exact And.comm

/-- The requests that fit the wheel are handed to it; the others are counted. -/
theorem scheduled_eq :
    w.scheduled =
      ((w.asked.filter fun r => 0 < r.action.delay ∧ r.action.delay < w.wheel.size).foldl
        Turn.schedule w.placed.evaluateTracked.2).countRejected
          (w.asked.filter fun r => w.wheel.size ≤ r.action.delay).length := by
  have hwheel : w.placed.evaluateTracked.2.world.wheel = w.wheel := w.wheel_placed
  show (w.asked.filter fun r => r.action.waits).foldl Turn.schedule w.placed.evaluateTracked.2 = _
  rw [Turn.foldl_schedule_eq, hwheel, filter_le_delay_filter_waits, filter_delay_lt_filter_waits]

theorem size_scheduled : w.scheduled.world.wheel.size = w.wheel.size := by
  have hwheel : w.placed.evaluateTracked.2.world.wheel = w.wheel := w.wheel_placed
  have h := Turn.size_foldl_schedule w.placed.evaluateTracked.2
    (w.asked.filter fun r => r.action.waits)
  rw [hwheel] at h
  exact h

theorem size_step : w.step.1.wheel.size = w.wheel.size := by
  rw [wheel_step, TimingWheel.size_advance, size_scheduled]

theorem cursor_step : w.step.1.wheel.cursor = (w.wheel.cursor + 1) % w.wheel.size := by
  have hwheel : w.placed.evaluateTracked.2.world.wheel = w.wheel := w.wheel_placed
  have hcursor := Turn.cursor_foldl_schedule w.placed.evaluateTracked.2
    (w.asked.filter fun r => r.action.waits)
  rw [hwheel] at hcursor
  rw [wheel_step, TimingWheel.cursor_advance, size_scheduled]
  exact congrArg (fun c => (c + 1) % w.wheel.size) hcursor

theorem pending_scheduled {d : Nat} (hd : d < w.wheel.size) :
    w.scheduled.world.wheel.pending d =
      w.wheel.pending d ++
        (w.asked.filter fun r => 0 < r.action.delay ∧ r.action.delay = d).map
          Request.undelayed := by
  have hwheel : w.placed.evaluateTracked.2.world.wheel = w.wheel := w.wheel_placed
  have h := Turn.pending_foldl_schedule w.placed.evaluateTracked.2
    (w.asked.filter fun r => r.action.waits) (d := d) (by rw [hwheel]; exact hd)
  rw [hwheel, List.filter_filter] at h
  simp only [Action.waits] at h
  refine h.trans ?_
  congr 3
  funext r
  simp only [Bool.decide_and, Bool.and_comm]

/-- Nothing that is asked for in a step fires in the same step. -/
theorem fired_eq : w.fired = w.wheel.pending 0 := by
  have hnone : (w.asked.filter fun r => 0 < r.action.delay ∧ r.action.delay = 0) = [] := by
    rw [List.filter_eq_nil_iff]
    intro r _
    simp only [decide_eq_true_eq]
    omega
  rw [fired, Turn.advance, TimingWheel.advance_fst, pending_scheduled _ w.wheel.size_pos, hnone,
    List.map_nil, List.append_nil]

/-- After a step every list of tasks is one delay closer, joined by what was asked for with the
    delay that it had before. -/
theorem pending_step {d : Nat} (hd : d < w.wheel.size) :
    w.step.1.wheel.pending d =
      if d + 1 = w.wheel.size then []
      else w.wheel.pending (d + 1) ++
        (w.asked.filter fun r => r.action.delay = d + 1).map Request.undelayed := by
  rw [wheel_step, TimingWheel.pending_advance _ (by rw [size_scheduled]; exact hd),
    size_scheduled]
  by_cases hlast : d + 1 = w.wheel.size
  · rw [if_pos hlast, if_pos hlast]
  · rw [if_neg hlast, if_neg hlast, pending_scheduled _ (by omega)]
    congr 3
    funext r
    rw [decide_eq_decide]
    omega

end World

/-! ## Counting -/

namespace Turn

/-- What fits the wheel is counted as scheduled, and what does not as rejected. -/
theorem report_foldl_schedule (t : Turn) (l : List Request) :
    (l.foldl schedule t).report =
      { t.report with
        scheduled := t.report.scheduled +
          (l.filter fun r => r.action.delay < t.world.wheel.size).length
        rejected := t.report.rejected +
          (l.filter fun r => t.world.wheel.size ≤ r.action.delay).length } := by
  induction l generalizing t with
  | nil => rfl
  | cons r rest ih =>
    rw [List.foldl_cons, ih, size_schedule]
    rcases Nat.lt_or_ge r.action.delay t.world.wheel.size with h | h
    · obtain ⟨wheel, ht, -⟩ := t.schedule_of_lt r h
      have h' : ¬ t.world.wheel.size ≤ r.action.delay := Nat.not_le.2 h
      rw [List.filter_cons_of_pos (by simpa using h), List.filter_cons_of_neg (by simpa using h'),
        ht, List.length_cons]
      simp only [Nat.add_assoc, Nat.add_comm 1]
    · have h' : ¬ r.action.delay < t.world.wheel.size := Nat.not_lt.2 h
      rw [List.filter_cons_of_neg (by simpa using h'), List.filter_cons_of_pos (by simpa using h),
        t.schedule_of_le r h, List.length_cons]
      simp only [countRejected, Nat.add_assoc, Nat.add_comm 1]

end Turn

namespace World

/-- The counts when the due requests are about to be applied. -/
theorem report_ready (w : World) :
    w.ready.report =
      { w.placed.evaluateTracked.2.report with
        scheduled := w.placed.evaluateTracked.2.report.scheduled +
          (w.asked.filter fun r => 0 < r.action.delay ∧ r.action.delay < w.wheel.size).length
        rejected := w.placed.evaluateTracked.2.report.rejected +
          (w.asked.filter fun r => w.wheel.size ≤ r.action.delay).length } := by
  have hwheel : w.placed.evaluateTracked.2.world.wheel = w.wheel := w.wheel_placed
  have h := Turn.report_foldl_schedule w.placed.evaluateTracked.2
    (w.asked.filter fun r => r.action.waits)
  rw [hwheel, filter_le_delay_filter_waits, filter_delay_lt_filter_waits] at h
  exact h

/-- The report of a step counts every request whose delay does not fit. -/
theorem rejected_step (w : World) :
    w.step.2.rejected = (w.asked.filter fun r => w.wheel.size ≤ r.action.delay).length := by
  have hplaced : w.placed.evaluateTracked.2.report.rejected = 0 := by
    show w.placed.report.rejected = 0
    rw [report_placed_frame]
    rfl
  rw [step_eq, report_flush, Turn.report_applyAll_frame, Turn.report_applyAll_frame,
    report_ready]
  simp only [hplaced, Nat.zero_add]

/-- The report of a step tells the time at which the step was made. -/
theorem tick_report_step (w : World) : w.step.2.tick = w.tick := by
  rw [step_eq, report_flush, Turn.report_applyAll_frame, Turn.report_applyAll_frame,
    report_ready]
  show w.placed.report.tick = w.tick
  rw [report_placed_frame]
  rfl

end World

end BlockAutomata.Engine
