/-
  Which requests a step applies.

  1. Placements and what is due are handled in order, and each time the answer says whether the
     request was applied.  `accepted` picks the requests that were.

  2. What a request keeps, and what it brings about only when it is applied, carries over to many
     (`handleAll_induction`); this is how a law about a step gets to speak of the applied requests
     only.

  3. The report counts them (`applied_report_step`, `placements_report_step`).
-/
import BlockAutomata.Proofs.Engine.Reachability
import BlockAutomata.Proofs.Engine.Scheduling

namespace BlockAutomata.Engine

namespace Turn

/-- Apply a placement; the answer says whether it was applied. -/
def placing (t : Turn) (r : Request) : Bool × Turn :=
  (((t.provided r).apply r).1, t.applyPlacement r)

section

variable (handle : Turn → Request → Bool × Turn)

/-- The turn after requests have been handled in order. -/
def handleAll (t : Turn) (requests : List Request) : Turn :=
  requests.foldl (fun t r => (handle t r).2) t

/-- Of requests that are handled in order, those that are applied. -/
def accepted : Turn → List Request → List Request
  | _, [] => []
  | t, r :: rest =>
    if (handle t r).1 then r :: accepted (handle t r).2 rest else accepted (handle t r).2 rest

variable {handle}

theorem accepted_cons_of_applied {t : Turn} {r : Request} (h : (handle t r).1 = true)
    (rest : List Request) :
    accepted handle t (r :: rest) = r :: accepted handle (handle t r).2 rest := by
  rw [accepted, if_pos h]

theorem accepted_cons_of_not_applied {t : Turn} {r : Request} (h : (handle t r).1 = false)
    (rest : List Request) :
    accepted handle t (r :: rest) = accepted handle (handle t r).2 rest := by
  rw [accepted, h]
  rfl

/-- What every request keeps, if it has the property `P` in case it is applied, holds after requests
    all of which have this property as far as they are applied. -/
theorem handleAll_induction {motive : Turn → Prop} {P : Request → Prop}
    (hstep : ∀ t r, ((handle t r).1 = true → P r) → motive t → motive (handle t r).2)
    {t : Turn} {requests : List Request} (hall : ∀ r ∈ accepted handle t requests, P r)
    (h : motive t) : motive (handleAll handle t requests) := by
  induction requests generalizing t with
  | nil => exact h
  | cons r rest ih =>
    cases hr : (handle t r).1 with
    | false =>
      rw [accepted_cons_of_not_applied hr] at hall
      exact ih hall (hstep t r (fun hc => by rw [hr] at hc; cases hc) h)
    | true =>
      rw [accepted_cons_of_applied hr, List.forall_mem_cons] at hall
      exact ih hall.2 (hstep t r (fun _ => hall.1) h)

/-- A count that goes up with every applied request tells how many are applied. -/
theorem count_handleAll (count : Turn → Nat)
    (hstep : ∀ t r, count (handle t r).2 = count t + (handle t r).1.toNat)
    (t : Turn) (requests : List Request) :
    count (handleAll handle t requests) = count t + (accepted handle t requests).length := by
  induction requests generalizing t with
  | nil => rfl
  | cons r rest ih =>
    show count (handleAll handle (handle t r).2 rest) = _
    rw [ih, hstep]
    cases hr : (handle t r).1 with
    | false => rw [accepted_cons_of_not_applied hr, Bool.toNat_false, Nat.add_zero]
    | true =>
      rw [accepted_cons_of_applied hr, List.length_cons, Bool.toNat_true]
      omega

end

theorem placing_fst (t : Turn) (r : Request) :
    (t.placing r).1 = (t.provided r).world.admits r :=
  apply_fst _ _

theorem world_placing (t : Turn) (r : Request) :
    (t.placing r).2.world = ((t.provided r).apply r).2.world :=
  t.world_applyPlacement r

theorem applied_report_apply (t : Turn) (r : Request) :
    (t.apply r).2.report.applied = t.report.applied + (t.apply r).1.toNat := by
  rw [report_apply, apply_fst]
  cases t.world.admits r <;> rfl

theorem applied_report_placing (t : Turn) (r : Request) :
    (t.placing r).2.report.applied = t.report.applied + (t.placing r).1.toNat := by
  have h := applied_report_apply (t.provided r) r
  rw [placing, applyPlacement_eq]
  split <;> exact h

theorem placements_report_placing (t : Turn) (r : Request) :
    (t.placing r).2.report.placements = t.report.placements + (t.placing r).1.toNat := by
  have hsame : ((t.provided r).apply r).2.report.placements = t.report.placements := by
    rw [report_apply_frame]
    rfl
  rw [placing_fst, placing, applyPlacement_eq]
  cases (t.provided r).world.admits r with
  | false => exact hsame
  | true => exact congrArg (· + 1) hsame

end Turn

namespace World

variable (w : World)

/-- The placements that the step applies. -/
def appliedPlacements : List Request := Turn.accepted Turn.placing w.opening w.placements

/-- What the step applies besides the placements. -/
def appliedDue : List Request := Turn.accepted Turn.apply w.ready (w.immediate ++ w.fired)

theorem placed_eq : w.placed = Turn.handleAll Turn.placing w.opening w.placements := rfl

theorem done_eq : w.done = Turn.handleAll Turn.apply w.ready (w.immediate ++ w.fired) := rfl

/-- The report counts the applied placements. -/
theorem placements_report_step : w.step.2.placements = w.appliedPlacements.length := by
  have hplaced := Turn.count_handleAll (fun t => t.report.placements)
    Turn.placements_report_placing w.opening w.placements
  rw [step_eq_flush, report_flush, done, Turn.report_applyAll_frame, report_ready]
  exact hplaced.trans (Nat.zero_add _)

/-- The report counts everything that is applied. -/
theorem applied_report_step :
    w.step.2.applied = w.appliedPlacements.length + w.appliedDue.length := by
  have hplaced := Turn.count_handleAll (fun t => t.report.applied)
    Turn.applied_report_placing w.opening w.placements
  have hdone := Turn.count_handleAll (fun t => t.report.applied)
    Turn.applied_report_apply w.ready (w.immediate ++ w.fired)
  have hready : w.ready.report.applied = w.placed.report.applied := by
    rw [report_ready]
    rfl
  rw [step_eq_flush, report_flush]
  show w.done.report.applied = _
  rw [done_eq, hdone, hready, placed_eq, hplaced]
  exact congrArg (· + _) (Nat.zero_add _)

/-- The first block is placed, since its section can be kept and it has no guard. -/
theorem appliedPlacements_firstBlock (rule : LocalRule) :
    (firstBlock rule).appliedPlacements = [firstRequest] := by
  have hadmits : ((firstBlock rule).opening.placing firstRequest).1 = true := by
    rw [Turn.placing_fst, admits, Bool.and_eq_true]
    refine ⟨?_, rfl⟩
    rw [Turn.provided, channelsAt_provide_self]
    exact keeps_firstBlock rule _
  show Turn.accepted Turn.placing _ [firstRequest] = _
  rw [Turn.accepted_cons_of_applied hadmits]
  rfl

/-! ## A rule that never acts -/

variable {w}

/-- A rule that never acts asks for nothing. -/
theorem asked_eq_nil (h : ∀ v, (w.rule.outcome v).actions = []) : w.asked = [] := by
  refine List.flatMap_eq_nil_iff.2 fun p _ => ?_
  show (w.placed.world.rule.outcome _).actions.map _ = []
  rw [placed_frame]
  exact List.map_eq_nil_iff.2 (h _)

/-- If no task is waiting, nothing is due then, -/
theorem due_eq_nil (h : ∀ v, (w.rule.outcome v).actions = [])
    (hpending : ∀ d < w.wheel.size, w.wheel.pending d = []) : w.immediate ++ w.fired = [] := by
  rw [immediate, asked_eq_nil h, fired_eq, hpending 0 w.wheel.size_pos]
  rfl

/-- and no task is waiting afterwards. -/
theorem pending_step_eq_nil (h : ∀ v, (w.rule.outcome v).actions = [])
    (hpending : ∀ d < w.wheel.size, w.wheel.pending d = []) {d : Nat} (hd : d < w.wheel.size) :
    w.step.1.wheel.pending d = [] := by
  rw [pending_step w hd, asked_eq_nil h]
  split
  · rfl
  · rw [hpending (d + 1) (by omega)]
    rfl

theorem pending_firstBlock (rule : LocalRule) :
    ∀ d < (firstBlock rule).wheel.size, (firstBlock rule).wheel.pending d = [] :=
  fun d _ => TimingWheel.pending_ofSize _ d

theorem appliedDue_firstBlock {rule : LocalRule} (h : ∀ v, (rule.outcome v).actions = []) :
    (firstBlock rule).appliedDue = [] := by
  rw [appliedDue, due_eq_nil h (pending_firstBlock rule)]
  rfl

/-- A step of the first block then does nothing but place it. -/
theorem read_step_firstBlock {rule : LocalRule} (h : ∀ v, (rule.outcome v).actions = []) (p : Cell)
    (slot : Nat) :
    (firstBlock rule).step.1.read p slot = (firstBlock rule).placed.world.read p slot := by
  rw [step_eq_flush, read_flush, done, due_eq_nil h (pending_firstBlock rule), ← read_ready]
  rfl

end World

end BlockAutomata.Engine
