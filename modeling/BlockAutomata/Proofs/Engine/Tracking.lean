/-
  Which cells are tracked, exactly.

  1. A cell gets tracked when an applied request wakes it and its section can be kept, and in no
     other way (`tracks_handleAll`).  Whether a section can be kept does not change during a step
     (`keeps_ready`), so it does not matter when in the step this is asked.

  2. A step evaluates what was tracked before it and what its placements wake, every cell once, and
     then starts from nothing: afterwards it is what the other requests wake that is tracked.

  3. The engine counts tracked cells section by section; the count is that of the evaluated cells
     (`trackedCount_eq_length`), which are distinct.
-/
import Mathlib.Data.Finset.Card
import BlockAutomata.Proofs.Engine.Admission

namespace BlockAutomata.Engine

/-! ## Counting -/

namespace World

/-- As many cells are tracked as would be evaluated. -/
theorem trackedCount_eq_length (w : World) :
    w.trackedCount = (Turn.cellsToEvaluate w).length := by
  unfold trackedCount Turn.cellsToEvaluate OrderedMap.values
  induction w.sections.entries with
  | nil => rfl
  | cons e rest ih =>
    rw [List.map_cons, List.foldr_cons, ih, List.flatMap_cons, List.length_append,
      List.length_map, CellSet.size_eq_length_toList]

/-! ## Waking -/

/-- The cells that the requests wake and that can be tracked. -/
def wokenBy (w : World) (requests : List Request) : Finset Cell :=
  ((requests.flatMap fun r => r.action.wake.map r.cell.move).filter
    fun q => w.keeps q.home).toFinset

theorem mem_wokenBy {w : World} {requests : List Request} {q : Cell} :
    q ∈ w.wokenBy requests ↔
      w.keeps q.home = true ∧ ∃ r ∈ requests, ∃ o ∈ r.action.wake, r.cell.move o = q := by
  simp only [wokenBy, List.mem_toFinset, List.mem_filter, List.mem_flatMap, List.mem_map]
  exact and_comm

theorem wokenBy_nil (w : World) : w.wokenBy [] = ∅ := rfl

end World

namespace Turn

/-- Requests that are handled in order track what the applied ones among them wake, if this is so
    for each of them and none changes whether a section can be kept. -/
theorem tracks_handleAll {handle : Turn → Request → Bool × Turn}
    (hkeeps : ∀ t r s, (handle t r).2.world.keeps s = t.world.keeps s)
    (htracks : ∀ t r q, (handle t r).2.world.tracks q = true ↔
      t.world.tracks q = true ∨
        ((handle t r).1 = true ∧ t.world.keeps q.home = true ∧
          ∃ o ∈ r.action.wake, r.cell.move o = q))
    (t : Turn) (requests : List Request) (q : Cell) :
    (handleAll handle t requests).world.tracks q = true ↔
      t.world.tracks q = true ∨
        (t.world.keeps q.home = true ∧
          ∃ r ∈ accepted handle t requests, ∃ o ∈ r.action.wake, r.cell.move o = q) := by
  induction requests generalizing t with
  | nil => simp [handleAll, accepted]
  | cons r rest ih =>
    show (handleAll handle (handle t r).2 rest).world.tracks q = true ↔ _
    rw [ih, htracks, hkeeps]
    cases hr : (handle t r).1 with
    | false =>
      rw [accepted_cons_of_not_applied hr]
      simp only [Bool.false_eq_true, false_and, or_false]
    | true =>
      rw [accepted_cons_of_applied hr]
      simp only [true_and, List.mem_cons, exists_eq_or_imp, and_or_left, or_assoc]

theorem keeps_placing (t : Turn) (r : Request) (s : Section) :
    (t.placing r).2.world.keeps s = t.world.keeps s := by
  rw [world_placing, keeps_apply, provided, World.keeps_provide]

theorem tracks_placing (t : Turn) (r : Request) (q : Cell) :
    (t.placing r).2.world.tracks q = true ↔
      t.world.tracks q = true ∨
        ((t.placing r).1 = true ∧ t.world.keeps q.home = true ∧
          ∃ o ∈ r.action.wake, r.cell.move o = q) := by
  rw [world_placing, tracks_apply, ← placing_fst]
  simp only [provided, World.tracks_provide, World.keeps_provide]

theorem keeps_handleAll {handle : Turn → Request → Bool × Turn}
    (hkeeps : ∀ t r s, (handle t r).2.world.keeps s = t.world.keeps s)
    (t : Turn) (requests : List Request) (s : Section) :
    (handleAll handle t requests).world.keeps s = t.world.keeps s := by
  refine handleAll_induction (motive := fun u => u.world.keeps s = t.world.keeps s)
    (P := fun _ => True) ?_ (fun _ _ => trivial) rfl
  intro u r _ hu
  rw [hkeeps, hu]

end Turn

/-! ## A step -/

namespace World

/-- The cells that the rule is asked about in a step. -/
def evaluated (w : World) : List Cell := Turn.cellsToEvaluate w.placed.world

theorem tracks_placed (w : World) (q : Cell) :
    w.placed.world.tracks q = true ↔ w.tracks q = true ∨ q ∈ w.wokenBy w.appliedPlacements := by
  rw [placed_eq, Turn.tracks_handleAll Turn.keeps_placing Turn.tracks_placing, mem_wokenBy]
  rfl

theorem keeps_ready (w : World) (s : Section) : w.ready.world.keeps s = w.keeps s := by
  have hplaced : w.placed.world.keeps s = w.keeps s :=
    Turn.keeps_handleAll Turn.keeps_placing w.opening w.placements s
  rw [← hplaced, keeps, keeps, channelsAt_ready, terrain_ready]

theorem tracks_step (w : World) (q : Cell) :
    w.step.1.tracks q = true ↔ q ∈ w.wokenBy w.appliedDue := by
  have happly : ∀ (t : Turn) (r : Request) (q : Cell), (t.apply r).2.world.tracks q = true ↔
      t.world.tracks q = true ∨
        ((t.apply r).1 = true ∧ t.world.keeps q.home = true ∧
          ∃ o ∈ r.action.wake, r.cell.move o = q) := by
    intro t r q
    rw [Turn.apply_fst]
    exact t.tracks_apply r q
  rw [step_eq_flush, tracks_flush, done_eq, Turn.tracks_handleAll Turn.keeps_apply happly,
    mem_wokenBy, keeps_ready, not_tracks_ready]
  simp only [Bool.false_eq_true, false_or]
  rfl

/-- Once the first block has been placed, nothing is left to do for a rule that never acts. -/
theorem exists_settled_firstBlock {rule : LocalRule} (h : ∀ v, (rule.outcome v).actions = []) :
    ∃ w, Reachable w ∧ w.rule = rule ∧ w.placements = [] ∧
      (∀ d < w.wheel.size, w.wheel.pending d = []) ∧ (∀ p, w.tracks p = false) ∧
      w.channelsAt firstRequest.cell.home = some (max rule.channels 1) ∧
      w.read firstRequest.cell 0 = 1 := by
  have hone : stepped (firstBlock rule).config.stepsPerTick (firstBlock rule) =
      (firstBlock rule).step.1 := rfl
  refine ⟨(firstBlock rule).runTick.1, (reachable_firstBlock rule).obey .tick,
    (Grows.runTick (firstBlock rule)).rule, ?_, ?_, fun p => ?_, ?_, ?_⟩
  · rw [placements_runTick, hone, placements_step]
  · rw [wheel_runTick, hone, size_step]
    exact fun d hd => pending_step_eq_nil h (pending_firstBlock rule) hd
  · rw [Bool.eq_false_iff, tracks_runTick, hone]
    intro hp
    rw [tracks_step, appliedDue_firstBlock h, wokenBy_nil] at hp
    exact Finset.notMem_empty p hp
  · rw [channelsAt_runTick, hone]
    exact channelsAt_step_of_some (channelsAt_placed_firstBlock rule)
  · rw [read_runTick, hone, read_step_firstBlock h, read_placed_firstBlock]

/-- The report counts the evaluated cells. -/
theorem evaluated_report_step (w : World) : w.step.2.evaluated = w.evaluated.length := by
  have hplaced : w.placed.report.evaluated = 0 := by
    rw [report_placed_frame]
    rfl
  rw [step_eq_flush, report_flush, done, Turn.report_applyAll_frame, report_ready]
  show w.placed.report.evaluated + w.evaluated.length = _
  rw [hplaced, Nat.zero_add]

/-- In a run that starts with everything in place, it is so in every step. -/
theorem trackedInPlace_stepsAlong {w : World} (hw : w.TrackedInPlace) (run : List Command) :
    ∀ u ∈ w.stepsAlong run, u.TrackedInPlace := by
  have hobey : ∀ c ∈ run, ∀ u : World, u.TrackedInPlace → (u.obey c).TrackedInPlace :=
    fun c _ _ hu => hu.obey c
  have hstep : ∀ u : World, u.TrackedInPlace → u.step.1.TrackedInPlace :=
    fun u _ => TrackedInPlace.step u
  exact forall_mem_stepsAlong hobey hstep hw

/-- The worlds in which a step begins: those that come up during the tick of a reachable world. -/
def StepBegins (u : World) : Prop :=
  ∃ w, Reachable w ∧ u ∈ stepStarts w.config.stepsPerTick w

theorem stepBegins_firstBlock (rule : LocalRule) : StepBegins (firstBlock rule) :=
  ⟨firstBlock rule, reachable_firstBlock rule, List.mem_cons_self⟩

theorem StepBegins.trackedInPlace {u : World} (h : StepBegins u) : u.TrackedInPlace := by
  obtain ⟨w, hw, hu⟩ := h
  exact trackedInPlace_stepsAlong hw.trackedInPlace [.tick] u (List.mem_append_left _ hu)

/-- A step evaluates, once each, the cells that were tracked and those that its applied placements
    wake.  Afterwards exactly the cells that the other applied requests wake are tracked. -/
theorem tracked_exactly {w : World} (h : StepBegins w) :
    (∀ q, q ∈ w.evaluated ↔ w.tracks q = true ∨ q ∈ w.wokenBy w.appliedPlacements) ∧
      w.evaluated.Nodup ∧
      w.asked = w.evaluated.flatMap (Turn.evaluate w.placed.world) ∧
      w.step.2.evaluated = w.evaluated.length ∧
      (∀ q, w.step.1.tracks q = true ↔ q ∈ w.wokenBy w.appliedDue) ∧
      w.step.1.trackedCount = (w.wokenBy w.appliedDue).card ∧
      (w.appliedDue = [] → w.step.1.trackedCount = 0) := by
  have hplace := h.trackedInPlace
  have hcard : w.step.1.trackedCount = (w.wokenBy w.appliedDue).card := by
    have hstep := TrackedInPlace.step w
    have hset : w.wokenBy w.appliedDue = (Turn.cellsToEvaluate w.step.1).toFinset := by
      ext q
      rw [List.mem_toFinset, mem_cellsToEvaluate hstep, tracks_step]
    rw [trackedCount_eq_length, hset,
      List.toFinset_card_of_nodup (nodup_cellsToEvaluate hstep)]
  refine ⟨?_, nodup_cellsToEvaluate hplace.placed, rfl, evaluated_report_step w, tracks_step w,
    hcard, ?_⟩
  · intro q
    rw [evaluated, mem_cellsToEvaluate hplace.placed, tracks_placed]
  · intro hnone
    rw [hcard, hnone, wokenBy_nil]
    rfl

/-- The cell of the first block is tracked once the block has been placed. -/
theorem tracks_placed_firstBlock (rule : LocalRule) :
    (firstBlock rule).placed.world.tracks firstRequest.cell = true := by
  rw [tracks_placed, appliedPlacements_firstBlock, mem_wokenBy, keeps_firstBlock]
  exact Or.inr ⟨rfl, firstRequest, List.mem_singleton_self _, Offset.zero, by decide,
    Cell.move_zero _⟩

/-- When a block is placed into an empty world, the cube of 27 cells around it is evaluated. -/
theorem tracked_exactly_cube :
    ∃ w : World, StepBegins w ∧ w.step.2.evaluated = 27 ∧
      (∀ q, w.step.1.tracks q = true ↔ q ∈ w.wokenBy w.appliedDue) ∧
      w.step.1.trackedCount = (w.wokenBy w.appliedDue).card := by
  have hbegins : StepBegins (firstBlock default) :=
    ⟨firstBlock default, reachable_firstBlock default, List.mem_cons_self⟩
  obtain ⟨hmem, hnodup, -, hreport, htracks, hcount, -⟩ := tracked_exactly hbegins
  have hcube : (firstBlock default).evaluated.toFinset =
      (Neighborhood.moore3dSelf.map (⟨8, 8, 8⟩ : Cell).move).toFinset := by
    ext q
    have huntracked : (firstBlock default).tracks q = false := rfl
    rw [List.mem_toFinset, hmem, huntracked, appliedPlacements_firstBlock, mem_wokenBy,
      keeps_firstBlock]
    simp [firstRequest, Action.write]
  have hcard : (firstBlock default).evaluated.length = 27 := by
    rw [← List.toFinset_card_of_nodup hnodup, hcube]
    decide
  exact ⟨_, hbegins, hreport.trans hcard, htracks, hcount⟩

end World

end BlockAutomata.Engine
