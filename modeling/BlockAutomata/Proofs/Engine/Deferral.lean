/-
  Requests with a delay fire once, and on time.

  1. Each step brings the tasks of the wheel one delay closer and takes in what is asked for.
     Between two steps nothing touches the wheel, as long as the rule is not exchanged
     (`handsOver_stepsAlong`).

  2. So what fires in the n-th step of a run is what was asked for in an earlier step, with just the
     delay that leads from there to the n-th (`fired_of_new`, `deferred_fire_on_time`).

  3. If one request for a cell is due in a step, the step leaves in the cell what the attempt makes
     of it (`read_step_of_due`).
-/
import BlockAutomata.Proofs.Engine.Tracking

namespace BlockAutomata.Engine.World

/-! ## A run -/

/-- Each step begins with the wheel that the one before left, and the first one with a given
    wheel. -/
def HandsOver : TimingWheel Request → List World → Prop
  | _, [] => True
  | wheel, w :: rest => w.wheel = wheel ∧ HandsOver w.step.1.wheel rest

theorem handsOver_stepStarts (n : Nat) {w : World} {rest : List World}
    (h : HandsOver (stepped n w).wheel rest) : HandsOver w.wheel (stepStarts n w ++ rest) := by
  induction n generalizing w with
  | zero => exact h
  | succ n ih => exact ⟨rfl, ih h⟩

/-- Between the steps of a run, nothing happens to the wheel. -/
theorem handsOver_stepsAlong (w : World) (run : List Command) :
    HandsOver w.wheel (w.stepsAlong run) := by
  induction run generalizing w with
  | nil => trivial
  | cons c rest ih =>
    have hrest := ih (w.obey c)
    cases c with
    | tick =>
      rw [show (w.obey .tick).wheel = _ from congrArg World.wheel w.runTick_fst] at hrest
      exact handsOver_stepStarts _ hrest
    | place p channels => exact hrest
    | load s =>
      rw [show (w.obey (.load s)).wheel = _ from congrArg World.wheel (w.sectionLoaded_eq s)]
        at hrest
      exact hrest
    | unload s => exact hrest
    | takeEvents => exact hrest
    | reshape terrain => exact hrest

/-- What is asked for in the step that begins in the world at this position. -/
def askedAt (starts : List World) (n : Nat) : List Request := (starts[n]?.map asked).getD []

theorem askedAt_of_getElem? {starts : List World} {n : Nat} {u : World} (hn : starts[n]? = some u) :
    askedAt starts n = u.asked := by
  rw [askedAt, hn]
  rfl

/-- The requests that lead from earlier steps to the n-th: those of the step t with the delay n - t,
    if the delay fits, without their delays. -/
def deferredTo (size : Nat) (starts : List World) (n : Nat) : List Request :=
  (List.range n).flatMap fun t =>
    ((askedAt starts t).filter fun r =>
      0 < r.action.delay ∧ r.action.delay < size ∧ t + r.action.delay = n).map Request.undelayed

/-- What leads to a step for one cell is what was asked for at this cell. -/
theorem filter_deferredTo (size : Nat) (starts : List World) (n : Nat) (p : Cell) :
    ((deferredTo size starts n).filter fun r => r.cell = p) =
      (List.range n).flatMap fun t =>
        (((askedAt starts t).filter fun r => r.cell = p).filter fun r =>
          0 < r.action.delay ∧ r.action.delay < size ∧ t + r.action.delay = n).map
            Request.undelayed := by
  rw [deferredTo, List.filter_flatMap]
  congr 1
  funext t
  rw [List.filter_map, List.filter_filter, List.filter_filter]
  congr 2
  funext r
  exact Bool.and_comm _ _

/-- Counting from the second step on, what leads to a step is what leads to it from the first step
    and what leads to it from the others. -/
theorem deferredTo_succ (size : Nat) (w : World) (rest : List World) (n : Nat) :
    deferredTo size (w :: rest) (n + 1) =
      (w.asked.filter fun r => r.action.delay < size ∧ r.action.delay = n + 1).map
          Request.undelayed ++ deferredTo size rest n := by
  rw [deferredTo, List.range_succ_eq_map, List.flatMap_cons, List.flatMap_map]
  congr 1
  · show (List.filter _ w.asked).map _ = _
    congr 2
    funext r
    rw [decide_eq_decide]
    omega
  · rw [deferredTo]
    congr 1
    funext t
    show ((askedAt rest t).filter _).map _ = _
    congr 2
    funext r
    rw [decide_eq_decide]
    omega

/-- What fires in a step of a run was waiting for it from the beginning, or leads to it from an
    earlier step. -/
theorem fired_of_handsOver {wheel : TimingWheel Request} {starts : List World}
    (h : HandsOver wheel starts) {n : Nat} {u : World} (hn : starts[n]? = some u) :
    u.wheel.size = wheel.size ∧
      u.fired = (if n < wheel.size then wheel.pending n else []) ++
        deferredTo wheel.size starts n := by
  induction starts generalizing wheel n with
  | nil => cases hn
  | cons w rest ih =>
    obtain ⟨rfl, hrest⟩ := h
    cases n with
    | zero =>
      obtain rfl := Option.some.inj hn
      rw [if_pos w.wheel.size_pos, fired_eq]
      exact ⟨rfl, (List.append_nil _).symm⟩
    | succ n =>
      obtain ⟨hsize, hfired⟩ := ih hrest hn
      rw [size_step] at hsize hfired
      refine ⟨hsize, ?_⟩
      rw [hfired, deferredTo_succ, ← List.append_assoc]
      congr 1
      rcases Nat.lt_trichotomy (n + 1) w.wheel.size with hlt | heq | hgt
      · -- the list of the n-th delay has moved up from the next one
        have hfit : (w.asked.filter fun r =>
            r.action.delay < w.wheel.size ∧ r.action.delay = n + 1) =
              w.asked.filter fun r => r.action.delay = n + 1 := by
          congr 1
          funext r
          rw [decide_eq_decide]
          omega
        rw [if_pos (by omega), pending_step _ (by omega), if_neg (by omega), if_pos hlt, hfit]
      all_goals
        have hnone : (w.asked.filter fun r =>
            r.action.delay < w.wheel.size ∧ r.action.delay = n + 1) = [] := by
          rw [List.filter_eq_nil_iff]
          intro r _
          simp only [decide_eq_true_eq]
          omega
        rw [hnone, if_neg (by omega : ¬ n + 1 < w.wheel.size)]
      · rw [if_pos (by omega), pending_step _ (by omega), if_pos heq]
        rfl
      · rw [if_neg (by omega)]
        rfl

/-! ## One request for a cell -/

/-- Requests for a cell that are but one, with what comes before and after it. -/
theorem split_of_filter_eq_singleton {l : List Request} {p : Cell} {r : Request}
    (h : (l.filter fun r => r.cell = p) = [r]) :
    ∃ before after, l = before ++ r :: after ∧ r.cell = p ∧ (∀ x ∈ before, x.cell ≠ p) ∧
      ∀ x ∈ after, x.cell ≠ p := by
  obtain ⟨before, after, hl, hbefore, hr, hafter⟩ := List.filter_eq_cons_iff.1 h
  refine ⟨before, after, hl, of_decide_eq_true hr, fun x hx => ?_, fun x hx => ?_⟩
  · simpa using hbefore x hx
  · simpa using List.filter_eq_nil_iff.1 hafter x hx

/-- A step in which one request is due for a cell leaves in its channels what the attempt makes of
    what the placements have left. -/
theorem read_step_of_due {u : World} {p : Cell} {r : Request} {due : List Request} {channels : Nat}
    (hstep : u.step = (u.ready.applyAll due).flush) (hone : (due.filter fun x => x.cell = p) = [r])
    (hstored : u.placed.world.channelsAt p.home = some channels) (slot : Nat) :
    u.step.1.read p slot = r.action.attempt channels (u.placed.world.read p) slot := by
  obtain ⟨before, after, rfl, rfl, hbefore, hafter⟩ := split_of_filter_eq_singleton hone
  have hread : (u.ready.applyAll before).world.read r.cell = u.placed.world.read r.cell :=
    funext fun k => (Turn.read_applyAll_of_forall_ne hbefore k).trans (u.read_ready r.cell k)
  have hchannels : (u.ready.applyAll before).world.channelsAt r.cell.home = some channels :=
    Turn.channelsAt_applyAll_of_some ((channelsAt_ready u _).trans hstored) before
  rw [hstep, read_flush, Turn.applyAll_append]
  refine (Turn.read_applyAll_of_forall_ne hafter slot).trans ?_
  rw [Turn.read_apply, if_pos rfl, attempted, hread, hchannels, Option.getD_some]

/-! ## The law -/

/-- A request is applied if and only if its section has storage and every slot that it guards has
    the value asked for. -/
theorem apply_fst_eq_true_iff {t : Turn} {r : Request} :
    (t.apply r).1 = true ↔
      t.world.sections.contains r.cell.home = true ∧
        ∀ guard, r.action.guard = some guard →
          ∀ e ∈ guard.entries, t.world.read r.cell e.1 = e.2 := by
  have hstored : (t.world.channelsAt r.cell.home).isSome =
      t.world.sections.contains r.cell.home := Option.isSome_map
  rw [Turn.apply_fst, admits, Bool.and_eq_true, hstored]
  refine and_congr_right fun _ => ?_
  rw [Action.guardHolds]
  cases r.action.guard with
  | none => simp
  | some guard =>
    constructor
    · rintro h _ ⟨⟩ e he
      simpa using List.all_eq_true.1 h e he
    · intro h
      exact List.all_eq_true.2 fun e he => by simpa using h guard rfl e he

theorem immediate_eq_filter (u : World) :
    u.immediate = u.asked.filter fun r => r.action.delay = 0 := by
  rw [immediate]
  congr 1
  funext r
  rw [Action.waits, ← decide_not, decide_eq_decide]
  omega

/-- In a run of a new world, what fires in a step is what earlier steps have deferred to it. -/
theorem fired_of_new {terrain : Terrain} {rule : LocalRule} {config : Config} {w : World}
    (hw : ofTerrain terrain rule config = .ok w ∨ ofLoaded terrain rule config = .ok w)
    (run : List Command) {n : Nat} {u : World} (hn : (w.stepsAlong run)[n]? = some u) :
    u.wheel.size = config.wheelSize ∧
      u.fired = deferredTo config.wheelSize (w.stepsAlong run) n := by
  obtain ⟨hnew, hconfig⟩ := eq_of_new hw
  obtain ⟨hsize, hfired⟩ := fired_of_handsOver (handsOver_stepsAlong w run) hn
  -- the wheel of a new world is empty and as large as the settings say
  have hwheel : w.wheel = TimingWheel.ofSize config.wheelSize := by rw [hnew]
  have hmax : max config.wheelSize 1 = config.wheelSize := by omega
  rw [hwheel, TimingWheel.size_ofSize, hmax] at hsize hfired
  rw [TimingWheel.pending_ofSize, ite_self, List.nil_append] at hfired
  exact ⟨hsize, hfired⟩

/-- In a run of a new world, the n-th step attempts what is asked for without delay, and after that
    exactly what earlier steps have deferred to it, each once; whoever asks for too long a delay is
    counted and otherwise ignored.  An attempt succeeds if and only if the section has storage and
    the guard holds at that time; one that fails is counted and changes nothing.  One that succeeds
    writes the channels of its cell and of no other, wakes cells around it, notes a changed block
    and the events, and is counted. -/
theorem deferred_fire_on_time {terrain : Terrain} {rule : LocalRule} {config : Config} {w : World}
    (hw : ofTerrain terrain rule config = .ok w ∨ ofLoaded terrain rule config = .ok w)
    (run : List Command) {n : Nat} {u : World} (hn : (w.stepsAlong run)[n]? = some u) :
    u.step =
        ((u.ready.applyAll (u.asked.filter fun r => r.action.delay = 0)).applyAll
          (deferredTo config.wheelSize (w.stepsAlong run) n)).flush ∧
      (∀ (t : Turn) (r : Request),
        ((t.apply r).1 = true ↔
          t.world.sections.contains r.cell.home = true ∧
            ∀ guard, r.action.guard = some guard →
              ∀ e ∈ guard.entries, t.world.read r.cell e.1 = e.2) ∧
        ((t.apply r).1 = false →
          (t.apply r).2 = { t with report := { t.report with stale := t.report.stale + 1 } }) ∧
        ((t.apply r).1 = true →
          (t.apply r).2 =
              { world := (t.world.rewritten r).wake r.cell r.action.wake
                changes := t.changesAfter r
                report :=
                  { t.report with
                    modified :=
                      if t.world.modifiedBy r then t.report.modified + 1 else t.report.modified
                    applied := t.report.applied + 1
                    events := t.report.events + r.action.events.length } } ∧
            ∀ q slot, (t.apply r).2.world.read q slot =
              if q = r.cell then t.world.attempted r slot else t.world.read q slot)) ∧
      u.scheduled =
        ((u.asked.filter fun r => 0 < r.action.delay ∧ r.action.delay < config.wheelSize).foldl
          Turn.schedule u.placed.evaluateTracked.2).countRejected
            (u.asked.filter fun r => config.wheelSize ≤ r.action.delay).length ∧
      u.step.2.rejected =
        (u.asked.filter fun r => config.wheelSize ≤ r.action.delay).length := by
  obtain ⟨hsize, hfired⟩ := fired_of_new hw run hn
  refine ⟨?_, ?_, ?_, ?_⟩
  · rw [step_eq, immediate_eq_filter, hfired]
  · intro t r
    refine ⟨apply_fst_eq_true_iff, fun h => ?_, fun h => ⟨?_, t.read_apply r⟩⟩
    · rw [Turn.apply_fst] at h
      rw [Turn.apply_of_not_admits h]
      rfl
    · rw [Turn.apply_fst] at h
      rw [Turn.apply_of_admits h]
  · rw [scheduled_eq, hsize]
  · rw [rejected_step, hsize]

/-- The block becomes 2 after one step. -/
def turnLate : Action := Action.writeAfter 1 (SlotMap.ofList [(0, 2)])

/-- A cell with the block 1 asks to be 2 after one step. -/
def lateRule : LocalRule where
  names := []
  channels := 1
  watches := fun _ => false
  outcome := fun v => if v.own 0 = 1 then .one turnLate else .idle

/-- A block is placed, and two ticks follow. -/
def lateRun : List Command := [.place ⟨8, 8, 8⟩ (SlotMap.ofList [(0, 1)]), .tick, .tick]

theorem evaluate_late {v : World} (hrule : v.rule = lateRule) (p : Cell) :
    Turn.evaluate v p = if v.read p 0 = 1 then [⟨p, turnLate⟩] else [] := by
  have hown : (v.viewAt p).own 0 = v.read p 0 := own_viewAt v p 0
  rw [Turn.evaluate, hrule, lateRule]
  dsimp only
  rw [hown]
  split <;> rfl

/-- The rule asks for nothing at once. -/
theorem immediate_late {v : World} (hrule : v.rule = lateRule) : v.immediate = [] := by
  refine List.filter_eq_nil_iff.2 fun r hr => ?_
  obtain ⟨p, -, hr⟩ := List.mem_flatMap.1 hr
  rw [evaluate_late ((Grows.placed v).rule.trans hrule)] at hr
  split at hr
  · rw [List.mem_singleton.1 hr]
    exact Bool.false_ne_true
  · cases hr

/-- What the first step asks for at its block leads to the second step. -/
theorem filter_deferredTo_late {starts : List World}
    (hfirst : starts[0]? = some (firstBlock lateRule)) :
    ((deferredTo Config.fast.wheelSize starts 1).filter fun r => r.cell = firstRequest.cell) =
      [⟨firstRequest.cell, turnLate.undelayed⟩] := by
  have hasked : ((firstBlock lateRule).asked.filter fun r => r.cell = firstRequest.cell) =
      [⟨firstRequest.cell, turnLate⟩] := by
    rw [filter_asked (reachable_firstBlock lateRule).trackedInPlace,
      if_pos (tracks_placed_firstBlock lateRule),
      evaluate_late ((Grows.placed (firstBlock lateRule)).rule.trans rfl),
      if_pos (read_placed_firstBlock lateRule)]
  rw [filter_deferredTo, List.range_one, List.flatMap_singleton, askedAt_of_getElem? hfirst, hasked]
  rfl

/-- The first step leaves the block as it has been placed. -/
theorem read_step_firstBlock_late :
    (firstBlock lateRule).step.1.read firstRequest.cell 0 = 1 := by
  have hfired : (firstBlock lateRule).fired = [] := by
    rw [fired_eq]
    exact pending_firstBlock lateRule 0 (TimingWheel.size_pos _)
  rw [step_eq, hfired, immediate_late rfl, read_flush]
  exact (read_ready _ _ _).trans (read_placed_firstBlock lateRule)

/-- The block that the first step defers comes in the second step. -/
theorem deferred_fire_on_time_late :
    ∃ w u, ofTerrain Terrain.empty lateRule Config.fast = .ok w ∧
      (w.stepsAlong lateRun)[1]? = some u ∧
      u.step =
        ((u.ready.applyAll (u.asked.filter fun r => r.action.delay = 0)).applyAll
          (deferredTo Config.fast.wheelSize (w.stepsAlong lateRun) 1)).flush ∧
      u.placed.world.read ⟨8, 8, 8⟩ 0 = 1 ∧ u.step.1.read ⟨8, 8, 8⟩ 0 = 2 := by
  obtain ⟨w, hw, hplace⟩ := exists_firstBlock lateRule
  have hone : w.config.stepsPerTick = 1 := by rw [(eq_of_ofTerrain hw).1]; rfl
  -- the second step begins where the first tick has ended
  let u := (firstBlock lateRule).obey .tick
  have hu : w.after [.place ⟨8, 8, 8⟩ (SlotMap.ofList [(0, 1)]), .tick] = u :=
    congrArg (·.obey .tick) hplace
  have hfirst := getElem?_stepsAlong hone [.place ⟨8, 8, 8⟩ (SlotMap.ofList [(0, 1)])] [.tick]
  have hn := getElem?_stepsAlong hone [.place ⟨8, 8, 8⟩ (SlotMap.ofList [(0, 1)]), .tick] []
  rw [hu] at hn
  have hstep := (deferred_fire_on_time (.inl hw) lateRun hn).1
  have hone' : (firstBlock lateRule).config.stepsPerTick = 1 := rfl
  have hrule : u.rule = lateRule := (Grows.runTick (firstBlock lateRule)).rule
  have hplaced : u.placed.world.read firstRequest.cell 0 = 1 := by
    rw [read_placed_of_placements_eq_nil (placements_obey_tick hone'), read_obey_tick hone']
    exact read_step_firstBlock_late
  have hstored : u.placed.world.channelsAt firstRequest.cell.home = some 1 :=
    channelsAt_placed_of_some (channelsAt_runTick_firstBlock lateRule)
  -- the only request that is due for the cell turns its block into 2
  have hdue := hstep
  rw [← immediate_eq_filter, immediate_late hrule] at hdue
  have hturned := read_step_of_due hdue (filter_deferredTo_late (hplace ▸ hfirst)) hstored 0
  exact ⟨w, u, hw, hn, hstep, hplaced, hturned⟩

end BlockAutomata.Engine.World
