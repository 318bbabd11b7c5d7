/-
  The phases of a step.

  1. A step is cut at the points that matter: the turn after the placements (`placed`), what the
     rule then asks for (`asked`), the turn after scheduling (`scheduled`), and the turn in which
     the due requests are about to be applied (`ready`).  `step_eq` puts a step together from these.

  2. Between `placed` and `ready` nothing can be read differently; only the tracked cells and the
     wheel change.

  3. Each cell is on its own: what due requests make of a cell with storage is what the requests for
     this very cell make of its channels, one after the other (`read_applyAll`).
-/
import BlockAutomata.Proofs.Engine.Application
import BlockAutomata.Proofs.Engine.Wheel

namespace BlockAutomata.Engine

namespace Turn

/-! ## Several requests -/

theorem applyAll_append (t : Turn) (l₁ l₂ : List Request) :
    t.applyAll (l₁ ++ l₂) = (t.applyAll l₁).applyAll l₂ :=
  List.foldl_append

/-- What every request keeps, many requests keep. -/
theorem applyAll_induction {motive : Turn → Prop} (hstep : ∀ t r, motive t → motive (t.apply r).2)
    {t : Turn} (h : motive t) (due : List Request) : motive (t.applyAll due) := by
  induction due generalizing t with
  | nil => exact h
  | cons r rest ih => exact ih (hstep t r h)

theorem applyAll_frame (t : Turn) (due : List Request) :
    (t.applyAll due).world =
      { t.world with
        sections := (t.applyAll due).world.sections
        terrain := (t.applyAll due).world.terrain
        events := (t.applyAll due).world.events } := by
  refine applyAll_induction (motive := fun u => u.world =
    { t.world with
      sections := u.world.sections
      terrain := u.world.terrain
      events := u.world.events }) ?_ rfl due
  intro u r hu
  rw [apply_frame, hu]

theorem rule_applyAll (t : Turn) (due : List Request) :
    (t.applyAll due).world.rule = t.world.rule := by
  rw [applyAll_frame]

theorem isLoaded_applyAll (t : Turn) (due : List Request) (s : Section) :
    (t.applyAll due).world.terrain.isLoaded s = t.world.terrain.isLoaded s := by
  refine applyAll_induction
    (motive := fun u => u.world.terrain.isLoaded s = t.world.terrain.isLoaded s) ?_ rfl due
  intro u r hu
  rw [isLoaded_apply, hu]

theorem batches_applyAll (t : Turn) (due : List Request) :
    (t.applyAll due).world.terrain.batches = t.world.terrain.batches := by
  refine applyAll_induction
    (motive := fun u => u.world.terrain.batches = t.world.terrain.batches) ?_ rfl due
  intro u r hu
  rw [batches_apply, hu]

theorem report_applyAll_frame (t : Turn) (due : List Request) :
    (t.applyAll due).report =
      { t.report with
        modified := (t.applyAll due).report.modified
        applied := (t.applyAll due).report.applied
        stale := (t.applyAll due).report.stale
        events := (t.applyAll due).report.events } := by
  refine applyAll_induction (motive := fun u => u.report =
    { t.report with
      modified := u.report.modified
      applied := u.report.applied
      stale := u.report.stale
      events := u.report.events }) ?_ rfl due
  intro u r hu
  rw [report_apply_frame, hu]

/-- A section with storage keeps it, with as many channels. -/
theorem channelsAt_apply_of_some {t : Turn} {s : Section} {n : Nat}
    (h : t.world.channelsAt s = some n) (r : Request) :
    (t.apply r).2.world.channelsAt s = some n := by
  rw [channelsAt_apply, if_neg, h]
  rintro ⟨hnone, -⟩
  rw [h] at hnone
  cases hnone

theorem channelsAt_applyAll_of_some {t : Turn} {s : Section} {n : Nat}
    (h : t.world.channelsAt s = some n) (due : List Request) :
    (t.applyAll due).world.channelsAt s = some n :=
  applyAll_induction (motive := fun u => u.world.channelsAt s = some n)
    (fun _ r hu => channelsAt_apply_of_some hu r) h due

/-- A cell that no request is for keeps its channels. -/
theorem read_applyAll_of_forall_ne {t : Turn} {due : List Request} {p : Cell}
    (h : ∀ r ∈ due, r.cell ≠ p) (slot : Nat) :
    (t.applyAll due).world.read p slot = t.world.read p slot := by
  induction due generalizing t with
  | nil => rfl
  | cons r rest ih =>
    rw [List.forall_mem_cons] at h
    show (((t.apply r).2).applyAll rest).world.read p slot = _
    rw [ih h.2, read_apply, if_neg (Ne.symm h.1)]

/-- What the due requests make of a cell with storage is what those for this cell make of its
    channels, in order. -/
theorem read_applyAll {t : Turn} {p : Cell} {n : Nat} (h : t.world.channelsAt p.home = some n)
    (due : List Request) :
    (t.applyAll due).world.read p =
      ((due.filter fun r => r.cell = p).map Request.action).foldl (Action.attempt n)
        (t.world.read p) := by
  induction due generalizing t with
  | nil => rfl
  | cons r rest ih =>
    have hstep := ih (channelsAt_apply_of_some h r)
    refine hstep.trans ?_
    by_cases hr : r.cell = p
    · have hread : (t.apply r).2.world.read p = r.action.attempt n (t.world.read p) := by
        funext slot
        rw [read_apply, if_pos hr.symm, World.attempted, hr, h]
        rfl
      rw [hread, List.filter_cons_of_pos (by simpa using hr), List.map_cons, List.foldl_cons]
    · have hread : (t.apply r).2.world.read p = t.world.read p := by
        funext slot
        rw [read_apply, if_neg (Ne.symm hr)]
      rw [hread, List.filter_cons_of_neg (by simpa using hr)]

end Turn

namespace World

theorem TrackedInPlace.apply {t : Turn} (h : t.world.TrackedInPlace) (r : Request) :
    (t.apply r).2.world.TrackedInPlace := by
  cases hr : t.world.admits r with
  | false => rw [Turn.apply_of_not_admits hr]; exact h
  | true =>
    rw [Turn.apply_of_admits hr]
    refine TrackedInPlace.wake ?_ r.cell r.action.wake
    intro s storage hs i hi
    rw [rewritten, OrderedMap.find?_modify] at hs
    split at hs
    · rename_i hhome
      subst hhome
      obtain ⟨old, hold, rfl⟩ := Option.map_eq_some_iff.1 hs
      rw [Storage.tracked_perform] at hi
      exact h _ old hold i hi
    · exact h s storage hs i hi

theorem TrackedInPlace.applyAll {t : Turn} (h : t.world.TrackedInPlace) (due : List Request) :
    (t.applyAll due).world.TrackedInPlace :=
  Turn.applyAll_induction (motive := fun u => u.world.TrackedInPlace)
    (fun _ r hu => TrackedInPlace.apply hu r) h due

end World

namespace Turn

/-! ## Placements -/

/-- The turn after the section of a placement got storage. -/
def provided (t : Turn) (r : Request) : Turn :=
  { t with world := t.world.provide r.cell.home }

/-- A placement is a request that is applied once its section has storage. -/
theorem applyPlacement_eq (t : Turn) (r : Request) :
    t.applyPlacement r =
      { ((t.provided r).apply r).2 with
        report :=
          if (t.provided r).world.admits r then
            { ((t.provided r).apply r).2.report with
              placements := ((t.provided r).apply r).2.report.placements + 1 }
          else ((t.provided r).apply r).2.report } := by
  rw [← apply_fst]
  unfold applyPlacement
  show (if ((t.provided r).apply r).1 then _ else _) = _
  cases ((t.provided r).apply r).1 <;> rfl

theorem world_applyPlacement (t : Turn) (r : Request) :
    (t.applyPlacement r).world = ((t.provided r).apply r).2.world := by
  rw [applyPlacement_eq]

theorem report_applyPlacement_frame (t : Turn) (r : Request) :
    (t.applyPlacement r).report =
      { t.report with
        modified := (t.applyPlacement r).report.modified
        applied := (t.applyPlacement r).report.applied
        placements := (t.applyPlacement r).report.placements
        stale := (t.applyPlacement r).report.stale
        events := (t.applyPlacement r).report.events } := by
  rw [applyPlacement_eq, report_apply_frame]
  split <;> rfl

theorem applyPlacement_frame (t : Turn) (r : Request) :
    (t.applyPlacement r).world =
      { t.world with
        sections := (t.applyPlacement r).world.sections
        terrain := (t.applyPlacement r).world.terrain
        events := (t.applyPlacement r).world.events } := by
  have hworld : (t.provided r).world =
      { t.world with sections := (t.provided r).world.sections } := World.provide_eq _ _
  rw [world_applyPlacement, apply_frame, hworld]

theorem foldl_applyPlacement_frame (t : Turn) (waiting : List Request) :
    (waiting.foldl applyPlacement t).world =
      { t.world with
        sections := (waiting.foldl applyPlacement t).world.sections
        terrain := (waiting.foldl applyPlacement t).world.terrain
        events := (waiting.foldl applyPlacement t).world.events } := by
  induction waiting generalizing t with
  | nil => rfl
  | cons r rest ih => rw [List.foldl_cons, ih, applyPlacement_frame]

end Turn

/-! ## From the placements to what is due -/

namespace World

variable (w : World)

/-- The beginning of a step, when the waiting placements have been taken off the list. -/
def opening : Turn := { Turn.start w with world := { w with placements := [] } }

/-- The turn after the placements. -/
def placed : Turn := (Turn.start w).applyPlacements

/-- What the rule asks for, cell by cell, all of it answering to the world after the placements. -/
def asked : List Request := w.placed.evaluateTracked.1

/-- What is asked for without delay. -/
def immediate : List Request := w.asked.filter fun r => !r.action.waits

/-- The turn after the requests with a delay have been handed to the wheel. -/
def scheduled : Turn := (w.placed.evaluateTracked.2.dispatch w.asked).2

/-- The tasks that the wheel fires in the step. -/
def fired : List Request := w.scheduled.advance.1

/-- The turn in which the due requests are applied. -/
def ready : Turn := w.scheduled.advance.2

/-- A step applies what is immediate, then what has fired, and passes the records on. -/
theorem step_eq : w.step = ((w.ready.applyAll w.immediate).applyAll w.fired).flush := by
  rw [← Turn.applyAll_append]
  rfl

/-- Of the rest of the world, placements change the waiting list only. -/
theorem placed_frame :
    w.placed.world =
      { w with
        sections := w.placed.world.sections
        terrain := w.placed.world.terrain
        events := w.placed.world.events
        placements := [] } :=
  Turn.foldl_applyPlacement_frame _ _

/-- Where nothing waits to be placed, nothing changes. -/
theorem read_placed_of_placements_eq_nil {v : World} (hv : v.placements = []) (p : Cell)
    (slot : Nat) : v.placed.world.read p slot = v.read p slot := by
  show (v.placements.foldl Turn.applyPlacement v.opening).world.read p slot = _
  rw [hv]
  rfl

/-- What every placement keeps holds after the placements. -/
theorem placed_induction {w : World} {motive : Turn → Prop}
    (hstep : ∀ t, ∀ r ∈ w.placements, motive t → motive (t.applyPlacement r))
    (hopening : motive w.opening) : motive w.placed := by
  have hfold : ∀ (waiting : List Request) (t : Turn), (∀ r ∈ waiting, r ∈ w.placements) →
      motive t → motive (waiting.foldl Turn.applyPlacement t) := by
    intro waiting
    induction waiting with
    | nil => exact fun _ _ ht => ht
    | cons r rest ih =>
      intro t hr ht
      rw [List.forall_mem_cons] at hr
      exact ih _ hr.2 (hstep t r hr.1 ht)
  exact hfold w.placements w.opening (fun _ hr => hr) hopening

/-- Placements are counted in five places. -/
theorem report_placed_frame :
    w.placed.report =
      { Report.ofTick w.tick with
        steps := 1
        modified := w.placed.report.modified
        applied := w.placed.report.applied
        placements := w.placed.report.placements
        stale := w.placed.report.stale
        events := w.placed.report.events } := by
  refine placed_induction
    (motive := fun t => t.report =
      { Report.ofTick w.tick with
        steps := 1
        modified := t.report.modified
        applied := t.report.applied
        placements := t.report.placements
        stale := t.report.stale
        events := t.report.events }) ?_ rfl
  intro t r _ ht
  rw [Turn.report_applyPlacement_frame, ht]

theorem TrackedInPlace.placed {w : World} (h : w.TrackedInPlace) :
    w.placed.world.TrackedInPlace := by
  refine placed_induction (motive := fun t => t.world.TrackedInPlace) ?_ h
  intro t r _ ht
  rw [Turn.world_applyPlacement]
  exact TrackedInPlace.apply (ht.provide r.cell.home) r

theorem isLoaded_placed (s : Section) :
    w.placed.world.terrain.isLoaded s = w.terrain.isLoaded s := by
  refine placed_induction
    (motive := fun t => t.world.terrain.isLoaded s = w.terrain.isLoaded s) ?_ rfl
  intro t r _ ht
  rw [Turn.world_applyPlacement, Turn.isLoaded_apply, Turn.provided, terrain_provide, ht]

theorem batches_placed : w.placed.world.terrain.batches = w.terrain.batches := by
  refine placed_induction
    (motive := fun t => t.world.terrain.batches = w.terrain.batches) ?_ rfl
  intro t r _ ht
  rw [Turn.world_applyPlacement, Turn.batches_apply, Turn.provided, terrain_provide, ht]

/-- Placements only add storage. -/
theorem channelsAt_placed_of_some {w : World} {s : Section} {n : Nat}
    (h : w.channelsAt s = some n) : w.placed.world.channelsAt s = some n := by
  refine placed_induction (motive := fun t => t.world.channelsAt s = some n) ?_ h
  intro t r _ ht
  rw [Turn.world_applyPlacement]
  refine Turn.channelsAt_apply_of_some ?_ r
  rw [Turn.provided, channelsAt_provide, if_neg, ht]
  rintro ⟨rfl, hnone, -⟩
  rw [ht] at hnone
  cases hnone

theorem cell_of_mem_evaluate {v : World} {p : Cell} {r : Request} (h : r ∈ Turn.evaluate v p) :
    r.cell = p := by
  obtain ⟨a, -, rfl⟩ := List.mem_map.1 h
  rfl

/-- Of what distinct cells ask for, what one of them asks for itself. -/
theorem filter_flatMap_evaluate (v : World) {cells : List Cell} (hn : cells.Nodup) (p : Cell) :
    ((cells.flatMap (Turn.evaluate v)).filter fun r => r.cell = p) =
      if p ∈ cells then Turn.evaluate v p else [] := by
  induction cells with
  | nil => rfl
  | cons q rest ih =>
    rw [List.nodup_cons] at hn
    rw [List.flatMap_cons, List.filter_append, ih hn.2]
    by_cases hq : q = p
    · subst hq
      have hall : ((Turn.evaluate v q).filter fun r => r.cell = q) = Turn.evaluate v q :=
        List.filter_eq_self.2 fun r hr => by simpa using cell_of_mem_evaluate hr
      rw [hall, if_neg hn.1, if_pos List.mem_cons_self, List.append_nil]
    · have hnone : ((Turn.evaluate v q).filter fun r => r.cell = p) = [] :=
        List.filter_eq_nil_iff.2 fun r hr => by simpa [cell_of_mem_evaluate hr] using hq
      rw [hnone, List.nil_append]
      simp only [List.mem_cons, Ne.symm hq, false_or]

/-- A tracked cell is asked once, and no other cell is asked. -/
theorem filter_asked {w : World} (h : w.TrackedInPlace) (p : Cell) :
    (w.asked.filter fun r => r.cell = p) =
      if w.placed.world.tracks p then Turn.evaluate w.placed.world p else [] := by
  have hmem := mem_cellsToEvaluate (p := p) h.placed
  show ((List.flatMap _ _).filter _) = _
  rw [filter_flatMap_evaluate _ (nodup_cellsToEvaluate h.placed)]
  simp only [hmem]

theorem tracks_of_mem_asked {w : World} (h : w.TrackedInPlace) {r : Request} (hr : r ∈ w.asked) :
    w.placed.world.tracks r.cell = true ∧
      r.action ∈ (w.placed.world.rule.outcome (w.placed.world.viewAt r.cell)).actions := by
  obtain ⟨p, hp, hr⟩ := List.mem_flatMap.1 hr
  obtain ⟨a, ha, rfl⟩ := List.mem_map.1 hr
  exact ⟨(mem_cellsToEvaluate h.placed).1 hp, ha⟩

theorem mem_asked {w : World} (h : w.TrackedInPlace) {p : Cell}
    (hp : w.placed.world.tracks p = true) {r : Request}
    (hr : r ∈ Turn.evaluate w.placed.world p) : r ∈ w.asked :=
  List.mem_flatMap.2 ⟨p, (mem_cellsToEvaluate h.placed).2 hp, hr⟩

/-- Handing requests to the wheel changes the wheel and two counts. -/
theorem foldl_schedule_frame (t : Turn) (l : List Request) :
    (l.foldl Turn.schedule t) =
      { world := { t.world with wheel := (l.foldl Turn.schedule t).world.wheel }
        changes := t.changes
        report :=
          { t.report with
            scheduled := (l.foldl Turn.schedule t).report.scheduled
            rejected := (l.foldl Turn.schedule t).report.rejected } } := by
  induction l generalizing t with
  | nil => rfl
  | cons r rest ih =>
    have hr : t.schedule r =
        { world := { t.world with wheel := (t.schedule r).world.wheel }
          changes := t.changes
          report :=
            { t.report with
              scheduled := (t.schedule r).report.scheduled
              rejected := (t.schedule r).report.rejected } } := by
      unfold Turn.schedule
      split <;> rfl
    rw [List.foldl_cons, ih, hr]

/-- When the due requests are applied, nothing is tracked, and the wheel has moved on. -/
theorem ready_frame :
    w.ready.world =
      { w.placed.world with
        sections := w.placed.world.sections.map fun _ s => s.untrackAll
        wheel := w.ready.world.wheel } := by
  have hscheduled : w.scheduled.world =
      { w.placed.evaluateTracked.2.world with wheel := w.scheduled.world.wheel } :=
    congrArg Turn.world (foldl_schedule_frame _ _)
  show { w.scheduled.world with wheel := w.ready.world.wheel } = _
  rw [hscheduled]
  rfl

theorem rule_ready : w.ready.world.rule = w.placed.world.rule := by rw [ready_frame]

theorem terrain_ready : w.ready.world.terrain = w.placed.world.terrain := by rw [ready_frame]

theorem events_ready : w.ready.world.events = w.placed.world.events := by rw [ready_frame]

theorem changes_ready : w.ready.changes = w.placed.changes := by
  have h := congrArg Turn.changes
    (foldl_schedule_frame w.placed.evaluateTracked.2 (w.asked.filter fun r => r.action.waits))
  exact h

theorem find?_ready (s : Section) :
    w.ready.world.sections.find? s =
      (w.placed.world.sections.find? s).map Storage.untrackAll := by
  rw [ready_frame]
  exact OrderedMap.find?_map _ _ _

theorem channelsAt_ready (s : Section) :
    w.ready.world.channelsAt s = w.placed.world.channelsAt s := by
  rw [channelsAt, find?_ready, Option.map_map]
  rfl

theorem read_ready (p : Cell) (slot : Nat) :
    w.ready.world.read p slot = w.placed.world.read p slot := by
  rw [read, read, readCell, readCell, find?_ready, terrain_ready]
  cases w.placed.world.sections.find? p.home <;> rfl

theorem not_tracks_ready (p : Cell) : w.ready.world.tracks p = false := by
  rw [tracks, find?_ready]
  cases w.placed.world.sections.find? p.home with
  | none => rfl
  | some storage => exact CellSet.contains_empty _

theorem trackedInPlace_ready : w.ready.world.TrackedInPlace := by
  intro s storage hs i hi
  rw [find?_ready] at hs
  obtain ⟨old, -, rfl⟩ := Option.map_eq_some_iff.1 hs
  rw [Storage.untrackAll, CellSet.contains_empty] at hi
  cases hi

/-- What is asked for makes of a tracked cell what the actions of its outcome make of its channels,
    in order. -/
theorem read_asked_of_tracks {w : World} (hplace : w.TrackedInPlace) {p : Cell}
    (hp : w.placed.world.tracks p = true) {n : Nat}
    (hn : w.placed.world.channelsAt p.home = some n) :
    (w.ready.applyAll w.asked).world.read p =
      (w.placed.world.rule.outcome (w.placed.world.viewAt p)).actions.foldl (Action.attempt n)
        (w.placed.world.read p) := by
  have hready : w.ready.world.channelsAt p.home = some n := by rw [channelsAt_ready, hn]
  have hactions : (Turn.evaluate w.placed.world p).map Request.action =
      (w.placed.world.rule.outcome (w.placed.world.viewAt p)).actions := by
    rw [Turn.evaluate, List.map_map]
    exact List.map_id _
  rw [Turn.read_applyAll hready, filter_asked hplace, hp, if_pos rfl, hactions,
    funext (w.read_ready p)]

/-- What is asked for leaves a cell alone that is not tracked. -/
theorem read_asked_of_not_tracks {w : World} (hplace : w.TrackedInPlace) {p : Cell}
    (hp : w.placed.world.tracks p = false) (slot : Nat) :
    (w.ready.applyAll w.asked).world.read p slot = w.placed.world.read p slot := by
  have hnone : ∀ r ∈ w.asked, r.cell ≠ p := by
    rintro r hr rfl
    rw [(tracks_of_mem_asked hplace hr).1] at hp
    cases hp
  rw [Turn.read_applyAll_of_forall_ne hnone, read_ready]

/-! ## The end of a step -/

section

variable (t : Turn)

theorem report_flush :
    t.flush.2 = { t.report with flushed := t.report.flushed + t.changes.size } := rfl

theorem flush_frame :
    t.flush.1 = { t.world with terrain := t.flush.1.terrain } := rfl

/-- Passing batches on changes neither blocks nor loaded sections. -/
theorem terrain_flush :
    t.flush.1.terrain = { t.world.terrain with batches := t.flush.1.terrain.batches } := by
  have hfold : ∀ (l : List (Section × Array Int64)) (terrain : Terrain),
      (l.foldl (fun terrain e => terrain.receive e.1 e.2.toList) terrain) =
        { terrain with
          batches :=
            (l.foldl (fun terrain e => terrain.receive e.1 e.2.toList) terrain).batches } := by
    intro l
    induction l with
    | nil => intro _; rfl
    | cons e rest ih => intro terrain; rw [List.foldl_cons, ih]; rfl
  exact hfold _ _

/-- Each section with changes gets a batch. -/
theorem batches_flush :
    t.flush.1.terrain.batches.toList =
      t.world.terrain.batches.toList ++ t.changes.entries.map fun e => ⟨e.1, e.2.toList⟩ := by
  have hfold : ∀ (l : List (Section × Array Int64)) (terrain : Terrain),
      (l.foldl (fun terrain e => terrain.receive e.1 e.2.toList) terrain).batches.toList =
        terrain.batches.toList ++ l.map fun e => ⟨e.1, e.2.toList⟩ := by
    intro l
    induction l with
    | nil => intro _; simp
    | cons e rest ih => intro terrain; rw [List.foldl_cons, ih]; simp [Terrain.receive]
  exact hfold _ _

theorem block_flush (p : Cell) : t.flush.1.terrain.block p = t.world.terrain.block p := by
  rw [terrain_flush]
  rfl

theorem isLoaded_flush (s : Section) :
    t.flush.1.terrain.isLoaded s = t.world.terrain.isLoaded s := by
  rw [terrain_flush]
  rfl

theorem channelsAt_flush (s : Section) : t.flush.1.channelsAt s = t.world.channelsAt s := rfl

theorem rule_flush : t.flush.1.rule = t.world.rule := rfl

theorem tracks_flush (p : Cell) : t.flush.1.tracks p = t.world.tracks p := rfl

theorem read_flush (p : Cell) (slot : Nat) : t.flush.1.read p slot = t.world.read p slot := by
  rw [read, read, readCell, readCell, block_flush]
  rfl

end

/-! ## The whole step -/

/-- The turn in which everything due has been applied. -/
def done (w : World) : Turn := w.ready.applyAll (w.immediate ++ w.fired)

theorem step_eq_flush (w : World) : w.step = w.done.flush := by
  rw [step_eq, done, Turn.applyAll_append]

theorem isLoaded_step (w : World) (s : Section) :
    w.step.1.terrain.isLoaded s = w.terrain.isLoaded s := by
  rw [step_eq_flush, isLoaded_flush, done, Turn.isLoaded_applyAll, terrain_ready, isLoaded_placed]

/-- Storage that is there after the placements is there after the step. -/
theorem channelsAt_step_of_some {w : World} {s : Section} {n : Nat}
    (h : w.placed.world.channelsAt s = some n) : w.step.1.channelsAt s = some n := by
  have hready : w.ready.world.channelsAt s = some n := by rw [channelsAt_ready, h]
  rw [step_eq_flush, channelsAt_flush]
  exact Turn.channelsAt_applyAll_of_some hready (w.immediate ++ w.fired)

end World

end BlockAutomata.Engine
