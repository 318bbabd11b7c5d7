/-
  Runs: what can happen to a world from the outside.

  1. A run is a list of commands.  Besides ticks, placements, and sections that come and go, the
     owner of the terrain may do to it whatever he likes.  Exchanging the rule is kept apart, since
     it can fail and since it rebuilds the timing wheel.

  2. A tick is several steps.  `stepsAlong` lists the worlds in which the steps of a run begin, so
     that the steps of a run can be counted through, whatever happens between them.

  3. Two things are kept by every command: what is tracked lies where it belongs (`TrackedInPlace`),
     and what waits to be placed is of one form (`forall_placements_obey`).
-/
import BlockAutomata.Proofs.Engine.Phases

namespace BlockAutomata.Engine

/-- What can happen to a world without its rule being exchanged. -/
inductive Command where
  | tick
  | place (p : Cell) (channels : SlotMap)
  | load (s : Section)
  | unload (s : Section)
  | takeEvents
  /-- the owner of the terrain has changed it -/
  | reshape (terrain : Terrain)

namespace World

/-- The world after a command. -/
def obey (w : World) : Command → World
  | .tick => w.runTick.1
  | .place p channels => w.place p channels
  | .load s => w.sectionLoaded s
  | .unload s => w.sectionUnloaded s
  | .takeEvents => w.takeEvents.2
  | .reshape terrain => { w with terrain := terrain }

/-- The world after a run. -/
def after (w : World) (run : List Command) : World := run.foldl obey w

/-! ## The steps of a tick -/

/-- The world after a number of steps. -/
def stepped : Nat → World → World
  | 0, w => w
  | n + 1, w => stepped n w.step.1

/-- The worlds in which so many steps begin. -/
def stepStarts : Nat → World → List World
  | 0, _ => []
  | n + 1, w => w :: stepStarts n w.step.1

/-- The worlds in which the steps of a run begin. -/
def stepsAlong : World → List Command → List World
  | _, [] => []
  | w, .tick :: rest => stepStarts w.config.stepsPerTick w ++ stepsAlong (w.obey .tick) rest
  | w, c :: rest => stepsAlong (w.obey c) rest

/-- Counting does not disturb the steps. -/
theorem steps_fst (n : Nat) (acc : World × Report) : (steps n acc).1 = stepped n acc.1 := by
  induction n generalizing acc with
  | zero => rfl
  | succ n ih =>
    show (steps n (acc.1.step.1, acc.2.add acc.1.step.2)).1 = _
    rw [ih]
    rfl

/-- After its steps, a tick only moves the time on and keeps a report. -/
theorem runTick_fst (w : World) :
    w.runTick.1 =
      { stepped w.config.stepsPerTick w with
        history := w.runTick.1.history
        tick := (stepped w.config.stepsPerTick w).tick + 1 } := by
  have h := steps_fst w.config.stepsPerTick (w, Report.ofTick w.tick)
  show { (steps w.config.stepsPerTick (w, Report.ofTick w.tick)).1 with
    history := w.runTick.1.history
    tick := (steps w.config.stepsPerTick (w, Report.ofTick w.tick)).1.tick + 1 } = _
  rw [h]

theorem channelsAt_runTick (w : World) (s : Section) :
    w.runTick.1.channelsAt s = (stepped w.config.stepsPerTick w).channelsAt s := by
  rw [runTick_fst]
  rfl

theorem wheel_runTick (w : World) :
    w.runTick.1.wheel = (stepped w.config.stepsPerTick w).wheel := by
  rw [runTick_fst]

theorem placements_runTick (w : World) :
    w.runTick.1.placements = (stepped w.config.stepsPerTick w).placements := by
  rw [runTick_fst]

theorem read_runTick (w : World) (p : Cell) (slot : Nat) :
    w.runTick.1.read p slot = (stepped w.config.stepsPerTick w).read p slot := by
  rw [runTick_fst]
  rfl

theorem tracks_runTick (w : World) (p : Cell) :
    w.runTick.1.tracks p = (stepped w.config.stepsPerTick w).tracks p := by
  rw [runTick_fst]
  rfl

/-- What every step keeps, several steps keep. -/
theorem stepped_invariant {Keeps : World → Prop} (hstep : ∀ w, Keeps w → Keeps w.step.1) (n : Nat)
    {w : World} (h : Keeps w) : Keeps (stepped n w) := by
  induction n generalizing w with
  | zero => exact h
  | succ n ih => exact ih (hstep w h)

/-- What every command of a run and every step keeps holds wherever a step of the run begins. -/
theorem forall_mem_stepsAlong {Keeps : World → Prop} {run : List Command}
    (hobey : ∀ c ∈ run, ∀ w, Keeps w → Keeps (w.obey c)) (hstep : ∀ w, Keeps w → Keeps w.step.1)
    {w : World} (h : Keeps w) : ∀ u ∈ w.stepsAlong run, Keeps u := by
  have hstarts : ∀ (n : Nat) (w : World), Keeps w → ∀ u ∈ stepStarts n w, Keeps u := by
    intro n
    induction n with
    | zero => exact fun _ _ u hu => absurd hu List.not_mem_nil
    | succ n ih =>
      intro w hw u hu
      rcases List.mem_cons.1 hu with rfl | hu
      · exact hw
      · exact ih w.step.1 (hstep w hw) u hu
  induction run generalizing w with
  | nil => exact fun u hu => absurd hu List.not_mem_nil
  | cons c rest ih =>
    intro u hu
    rw [List.forall_mem_cons] at hobey
    have hrest := ih hobey.2 (hobey.1 w h)
    cases c with
    | tick =>
      rcases List.mem_append.1 hu with hu | hu
      · exact hstarts _ w h u hu
      · exact hrest u hu
    | place p channels => exact hrest u hu
    | load s => exact hrest u hu
    | unload s => exact hrest u hu
    | takeEvents => exact hrest u hu
    | reshape terrain => exact hrest u hu

/-! ## A new world -/

/-- A world that takes over the loaded sections is a new world to which they were announced. -/
theorem exists_of_ofLoaded {terrain : Terrain} {rule : LocalRule} {config : Config} {w : World}
    (h : ofLoaded terrain rule config = .ok w) :
    ∃ w₀, ofTerrain terrain rule config = .ok w₀ ∧
      terrain.populatedSections.foldl sectionLoaded w₀ = w := by
  rw [ofLoaded] at h
  cases hnew : ofTerrain terrain rule config with
  | error e => rw [hnew] at h; cases h
  | ok w₀ => rw [hnew] at h; exact ⟨w₀, rfl, Except.ok.inj h⟩

/-- What a new world looks like. -/
theorem eq_of_ofTerrain {terrain : Terrain} {rule : LocalRule} {config : Config} {w : World}
    (h : ofTerrain terrain rule config = .ok w) :
    w = ⟨terrain, rule, config, OrderedMap.empty, TimingWheel.ofSize config.wheelSize, [], #[], 0,
        []⟩ ∧
      2 ≤ config.wheelSize := by
  unfold ofTerrain Config.check at h
  split at h
  · cases h
  · rename_i hsize
    split at h
    · cases h
    · split at h
      · cases h
      · exact ⟨(Except.ok.inj h).symm, Nat.le_of_not_lt hsize⟩

/-! ## Loading a section -/

/-- What waking the cube around a cell keeps, seeding keeps. -/
theorem seed_induction {w : World} {motive : World → Prop}
    (hwake : ∀ u p, motive u → motive (u.wake p Neighborhood.moore3dSelf)) (h : motive w)
    (s : Section) : motive (w.seed s) := by
  have hfold : ∀ (cells : List Cell) (u : World), motive u →
      motive (cells.foldl (fun u p => u.wake p Neighborhood.moore3dSelf) u) := by
    intro cells
    induction cells with
    | nil => exact fun _ hu => hu
    | cons p rest ih =>
      intro u hu
      rw [List.foldl_cons]
      exact ih _ (hwake u p hu)
  unfold seed
  exact hfold (w.seeds s) w h

/-- Seeding a section changes nothing but the sections. -/
theorem seed_eq (w : World) (s : Section) :
    w.seed s = { w with sections := (w.seed s).sections } :=
  seed_induction (motive := fun u => u = { w with sections := u.sections })
    (fun u p hu => by rw [wake_eq, hu]) rfl s

theorem sectionLoaded_eq (w : World) (s : Section) :
    w.sectionLoaded s = { w with sections := (w.sectionLoaded s).sections } := by
  unfold sectionLoaded
  split
  · rfl
  · split
    · exact seed_eq _ s
    · exact seed_eq _ s

/-- A new world, whether it has taken over loaded sections or not: nothing is in it but these
    sections. -/
theorem eq_of_new {terrain : Terrain} {rule : LocalRule} {config : Config} {w : World}
    (h : ofTerrain terrain rule config = .ok w ∨ ofLoaded terrain rule config = .ok w) :
    w = ⟨terrain, rule, config, w.sections, TimingWheel.ofSize config.wheelSize, [], #[], 0, []⟩ ∧
      2 ≤ config.wheelSize := by
  have hfold : ∀ (sections : List Section) (u : World),
      sections.foldl sectionLoaded u =
        { u with sections := (sections.foldl sectionLoaded u).sections } := by
    intro sections
    induction sections with
    | nil => exact fun _ => rfl
    | cons s rest ih =>
      intro u
      rw [List.foldl_cons, ih, sectionLoaded_eq]
  rcases h with h | h
  · obtain ⟨heq, hsize⟩ := eq_of_ofTerrain h
    exact ⟨by rw [heq], hsize⟩
  · obtain ⟨w₀, hnew, rfl⟩ := exists_of_ofLoaded h
    obtain ⟨heq, hsize⟩ := eq_of_ofTerrain hnew
    refine ⟨?_, hsize⟩
    rw [hfold, heq]

theorem TrackedInPlace.seed {w : World} (h : w.TrackedInPlace) (s : Section) :
    (w.seed s).TrackedInPlace :=
  seed_induction (fun _ p hu => hu.wake p Neighborhood.moore3dSelf) h s

theorem TrackedInPlace.sectionLoaded {w : World} (h : w.TrackedInPlace) (s : Section) :
    (w.sectionLoaded s).TrackedInPlace := by
  unfold World.sectionLoaded
  split
  · exact h
  · refine TrackedInPlace.seed ?_ s
    intro a storage ha i hi
    split at ha
    · rw [OrderedMap.find?_modify] at ha
      split at ha
      · rename_i has
        subst has
        obtain ⟨old, hold, rfl⟩ := Option.map_eq_some_iff.1 ha
        exact h _ old hold i hi
      · exact h a storage ha i hi
    · rw [OrderedMap.find?_insert] at ha
      split at ha
      · obtain rfl := Option.some.inj ha
        rw [newStorage, Storage.tracked_ofBlocks, CellSet.contains_empty] at hi
        cases hi
      · exact h a storage ha i hi

/-! ## Unloading a section -/

theorem find?_sectionUnloaded (w : World) (s a : Section) :
    (w.sectionUnloaded s).sections.find? a = if a = s then none else w.sections.find? a :=
  OrderedMap.find?_swapRemove w.sections s a

theorem channelsAt_sectionUnloaded (w : World) (s a : Section) :
    (w.sectionUnloaded s).channelsAt a = if a = s then none else w.channelsAt a := by
  rw [channelsAt, find?_sectionUnloaded]
  split
  · rfl
  · rw [channelsAt]

/-! ## What commands keep -/

theorem config_step (w : World) : w.step.1.config = w.config := by
  rw [step_eq, flush_frame, Turn.applyAll_frame, Turn.applyAll_frame, ready_frame, placed_frame]

/-- The settings never change. -/
theorem config_obey (w : World) (c : Command) : (w.obey c).config = w.config := by
  cases c with
  | tick =>
    have hsame : ∀ u : World, u.config = w.config → u.step.1.config = w.config :=
      fun u hu => u.config_step.trans hu
    show w.runTick.1.config = w.config
    rw [runTick_fst]
    exact stepped_invariant hsame w.config.stepsPerTick rfl
  | place p channels => rfl
  | load s =>
    show (w.sectionLoaded s).config = w.config
    rw [sectionLoaded_eq]
  | unload s => rfl
  | takeEvents => rfl
  | reshape terrain => rfl

theorem config_after (w : World) (run : List Command) : (w.after run).config = w.config := by
  unfold World.after
  induction run generalizing w with
  | nil => rfl
  | cons c rest ih => exact (ih (w.obey c)).trans (config_obey w c)

/-- With one step in each tick, a tick leaves what the step leaves. -/
theorem read_obey_tick {w : World} (hone : w.config.stepsPerTick = 1) (p : Cell) (slot : Nat) :
    (w.obey .tick).read p slot = w.step.1.read p slot := by
  show w.runTick.1.read p slot = _
  rw [read_runTick, hone]
  rfl

/-- How many ticks a run has. -/
def ticksIn (run : List Command) : Nat :=
  run.countP fun c => match c with
    | .tick => true
    | _ => false

/-- In a run with one step in each tick, each step begins in the world that the commands before its
    tick leave. -/
theorem getElem?_stepsAlong {w : World} (hone : w.config.stepsPerTick = 1)
    (before after : List Command) :
    (w.stepsAlong (before ++ .tick :: after))[ticksIn before]? = some (w.after before) := by
  induction before generalizing w with
  | nil =>
    show (stepStarts w.config.stepsPerTick w ++ _)[0]? = some w
    rw [hone]
    rfl
  | cons c rest ih =>
    have hrest := @ih (w.obey c) ((congrArg Config.stepsPerTick (config_obey w c)).trans hone)
    cases c with
    | tick =>
      have hcount : ticksIn (.tick :: rest) = ticksIn rest + 1 := List.countP_cons_of_pos rfl
      show (stepStarts w.config.stepsPerTick w ++ _)[_]? = _
      rw [hone, hcount]
      exact hrest
    | place p channels => exact hrest
    | load s => exact hrest
    | unload s => exact hrest
    | takeEvents => exact hrest
    | reshape terrain => exact hrest

theorem TrackedInPlace.flush {t : Turn} (h : t.world.TrackedInPlace) :
    t.flush.1.TrackedInPlace :=
  h

theorem TrackedInPlace.step (w : World) : w.step.1.TrackedInPlace := by
  rw [step_eq]
  exact ((w.trackedInPlace_ready.applyAll w.immediate).applyAll w.fired).flush

theorem TrackedInPlace.obey {w : World} (h : w.TrackedInPlace) (c : Command) :
    (w.obey c).TrackedInPlace := by
  cases c with
  | tick =>
    have hsteps := stepped_invariant (fun w _ => TrackedInPlace.step w) w.config.stepsPerTick h
    show w.runTick.1.TrackedInPlace
    rw [runTick_fst]
    exact hsteps
  | place p channels => exact h
  | load s => exact h.sectionLoaded s
  | unload s =>
    intro a storage ha i hi
    have ha : (w.sectionUnloaded s).sections.find? a = some storage := ha
    rw [find?_sectionUnloaded] at ha
    split at ha
    · cases ha
    · exact h a storage ha i hi
  | takeEvents => exact h
  | reshape terrain => exact h

/-- Whether every waiting placement wakes the cube around its cell. -/
def PlacementsWake (w : World) : Prop :=
  ∀ r ∈ w.placements, r.action.wake = Neighborhood.moore3dSelf

theorem placements_step (w : World) : w.step.1.placements = [] := by
  rw [step_eq, flush_frame, Turn.applyAll_frame, Turn.applyAll_frame, ready_frame, placed_frame]

theorem placements_obey_tick {w : World} (hone : w.config.stepsPerTick = 1) :
    (w.obey .tick).placements = [] := by
  show w.runTick.1.placements = []
  rw [placements_runTick, hone]
  exact w.placements_step

theorem PlacementsWake.step (w : World) : w.step.1.PlacementsWake := by
  rw [PlacementsWake, placements_step]
  exact fun r hr => absurd hr List.not_mem_nil

/-- Commands add placements of one form only, so what holds of these holds of all that wait. -/
theorem forall_placements_obey {P : Action → Prop}
    (hplace : ∀ channels, P { Action.write channels with reset := true }) {w : World}
    (h : ∀ r ∈ w.placements, P r.action) (c : Command) :
    ∀ r ∈ (w.obey c).placements, P r.action := by
  cases c with
  | tick =>
    have hstep : ∀ u : World, (∀ r ∈ u.placements, P r.action) →
        ∀ r ∈ u.step.1.placements, P r.action := by
      intro u _ r hr
      rw [placements_step] at hr
      exact absurd hr List.not_mem_nil
    have hsteps := stepped_invariant hstep w.config.stepsPerTick h
    show ∀ r ∈ w.runTick.1.placements, P r.action
    rw [runTick_fst]
    exact hsteps
  | place p channels =>
    intro r hr
    rcases List.mem_append.1 hr with hr | hr
    · exact h r hr
    · rw [List.mem_singleton.1 hr]
      exact hplace channels
  | load s =>
    show ∀ r ∈ (w.sectionLoaded s).placements, P r.action
    rw [sectionLoaded_eq]
    exact h
  | unload s => exact h
  | takeEvents => exact h
  | reshape terrain => exact h

theorem PlacementsWake.obey {w : World} (h : w.PlacementsWake) (c : Command) :
    (w.obey c).PlacementsWake :=
  forall_placements_obey (P := fun a => a.wake = Neighborhood.moore3dSelf) (fun _ => rfl) h c

end World

end BlockAutomata.Engine
