/-
  Pushed blocks are lost only where they crowd each other out.

  1. A move takes two cells, so it goes wrong if only one of them is evaluated.  The invariant is
     that every cell whose block pushes is tracked together with the cell in front of it
     (`PushersTracked`).  Whoever writes a block or a push wakes the cube around it, and whoever
     pushes without moving wakes itself and the cell in front.

  2. Under the invariant a step does to every cell what its outcome says, tracked or not
     (`read_step_eq_settled`), so each step loses exactly the crowded-out blocks (`census_step`).

  3. The invariant holds from the beginning, since new storage has no pushes in it, and along every
     run of placements and ticks (`census_along_run`).

  4. Two blocks that push into the same air from both sides show that blocks do get lost
     (`exists_block_lost`).
-/
import BlockAutomata.Proofs.Engine.Laziness
import BlockAutomata.Proofs.Engine.Mirror
import BlockAutomata.Proofs.Native.Moves

namespace BlockAutomata.Engine.World

open Native Native.Sliding

/-! ## Whoever pushes is tracked -/

/-- Every cell whose block pushes is tracked, and so is the cell in front of it. -/
def PushersTracked (w : World) : Prop :=
  ∀ p d, driving (w.viewAt p) = some d → w.tracks p = true ∧ w.tracks (p.move d.offset) = true

/-- Whether a block pushes depends on the channels of its cell. -/
theorem driving_viewAt_congr {w w' : World} {p : Cell}
    (h : ∀ slot, w'.read p slot = w.read p slot) :
    driving (w'.viewAt p) = driving (w.viewAt p) := by
  simp only [driving, pushing, own_viewAt, h]

theorem offset_mem_moore3dSelf (d : Direction) : d.offset ∈ Neighborhood.moore3dSelf := by
  cases d <;> decide

/-- A request that wakes the cube around its cell keeps the invariant, whatever it writes. -/
theorem PushersTracked.apply {t : Turn} (h : t.world.PushersTracked)
    (hloaded : ∀ s, t.world.terrain.isLoaded s = true) {r : Request}
    (hwake : r.action.wake = Neighborhood.moore3dSelf) :
    (t.apply r).2.world.PushersTracked := by
  intro p d hd
  cases hadmits : t.world.admits r with
  | false =>
    rw [Turn.apply_of_not_admits hadmits] at hd ⊢
    exact h p d hd
  | true =>
    by_cases hp : p = r.cell
    · have hwoken : ∀ o ∈ Neighborhood.moore3dSelf,
          (t.apply r).2.world.tracks (p.move o) = true := by
        intro o ho
        refine (Turn.tracks_apply t r _).2 (Or.inr ⟨hadmits, ?_, o, ?_, by rw [hp]⟩)
        · rw [keeps, hloaded, Bool.or_true]
        · rw [hwake]
          exact ho
      have hself := hwoken Offset.zero (by decide)
      rw [Cell.move_zero] at hself
      exact ⟨hself, hwoken _ (offset_mem_moore3dSelf d)⟩
    · have hsame : ∀ slot, (t.apply r).2.world.read p slot = t.world.read p slot := fun slot => by
        rw [Turn.read_apply, if_neg hp]
      rw [driving_viewAt_congr hsame] at hd
      obtain ⟨hself, hfront⟩ := h p d hd
      exact ⟨Turn.tracks_apply_of_tracks hself r, Turn.tracks_apply_of_tracks hfront r⟩

theorem PushersTracked.provide {w : World} (h : w.PushersTracked) (s : Section) :
    (w.provide s).PushersTracked := by
  intro p d hd
  rw [driving_viewAt_congr (w.read_provide s p)] at hd
  rw [tracks_provide, tracks_provide]
  exact h p d hd

theorem PushersTracked.placed {w : World} (h : w.PushersTracked)
    (hloaded : ∀ s, w.terrain.isLoaded s = true) (hwake : w.PlacementsWake) :
    w.placed.world.PushersTracked := by
  refine (placed_induction (w := w) (motive := fun t => t.world.PushersTracked ∧
    ∀ s, t.world.terrain.isLoaded s = true) ?_ ⟨h, hloaded⟩).1
  intro t r hr ht
  have hprovided : ∀ s, (t.provided r).world.terrain.isLoaded s = true := fun s => by
    rw [Turn.provided, terrain_provide]
    exact ht.2 s
  rw [Turn.world_applyPlacement]
  refine ⟨PushersTracked.apply (ht.1.provide r.cell.home) hprovided (hwake r hr), fun s => ?_⟩
  rw [Turn.isLoaded_apply, hprovided]

/-! ## A step -/

/-- The rule is running in a loaded world, and whoever pushes is tracked. -/
structure Slides (w : World) : Prop where
  rule_eq : w.rule = Sliding.rule
  loaded : ∀ s, w.terrain.isLoaded s = true
  mirrors : Mirrors [] w
  inPlace : w.TrackedInPlace
  placementsWake : w.PlacementsWake
  wheel : ∀ d < w.wheel.size, w.wheel.pending d = []
  pushersTracked : w.PushersTracked

section

variable {w : World} {p : Cell}

/-- The actions that the rule asks for at a cell. -/
theorem Slides.actions_eq (h : w.Slides) (p : Cell) :
    (w.placed.world.rule.outcome (w.placed.world.viewAt p)).actions =
      (answer (w.placed.world.viewAt p)).toList := by
  rw [(Grows.placed w).rule, h.rule_eq]
  exact actions_outcome _

/-- What is asked for at a cell is its answer. -/
theorem Slides.answer_of_mem_asked (h : w.Slides) {r : Request} (hr : r ∈ w.asked) :
    answer (w.placed.world.viewAt r.cell) = some r.action := by
  have hmem := (tracks_of_mem_asked h.inPlace hr).2
  rw [h.actions_eq] at hmem
  exact Option.mem_toList.1 hmem

/-- A step applies what is asked for, and the wheel stays empty. -/
theorem Slides.step_eq (h : w.Slides) :
    w.step = (w.ready.applyAll w.asked).flush ∧
      ∀ d < w.step.1.wheel.size, w.step.1.wheel.pending d = [] :=
  step_of_no_delay h.wheel fun _ hr => (answer_unguarded (h.answer_of_mem_asked hr)).1

/-- The cells that an answer names are tracked after the step. -/
theorem Slides.tracks_of_answer (h : w.Slides) (hp : w.placed.world.tracks p = true) {a : Action}
    (ha : answer (w.placed.world.viewAt p) = some a) {o : Offset} (ho : o ∈ a.wake) :
    (w.ready.applyAll w.asked).world.tracks (p.move o) = true := by
  have hmem : (⟨p, a⟩ : Request) ∈ w.asked := by
    refine mem_asked h.inPlace hp (List.mem_map.2 ⟨a, ?_, rfl⟩)
    rw [h.actions_eq, ha]
    exact List.mem_singleton.2 rfl
  refine Turn.tracks_woken_of_mem_applyAll (r := ⟨p, a⟩) hmem (answer_unguarded ha).2 ho ?_ ?_
  · rw [channelsAt_ready]
    exact channelsAt_isSome_of_tracks hp
  · rw [keeps, terrain_ready, isLoaded_placed, h.loaded, Bool.or_true]

/-- A cell that is not tracked has no push to answer, and it keeps its channels. -/
theorem Slides.of_not_tracks (h : w.Slides) (hp : w.placed.world.tracks p = false) :
    driving (w.placed.world.viewAt p) = none ∧ entering (w.placed.world.viewAt p) = none ∧
      ∀ slot, (w.ready.applyAll w.asked).world.read p slot = w.placed.world.read p slot := by
  have htracked := h.pushersTracked.placed h.loaded h.placementsWake
  refine ⟨?_, ?_, read_asked_of_not_tracks h.inPlace hp⟩
  · rw [Option.eq_none_iff_forall_ne_some]
    intro d hd
    rw [(htracked p d hd).1] at hp
    cases hp
  · rw [Option.eq_none_iff_forall_ne_some]
    intro push hpush
    -- the cell is in front of the one whose block enters
    have hleaving := (leaving_of_entering hpush).1
    have hfront := (htracked _ _ (leaving_eq_some_iff.1 hleaving).1).2
    rw [Cell.move_neg_move, hp] at hfront
    cases hfront

/-- When a step is over, the block of each cell has settled. -/
theorem Slides.read_step_eq_settled (h : w.Slides) (p : Cell) :
    w.step.1.read p 0 = settled (w.placed.world.viewAt p) := by
  rw [h.step_eq.1, read_flush]
  cases hp : w.placed.world.tracks p with
  | false =>
    obtain ⟨hdriving, hentering, hsame⟩ := h.of_not_tracks hp
    rw [hsame, settled, hentering, leaving, hdriving, ← own_viewAt]
    rfl
  | true =>
    obtain ⟨n, hn⟩ := exists_channelsAt_of_tracks hp
    have hguard : ∀ a ∈ (answer (w.placed.world.viewAt p)).toList, a.guard = none :=
      fun a ha => (answer_unguarded (Option.mem_toList.1 ha)).2
    rw [read_asked_of_tracks h.inPlace hp hn, h.actions_eq, ← applied_outcome, Outcome.applied,
      actions_outcome]
    exact Turn.foldl_attempt_of_forall_unguarded (channelsAt_pos hn) hguard _ _
      (own_viewAt _ p 0).symm

/-- A block that pushes without leaving keeps its channels. -/
theorem Slides.read_of_stays (h : w.Slides) (hp : w.placed.world.tracks p = true) {d : Direction}
    (hd : driving (w.placed.world.viewAt p) = some d)
    (hstays : leaving (w.placed.world.viewAt p) = none) :
    (w.ready.applyAll w.asked).world.read p = w.placed.world.read p := by
  obtain ⟨n, hn⟩ := exists_channelsAt_of_tracks hp
  have hreset : (push (w.placed.world.viewAt p) d).reset = false := by
    rw [leaving, hd, Option.filter_some] at hstays
    show ((w.placed.world.viewAt p).read d.offset 0 == air) = false
    split at hstays
    · cases hstays
    · rename_i hfront
      exact Bool.eq_false_iff.2 hfront
  rw [read_asked_of_tracks h.inPlace hp hn, h.actions_eq, answer_of_driving hd]
  exact attempt_of_isEmpty rfl hreset n _

/-- Whoever pushes after a step had an answer that wakes its own cell and the cell in front. -/
theorem Slides.exists_answer (h : w.Slides) (hp : w.placed.world.tracks p = true) {d : Direction}
    (hd : driving ((w.ready.applyAll w.asked).world.viewAt p) = some d) :
    ∃ a, answer (w.placed.world.viewAt p) = some a ∧ Offset.zero ∈ a.wake ∧
      d.offset ∈ a.wake := by
  have hsame : (w.ready.applyAll w.asked).world.read p = w.placed.world.read p →
      driving (w.placed.world.viewAt p) = some d := fun hread => by
    rw [← hd, driving_viewAt_congr (congrFun hread)]
  have hzero : Offset.zero ∈ Neighborhood.moore3dSelf := by decide
  have hcube := offset_mem_moore3dSelf d
  cases ha : answer (w.placed.world.viewAt p) with
  | none =>
    obtain ⟨n, hn⟩ := exists_channelsAt_of_tracks hp
    have hread := read_asked_of_tracks h.inPlace hp hn
    rw [h.actions_eq, ha] at hread
    have hdriving := (of_answer_eq_none ha).1
    rw [hsame hread] at hdriving
    cases hdriving
  | some a =>
    refine ⟨a, rfl, ?_⟩
    rcases answer_cases ha with ⟨push, -, rfl⟩ | ⟨d', hd', rfl⟩ | ⟨-, -, push, rfl⟩
    · exact ⟨hzero, hcube⟩
    · -- the block has not left, so it is the push from before
      have hsolid := (own_ne_air_of_driving hd).1
      rw [own_viewAt, ← read_flush, ← h.step_eq.1, h.read_step_eq_settled] at hsolid
      have hstays := leaving_eq_none_of_settled (own_ne_air_of_driving hd').1 hsolid
      have hkept := hsame (h.read_of_stays hp hd' hstays)
      obtain rfl := Option.some.inj (hd'.symm.trans hkept)
      exact ⟨List.mem_cons_self, List.mem_cons_of_mem _ List.mem_cons_self⟩
    · exact ⟨hzero, hcube⟩

/-- After a step, whoever pushes is tracked again. -/
theorem Slides.pushersTracked_step (h : w.Slides) : w.step.1.PushersTracked := by
  intro p d hd
  rw [h.step_eq.1] at hd ⊢
  rw [driving_viewAt_congr (read_flush _ p)] at hd
  rw [tracks_flush, tracks_flush]
  cases hp : w.placed.world.tracks p with
  | false =>
    obtain ⟨hdriving, -, hread⟩ := h.of_not_tracks hp
    rw [driving_viewAt_congr hread, hdriving] at hd
    cases hd
  | true =>
    obtain ⟨a, ha, hself, hfront⟩ := h.exists_answer hp hd
    have htracks := h.tracks_of_answer hp ha hself
    rw [Cell.move_zero] at htracks
    exact ⟨htracks, h.tracks_of_answer hp ha hfront⟩

theorem Slides.step (h : w.Slides) : w.step.1.Slides where
  rule_eq := (Grows.step w).rule.trans h.rule_eq
  loaded := fun s => by rw [isLoaded_step, h.loaded]
  mirrors := h.mirrors.step
  inPlace := TrackedInPlace.step w
  placementsWake := PlacementsWake.step w
  wheel := h.step_eq.2
  pushersTracked := h.pushersTracked_step

/-- A step loses the blocks that are crowded out, and no others. -/
theorem Slides.census_step (h : w.Slides) :
    w.step.1.terrain.census + w.placed.world.lost = w.placed.world.terrain.census := by
  refine census_settled (fun p => h.mirrors.placed.block p List.not_mem_nil) fun p => ?_
  rw [← h.mirrors.step.block p List.not_mem_nil, h.read_step_eq_settled]

/-- A step leaves as many blocks of each kind as there were if, and only if, none is crowded out. -/
theorem Slides.census_step_eq_iff (h : w.Slides) :
    w.step.1.terrain.census = w.placed.world.terrain.census ↔
      ∀ p, w.placed.world.crowdedOut p = false := by
  rw [← lost_eq_zero_iff fun p => h.mirrors.placed.block p List.not_mem_nil, ← h.census_step]
  constructor
  · intro heq
    exact (Multiset.add_right_inj.1 ((Multiset.add_zero _).trans heq)).symm
  · intro hlost
    rw [hlost, Multiset.add_zero]

end

/-! ## A run -/

section

variable {w : World}

theorem Slides.obey (h : w.Slides) {c : Command}
    (hc : c = .tick ∨ ∃ p channels, c = .place p channels) : (w.obey c).Slides := by
  rcases hc with rfl | ⟨p, channels, rfl⟩
  · have hsteps := stepped_invariant (fun _ hu => Slides.step hu) w.config.stepsPerTick h
    have hinPlace := h.inPlace.obey .tick
    have hplacements := h.placementsWake.obey .tick
    show w.runTick.1.Slides
    refine ⟨?_, ?_, h.mirrors.runTick, hinPlace, hplacements, ?_, ?_⟩
    all_goals rw [runTick_fst]
    · exact hsteps.rule_eq
    · exact hsteps.loaded
    · exact hsteps.wheel
    · exact hsteps.pushersTracked
  · exact ⟨h.rule_eq, h.loaded, ⟨h.mirrors.loaded, h.mirrors.home, h.mirrors.block⟩, h.inPlace,
      h.placementsWake.obey (.place p channels), h.wheel, h.pushersTracked⟩

/-- An engine that has taken over nothing but blocks: every other channel is 0. -/
structure BlocksOnly (terrain : Terrain) (w : World) : Prop where
  rule_eq : w.rule = Sliding.rule
  terrain_eq : w.terrain = terrain
  wheel : ∀ d < w.wheel.size, w.wheel.pending d = []
  kept : ∀ p slot, slot ≠ 0 → w.read p slot = 0

variable {terrain : Terrain}

theorem BlocksOnly.sectionLoaded (h : w.BlocksOnly terrain) (s : Section) :
    (w.sectionLoaded s).BlocksOnly terrain := by
  have hframe := w.sectionLoaded_eq s
  refine ⟨?_, ?_, ?_, ?_⟩
  · rw [hframe]
    exact h.rule_eq
  · rw [hframe]
    exact h.terrain_eq
  · rw [hframe]
    exact h.wheel
  · intro p slot hslot
    cases hs : w.terrain.isLoaded s with
    | false =>
      rw [sectionLoaded_of_not_isLoaded hs]
      exact h.kept p slot hslot
    | true =>
      rw [sectionLoaded_of_isLoaded hs, read_seed, read_refreshed, if_neg fun hc => hslot hc.2]
      exact h.kept p slot hslot

theorem blocksOnly_of_ofTerrain {config : Config}
    (h : ofTerrain terrain Sliding.rule config = .ok w) : w.BlocksOnly terrain := by
  rw [(eq_of_ofTerrain h).1]
  exact ⟨rfl, rfl, fun d _ => TimingWheel.pending_ofSize _ d, fun p slot hslot => if_neg hslot⟩

theorem blocksOnly_of_ofLoaded {config : Config}
    (h : ofLoaded terrain Sliding.rule config = .ok w) : w.BlocksOnly terrain := by
  obtain ⟨w₀, hnew, rfl⟩ := exists_of_ofLoaded h
  have hfold : ∀ (sections : List Section) (u : World), u.BlocksOnly terrain →
      (sections.foldl World.sectionLoaded u).BlocksOnly terrain := by
    intro sections
    induction sections with
    | nil => exact fun _ hu => hu
    | cons s rest ih => exact fun u hu => ih _ (hu.sectionLoaded s)
  exact hfold _ _ (blocksOnly_of_ofTerrain hnew)

/-- Without strength, no block pushes. -/
theorem BlocksOnly.pushersTracked (h : w.BlocksOnly terrain) : w.PushersTracked := by
  intro p d hd
  have hpushing := (own_ne_air_of_driving hd).2
  rw [pushing, own_viewAt, h.kept p strengthSlot (by decide), if_neg (by decide)] at hpushing
  cases hpushing

/-- A new engine runs the rule as it should. -/
theorem slides_of_new {config : Config}
    (h : ofTerrain terrain Sliding.rule config = .ok w ∨
      ofLoaded terrain Sliding.rule config = .ok w)
    (hloaded : ∀ s, terrain.isLoaded s = true) : w.Slides := by
  obtain ⟨hattended, hreachable, hblocks⟩ :
      Attended w ∧ Reachable w ∧ w.BlocksOnly terrain := by
    rcases h with h | h
    · exact ⟨.new h, .new h, blocksOnly_of_ofTerrain h⟩
    · exact ⟨.register h, reachable_of_ofLoaded h, blocksOnly_of_ofLoaded h⟩
  exact {
    rule_eq := hblocks.rule_eq
    loaded := fun s => by rw [hblocks.terrain_eq, hloaded]
    mirrors := hattended.mirrors
    inPlace := hreachable.trackedInPlace
    placementsWake := hreachable.placementsWake
    wheel := hblocks.wheel
    pushersTracked := hblocks.pushersTracked }

theorem slides_along_run (h : w.Slides) {run : List Command}
    (hrun : ∀ c ∈ run, c = .tick ∨ ∃ p channels, c = .place p channels) :
    ∀ u ∈ w.stepsAlong run, u.Slides := by
  have hobey : ∀ c ∈ run, ∀ u : World, u.Slides → (u.obey c).Slides :=
    fun c hc _ hu => hu.obey (hrun c hc)
  have hstep : ∀ u : World, u.Slides → u.step.1.Slides := fun _ hu => hu.step
  exact forall_mem_stepsAlong hobey hstep h

/-- Take an engine over a terrain in which every section is loaded.  Through any run of placements
    and ticks, each step leaves the blocks that there were after its placements, each as often as
    before, except for those that are crowded out; so it keeps them all if, and only if, none is. -/
theorem census_along_run {config : Config}
    (h : ofTerrain terrain Sliding.rule config = .ok w ∨
      ofLoaded terrain Sliding.rule config = .ok w)
    (hloaded : ∀ s, terrain.isLoaded s = true) {run : List Command}
    (hrun : ∀ c ∈ run, c = .tick ∨ ∃ p channels, c = .place p channels) :
    ∀ u ∈ w.stepsAlong run,
      u.step.1.terrain.census + u.placed.world.lost = u.placed.world.terrain.census ∧
        (u.step.1.terrain.census = u.placed.world.terrain.census ↔
          ∀ p, u.placed.world.crowdedOut p = false) := by
  intro u hu
  have hslides := slides_along_run (slides_of_new h hloaded) hrun u hu
  exact ⟨hslides.census_step, hslides.census_step_eq_iff⟩

/-- The request to place a block that is pushed to the east. -/
def eastward : Request :=
  ⟨⟨0, 0, 0⟩,
    { Action.write (SlotMap.ofList [(0, 5), (directionSlot, 6), (strengthSlot, 1)]) with
      reset := true }⟩

/-- The request to place another block two cells further, which is pushed to the west. -/
def westward : Request :=
  ⟨⟨2, 0, 0⟩,
    { Action.write (SlotMap.ofList [(0, 7), (directionSlot, 5), (strengthSlot, 1)]) with
      reset := true }⟩

/-- Both blocks are placed, and a tick follows. -/
def facingRun : List Command :=
  [.place eastward.cell eastward.action.writes, .place westward.cell westward.action.writes, .tick]

theorem of_mem_facingRun {c : Command} (hc : c ∈ facingRun) :
    c = .tick ∨ ∃ p channels, c = .place p channels := by
  simp only [facingRun, List.mem_cons, List.not_mem_nil, or_false] at hc
  rcases hc with rfl | rfl | rfl
  · exact Or.inr ⟨_, _, rfl⟩
  · exact Or.inr ⟨_, _, rfl⟩
  · exact Or.inl rfl

theorem census_along_run_facing :
    ∃ w, ofTerrain Terrain.empty Sliding.rule Config.fast = .ok w ∧
      ∀ u ∈ w.stepsAlong facingRun,
        u.step.1.terrain.census + u.placed.world.lost = u.placed.world.terrain.census := by
  obtain ⟨w, hw⟩ : ∃ w, ofTerrain Terrain.empty Sliding.rule Config.fast = .ok w := ⟨_, rfl⟩
  exact ⟨w, hw, fun u hu =>
    (census_along_run (.inl hw) (fun _ => rfl) (fun _ => of_mem_facingRun) u hu).1⟩

end

/-! ## Two blocks that push into one cell -/

/-- What a placement writes, in a world whose storage fits. -/
theorem read_applyPlacement {t : Turn} (hfits : t.world.StorageFits) {r : Request}
    (hloaded : t.world.terrain.isLoaded r.cell.home = true) (hguard : r.action.guard = none)
    (p : Cell) (slot : Nat) :
    (t.applyPlacement r).world.read p slot =
      if p = r.cell ∧ slot < max t.world.rule.channels 1 then
        r.action.applied (t.world.read p) slot
      else t.world.read p slot := by
  rw [Turn.world_applyPlacement, Turn.read_apply]
  by_cases hp : p = r.cell
  · subst hp
    have hstored : ((t.provided r).world.channelsAt r.cell.home).isSome = true := by
      rw [Turn.provided, channelsAt_provide_self, keeps, hloaded, Bool.or_true]
    obtain ⟨n, hn⟩ := Option.isSome_iff_exists.1 hstored
    have hsize := ((hfits.of_grows (Grows.provide t.world r.cell)) _ n hn).2
    have hread : (t.provided r).world.read r.cell = t.world.read r.cell :=
      funext (read_provide t.world r.cell.home r.cell)
    have hholds : ∀ own, r.action.guardHolds own = true := fun own => by
      rw [Action.guardHolds, hguard]
    rw [rule_provide] at hsize
    rw [if_pos rfl, attempted, hn, hread, Action.attempt, if_pos (hholds _), Option.getD_some,
      hsize]
    simp only [true_and]
  · rw [if_neg hp, if_neg fun hc => hp hc.1]
    exact read_provide t.world r.cell.home p slot

/-- An empty world in which both blocks wait to be placed. -/
def facingBlocks : World where
  terrain := Terrain.empty
  rule := Sliding.rule
  config := Config.fast
  sections := OrderedMap.empty
  wheel := TimingWheel.ofSize Config.fast.wheelSize
  placements := [eastward, westward]
  events := #[]
  tick := 0
  history := []

/-- The step of the run begins in this world. -/
theorem exists_facingBlocks :
    ∃ w, ofTerrain Terrain.empty Sliding.rule Config.fast = .ok w ∧
      facingBlocks ∈ w.stepsAlong facingRun :=
  ⟨_, rfl, List.mem_cons_self⟩

/-- The channels of the cells when both blocks have been placed. -/
theorem read_placed_facingBlocks (p : Cell) (slot : Nat) :
    facingBlocks.placed.world.read p slot =
      if p = westward.cell ∧ slot < 3 then (westward.action.writes.get? slot).getD 0
      else if p = eastward.cell ∧ slot < 3 then (eastward.action.writes.get? slot).getD 0
      else 0 := by
  have hopening : facingBlocks.opening.world.StorageFits := fun s n hn => by cases hn
  have hgrows := Grows.applyPlacement facingBlocks.opening eastward
  have hair : facingBlocks.opening.world.read p slot = 0 := ite_self 0
  have hplaced : facingBlocks.placed =
      [eastward, westward].foldl Turn.applyPlacement facingBlocks.opening := rfl
  rw [hplaced, List.foldl_cons, List.foldl_cons, List.foldl_nil,
    read_applyPlacement (hopening.of_grows hgrows) (by rw [hgrows.isLoaded]; rfl) rfl,
    read_applyPlacement hopening rfl rfl, hgrows.rule, Action.applied, Action.applied, hair]
  rfl

/-- Both blocks leave their cells, and the air between them takes over one of the two. -/
theorem exists_block_lost :
    ∃ w u, ofTerrain Terrain.empty Sliding.rule Config.fast = .ok w ∧
      u ∈ w.stepsAlong facingRun ∧
      u.step.1.terrain.census ≠ u.placed.world.terrain.census := by
  obtain ⟨w, hw, hmem⟩ := exists_facingBlocks
  have hslides := slides_along_run (slides_of_new (.inl hw) fun _ => rfl)
    (fun _ => of_mem_facingRun) facingBlocks hmem
  have hview : ∀ p, facingBlocks.placed.world.viewAt p =
      ⟨fun o slot =>
        if p.move o = westward.cell ∧ slot < 3 then (westward.action.writes.get? slot).getD 0
        else if p.move o = eastward.cell ∧ slot < 3 then (eastward.action.writes.get? slot).getD 0
        else 0, 3⟩ := by
    intro p
    have hchannels : facingBlocks.placed.world.rule.channels = 3 := by
      rw [(Grows.placed facingBlocks).rule]
      rfl
    show (⟨fun o slot => facingBlocks.placed.world.read (p.move o) slot,
      facingBlocks.placed.world.rule.channels⟩ : View) = _
    simp only [read_placed_facingBlocks, hchannels]
  have hleaving : leaving (facingBlocks.placed.world.viewAt eastward.cell) = some .east := by
    rw [hview]
    decide
  have hentering : (entering (facingBlocks.placed.world.viewAt
      (eastward.cell.move Direction.east.offset))).map Push.direction = some .west := by
    rw [hview]
    decide
  refine ⟨w, facingBlocks, hw, hmem, fun hsame => ?_⟩
  have hkept := hslides.census_step_eq_iff.1 hsame eastward.cell
  rw [crowdedOut, hleaving] at hkept
  dsimp only at hkept
  rw [hentering] at hkept
  cases hkept

end BlockAutomata.Engine.World
