/-
  The worlds that an engine can be in.

  1. A world is reachable if it comes from a new one by commands and exchanges of the rule.

  2. Two things hold of every reachable world: what is tracked lies where it belongs, and what waits
     to be placed wakes all cells around it and has no guard.

  3. The smallest reachable world in which anything happens is one in which a block waits to be
     placed (`firstBlock`).
-/
import BlockAutomata.Proofs.Engine.Exchange

namespace BlockAutomata.Engine.World

/-! ## Reachable worlds -/

/-- The worlds that an engine can be in. -/
inductive Reachable : World → Prop where
  | new {terrain : Terrain} {rule : LocalRule} {config : Config} {w : World}
      (h : ofTerrain terrain rule config = .ok w) : Reachable w
  | obey {w : World} (h : Reachable w) (c : Command) : Reachable (w.obey c)
  | exchange {w w' : World} {rule : LocalRule} (h : Reachable w)
      (hrule : w.exchangeRule rule = .ok w') : Reachable w'

theorem Reachable.after {w : World} (h : Reachable w) (run : List Command) :
    Reachable (w.after run) := by
  unfold World.after
  induction run generalizing w with
  | nil => exact h
  | cons c rest ih => exact ih (h.obey c)

/-- A world that has taken over the loaded sections of its terrain is reachable. -/
theorem reachable_of_ofLoaded {terrain : Terrain} {rule : LocalRule} {config : Config} {w : World}
    (h : ofLoaded terrain rule config = .ok w) : Reachable w := by
  obtain ⟨w₀, hnew, rfl⟩ := exists_of_ofLoaded h
  have hrun := (Reachable.new hnew).after (terrain.populatedSections.map Command.load)
  rw [World.after, List.foldl_map] at hrun
  exact hrun

/-! ## Invariants -/

theorem TrackedInPlace.exchangeRule {w w' : World} {rule : LocalRule} (h : w.TrackedInPlace)
    (hrule : w.exchangeRule rule = .ok w') : w'.TrackedInPlace := by
  obtain ⟨wheel, rfl⟩ := eq_of_exchangeRule hrule
  refine seedAll_induction (fun _ p hu => hu.wake p Neighborhood.moore3dSelf) ?_
  intro s storage hs i hi
  rw [find?_relaid] at hs
  obtain ⟨old, hold, rfl⟩ := Option.map_eq_some_iff.1 hs
  exact h s old hold i hi

/-- In a reachable world, every tracked index stands for a cell of its section. -/
theorem Reachable.trackedInPlace {w : World} (h : Reachable w) : w.TrackedInPlace := by
  induction h with
  | new hnew =>
    rw [(eq_of_ofTerrain hnew).1]
    intro s storage hs
    cases hs
  | obey h c ih => exact ih.obey c
  | exchange h hrule ih => exact ih.exchangeRule hrule

theorem Reachable.forall_placements {P : Action → Prop}
    (hplace : ∀ channels, P { Action.write channels with reset := true })
    (hrenumber : ∀ slot? a a', renumberAction slot? a = some a' → P a → P a') {w : World}
    (h : Reachable w) : ∀ r ∈ w.placements, P r.action := by
  induction h with
  | new hnew =>
    rw [(eq_of_ofTerrain hnew).1]
    exact fun r hr => absurd hr List.not_mem_nil
  | obey h c ih => exact forall_placements_obey hplace ih c
  | exchange h hrule ih =>
    obtain ⟨wheel, rfl⟩ := eq_of_exchangeRule hrule
    rw [seedAll_eq]
    intro r hr
    obtain ⟨old, hold, hr⟩ := List.mem_filterMap.1 hr
    obtain ⟨a, ha, rfl⟩ := Option.map_eq_some_iff.1 hr
    exact hrenumber _ _ _ ha (ih old hold)

theorem wake_renumberAction {slot? : Nat → Option Nat} {a a' : Action}
    (h : renumberAction slot? a = some a') : a'.wake = a.wake := by
  unfold renumberAction at h
  split at h
  · rw [← Option.some.inj h]
  · split at h
    · rw [← Option.some.inj h]
    · cases h

theorem guard_renumberAction {slot? : Nat → Option Nat} {a a' : Action}
    (h : renumberAction slot? a = some a') (ha : a.guard = none) : a'.guard = none := by
  unfold renumberAction at h
  rw [ha] at h
  rw [← Option.some.inj h]

/-- In a reachable world, every waiting placement wakes the cube around its cell. -/
theorem Reachable.placementsWake {w : World} (h : Reachable w) : w.PlacementsWake :=
  h.forall_placements (P := fun a => a.wake = Neighborhood.moore3dSelf) (fun _ => rfl)
    fun _ _ _ ha hwake => (wake_renumberAction ha).trans hwake

/-- In a reachable world, no waiting placement has a guard. -/
theorem Reachable.guard_of_mem_placements {w : World} (h : Reachable w) :
    ∀ r ∈ w.placements, r.action.guard = none :=
  h.forall_placements (P := fun a => a.guard = none) (fun _ => rfl)
    fun _ _ _ ha hguard => guard_renumberAction ha hguard

/-! ## A first world -/

/-- The request to place a block of 1. -/
def firstRequest : Request :=
  ⟨⟨8, 8, 8⟩, { Action.write (SlotMap.ofList [(0, 1)]) with reset := true }⟩

/-- An empty world in which a block of 1 waits to be placed. -/
def firstBlock (rule : LocalRule) : World where
  terrain := Terrain.empty
  rule := rule
  config := Config.fast
  sections := OrderedMap.empty
  wheel := TimingWheel.ofSize Config.fast.wheelSize
  placements := [firstRequest]
  events := #[]
  tick := 0
  history := []

variable (rule : LocalRule)

/-- The block has been placed into a new world. -/
theorem exists_firstBlock :
    ∃ w, ofTerrain Terrain.empty rule Config.fast = .ok w ∧
      w.place ⟨8, 8, 8⟩ (SlotMap.ofList [(0, 1)]) = firstBlock rule :=
  ⟨_, rfl, rfl⟩

theorem reachable_firstBlock : Reachable (firstBlock rule) := by
  obtain ⟨w, hw, hplace⟩ := exists_firstBlock rule
  rw [← hplace]
  exact (Reachable.new hw).obey (.place _ _)

theorem keeps_firstBlock (s : Section) : (firstBlock rule).keeps s = true := Bool.or_true _

/-- The section of the block gets storage. -/
theorem channelsAt_provided_firstBlock :
    ((firstBlock rule).opening.provided firstRequest).world.channelsAt firstRequest.cell.home =
      some (max rule.channels 1) := by
  rw [Turn.provided, channelsAt_provide, if_pos ⟨rfl, rfl, rfl⟩]
  rfl

theorem channelsAt_placed_firstBlock :
    (firstBlock rule).placed.world.channelsAt firstRequest.cell.home =
      some (max rule.channels 1) := by
  show ((firstBlock rule).opening.applyPlacement firstRequest).world.channelsAt _ = _
  rw [Turn.world_applyPlacement]
  exact Turn.channelsAt_apply_of_some (channelsAt_provided_firstBlock rule) firstRequest

/-- After a tick the section of the block has storage. -/
theorem channelsAt_runTick_firstBlock :
    (firstBlock rule).runTick.1.channelsAt firstRequest.cell.home = some (max rule.channels 1) := by
  rw [channelsAt_runTick]
  exact channelsAt_step_of_some (channelsAt_placed_firstBlock rule)

/-- The placement puts the block into its cell. -/
theorem read_placed_firstBlock : (firstBlock rule).placed.world.read firstRequest.cell 0 = 1 := by
  show ((firstBlock rule).opening.applyPlacement firstRequest).world.read _ _ = _
  have hguard : ∀ own, firstRequest.action.guardHolds own = true := fun _ => rfl
  rw [Turn.world_applyPlacement, Turn.read_apply, if_pos rfl, attempted,
    channelsAt_provided_firstBlock, Action.attempt, if_pos (hguard _)]
  exact if_pos (Nat.lt_of_lt_of_le Nat.zero_lt_one (Nat.le_max_right _ _))

end BlockAutomata.Engine.World
