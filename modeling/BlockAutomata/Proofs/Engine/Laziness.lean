/-
  Evaluating only the tracked cells is enough.

  1. A cell is quiet when its rule writes nothing there.  The invariant is that every loaded cell
     which is not tracked is quiet (`Rested`): whoever would change is tracked.

  2. A request is alert when it wakes the cube around its cell or leaves the cell alone.  After
     alert requests, a cell that is not tracked has been neither tracked nor touched within
     distance 1 (`untouched_of_not_tracks`).  Rules that look no further cannot tell the difference,
     so such a cell is as quiet as before.

  3. The requests of compiled rules are alert, and so are placements.  Hence placements keep the
     invariant; and a step restores it, since a cell that has been evaluated and is not tracked
     afterwards has written nothing.

  4. A step therefore does to every loaded cell what evaluating all of them would do
     (`step_eq_eager`): the tracked ones are evaluated, and the others would write nothing.
-/
import BlockAutomata.Proofs.Engine.Reachability
import BlockAutomata.Proofs.Engine.Scheduling
import BlockAutomata.Proofs.Script.Locality

namespace BlockAutomata.Engine

open Script

/-! ## Alert requests -/

/-- A request that wakes the cube around its cell, unless it leaves the cell alone. -/
def Request.Alert (r : Request) : Prop :=
  r.action.wake = Neighborhood.moore3dSelf ∨
    (r.action.writes.isEmpty = true ∧ r.action.reset = false)

/-- Attempting an action that neither writes nor resets changes nothing. -/
theorem attempt_of_isEmpty {a : Action} (hw : a.writes.isEmpty = true) (hr : a.reset = false)
    (n : Nat) (own : Nat → Int64) : a.attempt n own = own := by
  funext slot
  rw [Action.attempt, Action.applied_of_isEmpty hw hr]
  split
  · exact ite_self _
  · rfl

namespace Turn

variable {t : Turn} {p : Cell}

/-- A tracked cell stays tracked. -/
theorem tracks_apply_of_tracks (h : t.world.tracks p = true) (r : Request) :
    (t.apply r).2.world.tracks p = true :=
  (tracks_apply t r p).2 (Or.inl h)

theorem tracks_applyAll_of_tracks (h : t.world.tracks p = true) (due : List Request) :
    (t.applyAll due).world.tracks p = true :=
  applyAll_induction (motive := fun u => u.world.tracks p = true)
    (fun _ r hu => tracks_apply_of_tracks hu r) h due

/-- What an alert request leaves untracked, it leaves alone. -/
theorem untouched_of_not_tracks_apply {r : Request} (hr : r.Alert)
    (hkeeps : t.world.keeps p.home = true) (h : (t.apply r).2.world.tracks p = false) :
    t.world.tracks p = false ∧
      ∀ o : Offset, o.norm ≤ 1 → ∀ slot,
        (t.apply r).2.world.read (p.move o) slot = t.world.read (p.move o) slot := by
  have hnot : ¬ (t.apply r).2.world.tracks p = true := by rw [h]; exact Bool.false_ne_true
  rw [tracks_apply] at hnot
  obtain ⟨hbefore, hwoken⟩ := not_or.1 hnot
  refine ⟨by simpa using hbefore, ?_⟩
  intro o ho slot
  rw [read_apply]
  by_cases hcell : p.move o = r.cell
  · rw [if_pos hcell, hcell]
    cases hadmits : t.world.admits r with
    | false => rw [World.attempted_of_not_admits hadmits]
    | true =>
      rcases hr with hcube | ⟨hwrites, hreset⟩
      · -- the way back leads from the cell of the request to `p`, so `p` is woken
        have hback : -o ∈ r.action.wake := by
          rw [hcube, Neighborhood.mem_moore3dSelf_iff, Offset.norm_neg]
          exact ho
        refine absurd ⟨hadmits, hkeeps, -o, hback, ?_⟩ hwoken
        rw [← hcell, Cell.move_move_neg]
      · rw [World.attempted, attempt_of_isEmpty hwrites hreset]
  · rw [if_neg hcell]

/-- What alert requests leave untracked, they leave alone. -/
theorem untouched_of_not_tracks {due : List Request} (hdue : ∀ r ∈ due, r.Alert)
    (hkeeps : t.world.keeps p.home = true) (h : (t.applyAll due).world.tracks p = false) :
    t.world.tracks p = false ∧
      ∀ o : Offset, o.norm ≤ 1 → ∀ slot,
        (t.applyAll due).world.read (p.move o) slot = t.world.read (p.move o) slot := by
  induction due generalizing t with
  | nil => exact ⟨h, fun _ _ _ => rfl⟩
  | cons r rest ih =>
    rw [List.forall_mem_cons] at hdue
    -- tracked cells stay tracked, so who is untracked at the end has been so all along
    have hlater := ih hdue.2 (by rw [keeps_apply]; exact hkeeps) h
    have hnow := untouched_of_not_tracks_apply hdue.1 hkeeps hlater.1
    refine ⟨hnow.1, ?_⟩
    intro o ho slot
    exact (hlater.2 o ho slot).trans (hnow.2 o ho slot)

/-- An unguarded request for a cell with storage wakes the cells that it names, as far as they can
    be tracked. -/
theorem tracks_woken_of_mem_applyAll {due : List Request} {r : Request} (hr : r ∈ due)
    (hguard : r.action.guard = none) {o : Offset} (ho : o ∈ r.action.wake)
    (hstored : (t.world.channelsAt r.cell.home).isSome = true)
    (hkeeps : t.world.keeps (r.cell.move o).home = true) :
    (t.applyAll due).world.tracks (r.cell.move o) = true := by
  obtain ⟨n, hn⟩ := Option.isSome_iff_exists.1 hstored
  induction due generalizing t with
  | nil => cases hr
  | cons r' rest ih =>
    rcases List.mem_cons.1 hr with rfl | hr
    · have hadmits : t.world.admits r = true := by
        rw [World.admits, hstored, Action.guardHolds, hguard]
        rfl
      have hnow := (tracks_apply t r (r.cell.move o)).2 (Or.inr ⟨hadmits, hkeeps, o, ho, rfl⟩)
      exact tracks_applyAll_of_tracks hnow rest
    · have hn' := channelsAt_apply_of_some hn r'
      exact ih hr (by rw [hn']; rfl) (by rw [keeps_apply]; exact hkeeps) hn'

/-- An unguarded request for a cell with storage that wakes the cube around it wakes the cell. -/
theorem tracks_of_mem_applyAll {due : List Request} {r : Request} (hr : r ∈ due)
    (hguard : r.action.guard = none) (hwake : r.action.wake = Neighborhood.moore3dSelf)
    (hstored : (t.world.channelsAt r.cell.home).isSome = true) :
    (t.applyAll due).world.tracks r.cell = true := by
  have hzero : Offset.zero ∈ r.action.wake := by
    rw [hwake]
    decide
  have hkeeps : t.world.keeps (r.cell.move Offset.zero).home = true := by
    rw [World.keeps, r.cell.move_zero, hstored, Bool.true_or]
  have htracks := tracks_woken_of_mem_applyAll hr hguard hzero hstored hkeeps
  rwa [r.cell.move_zero] at htracks

/-- Unguarded actions, attempted one after the other, are applied one after the other. -/
theorem foldl_attempt_of_forall_unguarded {n slot : Nat} (hslot : slot < n) {actions : List Action}
    (h : ∀ a ∈ actions, a.guard = none) (own own' : Nat → Int64) (hown : own slot = own' slot) :
    actions.foldl (Action.attempt n) own slot =
      actions.foldl (fun own a => a.applied own) own' slot := by
  induction actions generalizing own own' with
  | nil => exact hown
  | cons a rest ih =>
    rw [List.forall_mem_cons] at h
    rw [List.foldl_cons, List.foldl_cons]
    refine ih h.2 _ _ ?_
    have hguard : a.guardHolds own = true := by
      rw [Action.guardHolds, h.1]
    rw [Action.attempt, if_pos hguard, if_pos hslot, Action.applied, Action.applied, hown]

end Turn

/-! ## Quiet cells -/

namespace World

/-- The rule writes nothing at the cell. -/
def Quiet (w : World) (p : Cell) : Prop :=
  ∀ a ∈ (w.rule.outcome (w.viewAt p)).actions, a.writes.isEmpty = true

/-- Storage is kept for loaded sections, with the channels that new storage gets. -/
def StorageFits (w : World) : Prop :=
  ∀ s n, w.channelsAt s = some n → w.terrain.isLoaded s = true ∧ n = max w.rule.channels 1

theorem StorageFits.of_grows {w w' : World} (h : w.StorageFits) (hgrows : Grows w w') :
    w'.StorageFits := by
  intro s n hs
  rw [hgrows.isLoaded, hgrows.rule]
  rcases hgrows.channelsAt s n hs with hs | ⟨hn, hloaded, -⟩
  · exact h s n hs
  · exact ⟨hloaded, hn⟩

/-- The world runs the interpreter, storage fits, and whoever would change is tracked. -/
structure Rested (i : Interpreter) (w : World) : Prop where
  rule_eq : w.rule = i.localRule
  fits : w.StorageFits
  quiet : ∀ p, w.terrain.isLoaded p.home = true → w.tracks p = false → w.Quiet p

section

variable {i : Interpreter} (hreads : ReadsWithin i.rules 1)

include hreads

/-- A cell around which nothing differs is as quiet as before. -/
theorem quiet_of_untouched {w w' : World} (hrule : w.rule = i.localRule)
    (hrule' : w'.rule = i.localRule) {p : Cell}
    (h : ∀ o : Offset, o.norm ≤ 1 → ∀ slot, w'.read (p.move o) slot = w.read (p.move o) slot)
    (hquiet : w.Quiet p) : w'.Quiet p := by
  have hsame : i.outcome (w'.viewAt p) = i.outcome (w.viewAt p) := by
    refine i.outcome_of_agreeBelow (fun r hr k hk => Nat.lt_succ_of_le (hreads r hr k hk))
      (by omega) ?_
    intro o ho slot
    exact h o (Nat.le_of_lt_succ ho) slot
  rw [Quiet, hrule] at hquiet
  rw [Quiet, hrule']
  show ∀ a ∈ (i.outcome (w'.viewAt p)).actions, _
  rw [hsame]
  exact hquiet

/-- Alert requests keep a rested world rested. -/
theorem Rested.apply {t : Turn} (h : Rested i t.world) {r : Request} (hr : r.Alert) :
    Rested i (t.apply r).2.world where
  rule_eq := (t.rule_apply r).trans h.rule_eq
  fits := h.fits.of_grows (Grows.apply t r)
  quiet := by
    intro p hloaded hp
    rw [Turn.isLoaded_apply] at hloaded
    have hkeeps : t.world.keeps p.home = true := by rw [keeps, hloaded, Bool.or_true]
    obtain ⟨hbefore, hsame⟩ := Turn.untouched_of_not_tracks_apply hr hkeeps hp
    exact quiet_of_untouched hreads h.rule_eq ((t.rule_apply r).trans h.rule_eq) hsame
      (h.quiet p hloaded hbefore)

theorem Rested.provide {w : World} (h : Rested i w) (q : Cell) :
    Rested i (w.provide q.home) where
  rule_eq := (rule_provide w q.home).trans h.rule_eq
  fits := h.fits.of_grows (Grows.provide w q)
  quiet := by
    intro p hloaded hp
    rw [terrain_provide] at hloaded
    rw [tracks_provide] at hp
    exact quiet_of_untouched hreads h.rule_eq ((rule_provide w q.home).trans h.rule_eq)
      (fun o _ slot => read_provide w q.home (p.move o) slot) (h.quiet p hloaded hp)

/-- Placements keep a rested world rested. -/
theorem Rested.placed {w : World} (h : Rested i w) (hwake : w.PlacementsWake) :
    Rested i w.placed.world := by
  refine placed_induction (motive := fun t => Rested i t.world) ?_ ⟨h.rule_eq, h.fits, h.quiet⟩
  intro t r hr ht
  rw [Turn.world_applyPlacement]
  exact Rested.apply hreads (Rested.provide hreads ht r.cell) (Or.inl (hwake r hr))

/-! ## A step -/

omit hreads in
/-- Compiled rules ask for alert requests, at once and without a guard. -/
theorem of_mem_asked {w : World} (hrule : w.placed.world.rule = i.localRule)
    (hplace : w.TrackedInPlace) {r : Request} (hr : r ∈ w.asked) :
    r.Alert ∧ r.action.guard = none ∧ r.action.delay = 0 := by
  have ha := (tracks_of_mem_asked hplace hr).2
  rw [hrule] at ha
  obtain ⟨-, hreset, hguard, hdelay, hwake⟩ := Interpreter.writes_of_mem_actions ha
  refine ⟨?_, hguard, hdelay⟩
  cases he : r.action.writes.isEmpty with
  | false => exact Or.inl (hwake he)
  | true => exact Or.inr ⟨he, hreset⟩

omit hreads in
/-- Without delays the wheel stays empty, and everything that is asked for is applied. -/
theorem step_of_no_delay {w : World} (hempty : ∀ d < w.wheel.size, w.wheel.pending d = [])
    (hnow : ∀ r ∈ w.asked, r.action.delay = 0) :
    w.step = (w.ready.applyAll w.asked).flush ∧
      ∀ d < w.step.1.wheel.size, w.step.1.wheel.pending d = [] := by
  have himmediate : w.immediate = w.asked :=
    List.filter_eq_self.2 fun r hr => by rw [Action.waits, hnow r hr]; rfl
  have hfired : w.fired = [] := by rw [fired_eq, hempty 0 w.wheel.size_pos]
  refine ⟨?_, ?_⟩
  · rw [step_eq, himmediate, hfired]
    rfl
  · intro d hd
    rw [size_step] at hd
    have hnone : (w.asked.filter fun r => r.action.delay = d + 1) = [] := by
      rw [List.filter_eq_nil_iff]
      intro r hr
      rw [hnow r hr]
      simp
    rw [pending_step _ hd, hnone]
    split
    · rfl
    · rw [hempty (d + 1) (by omega)]
      rfl

omit hreads in
/-- The requests for one cell make of it what its outcome says, and a quiet cell needs none. -/
theorem read_applyAll_asked {w : World} (hplace : w.TrackedInPlace) (h : Rested i w.placed.world)
    {p : Cell} (hloaded : w.placed.world.terrain.isLoaded p.home = true) {slot : Nat}
    (hslot : slot < i.channels) :
    (w.ready.applyAll w.asked).world.read p slot =
      (i.outcome (w.placed.world.viewAt p)).applied (w.placed.world.read p) slot := by
  cases hp : w.placed.world.tracks p with
  | true =>
    obtain ⟨n, hn⟩ := exists_channelsAt_of_tracks hp
    have hsize : slot < n := by
      have hn' := (h.fits _ _ hn).2
      rw [h.rule_eq] at hn'
      have hmax : i.channels ≤ max i.localRule.channels 1 := Nat.le_max_left _ _
      omega
    have hguard : ∀ a ∈ (i.outcome (w.placed.world.viewAt p)).actions, a.guard = none :=
      fun a ha => (Interpreter.writes_of_mem_actions ha).2.2.1
    rw [read_asked_of_tracks hplace hp hn, h.rule_eq]
    exact Turn.foldl_attempt_of_forall_unguarded hsize hguard _ _ rfl
  | false =>
    have hquiet := h.quiet p hloaded hp
    rw [Quiet, h.rule_eq] at hquiet
    -- nobody asks for the cell, and its own outcome would write nothing
    have hsame : ∀ own : Nat → Int64,
        (i.outcome (w.placed.world.viewAt p)).applied own = own := by
      intro own
      have hfold : ∀ (actions : List Action) (own : Nat → Int64),
          (∀ a ∈ actions, a.writes.isEmpty = true ∧ a.reset = false) →
            actions.foldl (fun own a => a.applied own) own = own := by
        intro actions
        induction actions with
        | nil => exact fun _ _ => rfl
        | cons a rest ih =>
          intro own ha
          rw [List.forall_mem_cons] at ha
          rw [List.foldl_cons, Action.applied_of_isEmpty ha.1.1 ha.1.2, ih own ha.2]
      exact hfold _ own fun a ha =>
        ⟨hquiet a ha, (Interpreter.writes_of_mem_actions ha).2.1⟩
    rw [read_asked_of_not_tracks hplace hp, hsame]

/-- One step does to every loaded cell what evaluating all of them against the world after the
    placements would do, and it leaves the world rested. -/
theorem step_eq_eager {w : World} (h : Rested i w) (hplace : w.TrackedInPlace)
    (hwake : w.PlacementsWake) (hempty : ∀ d < w.wheel.size, w.wheel.pending d = []) :
    (∀ p, w.terrain.isLoaded p.home = true → ∀ slot < i.channels,
        w.step.1.read p slot =
          (i.outcome (w.placed.world.viewAt p)).applied (w.placed.world.read p) slot) ∧
      Rested i w.step.1 ∧ ∀ d < w.step.1.wheel.size, w.step.1.wheel.pending d = [] := by
  have hplaced := Rested.placed hreads h hwake
  have hasked := fun r (hr : r ∈ w.asked) => of_mem_asked hplaced.rule_eq hplace hr
  obtain ⟨hstep, hwheel⟩ := step_of_no_delay hempty fun r hr => (hasked r hr).2.2
  refine ⟨?_, ⟨?_, h.fits.of_grows (Grows.step w), ?_⟩, hwheel⟩
  · intro p hloaded slot hslot
    rw [hstep, read_flush]
    exact read_applyAll_asked hplace hplaced (by rw [isLoaded_placed]; exact hloaded) hslot
  · exact (Grows.step w).rule.trans h.rule_eq
  · intro p hloaded hp
    rw [hstep] at hloaded hp ⊢
    rw [isLoaded_flush, Turn.isLoaded_applyAll, terrain_ready] at hloaded
    rw [tracks_flush] at hp
    have hkeeps : w.ready.world.keeps p.home = true := by
      rw [keeps, terrain_ready, hloaded, Bool.or_true]
    obtain ⟨-, hsame⟩ := Turn.untouched_of_not_tracks (fun r hr => (hasked r hr).1) hkeeps hp
    have hquiet : w.placed.world.Quiet p := by
      cases htracks : w.placed.world.tracks p with
      | false => exact hplaced.quiet p hloaded htracks
      | true =>
        -- whatever `p` asked for would have woken it, had it been a write
        intro a ha
        rw [hplaced.rule_eq] at ha
        cases he : a.writes.isEmpty with
        | true => rfl
        | false =>
          have hmem : (⟨p, a⟩ : Request) ∈ w.asked := by
            have hown : (⟨p, a⟩ : Request) ∈ w.asked.filter fun r => r.cell = p := by
              rw [filter_asked hplace, htracks, if_pos rfl, Turn.evaluate, hplaced.rule_eq]
              exact List.mem_map.2 ⟨a, ha, rfl⟩
            exact (List.mem_filter.1 hown).1
          obtain ⟨-, -, hguard, -, hwakes⟩ := Interpreter.writes_of_mem_actions ha
          have htracked := Turn.tracks_of_mem_applyAll (t := w.ready) hmem hguard (hwakes he)
            (by rw [channelsAt_ready]; exact channelsAt_isSome_of_tracks htracks)
          rw [htracked] at hp
          cases hp
    refine quiet_of_untouched hreads hplaced.rule_eq ?_ ?_ hquiet
    · rw [rule_flush, Turn.rule_applyAll, rule_ready, hplaced.rule_eq]
    · intro o ho slot
      rw [read_flush, hsame o ho slot, read_ready]

/-! ## A run -/

/-- What holds wherever a step of a run begins. -/
def RunsLazily (i : Interpreter) (w : World) : Prop :=
  Rested i w ∧ w.TrackedInPlace ∧ w.PlacementsWake ∧ ∀ d < w.wheel.size, w.wheel.pending d = []

theorem RunsLazily.step {w : World} (h : RunsLazily i w) : RunsLazily i w.step.1 := by
  obtain ⟨hrested, hplace, hwake, hempty⟩ := h
  obtain ⟨-, hrested', hempty'⟩ := step_eq_eager hreads hrested hplace hwake hempty
  exact ⟨hrested', TrackedInPlace.step w, PlacementsWake.step w, hempty'⟩

theorem RunsLazily.obey {w : World} (h : RunsLazily i w) {c : Command}
    (hc : c = .tick ∨ ∃ p channels, c = .place p channels) : RunsLazily i (w.obey c) := by
  refine ⟨?_, h.2.1.obey c, h.2.2.1.obey c, ?_⟩ <;> rcases hc with rfl | ⟨p, channels, rfl⟩
  · have hsteps := (stepped_invariant (fun _ hw => RunsLazily.step hreads hw)
      w.config.stepsPerTick h).1
    show Rested i w.runTick.1
    rw [runTick_fst]
    exact ⟨hsteps.rule_eq, hsteps.fits, hsteps.quiet⟩
  · exact ⟨h.1.rule_eq, h.1.fits, h.1.quiet⟩
  · have hsteps := (stepped_invariant (fun _ hw => RunsLazily.step hreads hw)
      w.config.stepsPerTick h).2.2.2
    show ∀ d < w.runTick.1.wheel.size, w.runTick.1.wheel.pending d = []
    rw [runTick_fst]
    exact hsteps
  · exact h.2.2.2

end

/-- Lazy stepping is eager stepping.  Take rules that read no further than distance 1, and a world
    in which every loaded cell that is not tracked is quiet.  Through any run of placements and
    ticks, each step leaves in every channel of every loaded cell what evaluating all of them
    against the world after the placements, and writing all results at once, would leave there;
    and whoever is not tracked is quiet again. -/
theorem lazy_steps_eq_eager {rules : List Rule} {slots : SlotTable} {w : World}
    (hreachable : Reachable w) (hrule : w.rule = (Interpreter.ofRules rules slots).localRule)
    (hreads : ReadsWithin rules 1) (hwheel : w.wheel.isEmpty = true)
    (hstored : ∀ s, w.sections.contains s = true → w.terrain.isLoaded s = true)
    (hchannels : ∀ s storage, w.sections.find? s = some storage →
      storage.channels = w.rule.channels)
    (hquiet : ∀ p, w.terrain.isLoaded p.home = true → w.tracks p = false → w.Quiet p)
    (run : List Command) (hrun : ∀ c ∈ run, c = .tick ∨ ∃ p channels, c = .place p channels) :
    ∀ u ∈ w.stepsAlong run,
      (∀ p, u.terrain.isLoaded p.home = true → ∀ slot < w.rule.channels,
          u.step.1.read p slot =
            (w.rule.outcome (u.placed.world.viewAt p)).applied (u.placed.world.read p) slot) ∧
        ∀ p, u.step.1.terrain.isLoaded p.home = true → u.step.1.tracks p = false →
          u.step.1.Quiet p := by
  have hrested : Rested (Interpreter.ofRules rules slots) w := by
    refine ⟨hrule, ?_, hquiet⟩
    intro s n hn
    obtain ⟨storage, hs, rfl⟩ := Option.map_eq_some_iff.1 hn
    refine ⟨hstored s ?_, ?_⟩
    · rw [OrderedMap.contains, hs]
      rfl
    · -- compiled rules have a channel for the block, so new storage has as many as they need
      have hpos : 1 ≤ w.rule.channels := by
        rw [hrule]
        exact Nat.le_trans (Nat.succ_le_succ (Nat.zero_le _)) (Nat.le_max_right _ _)
      rw [hchannels s storage hs]
      omega
  have hstart : RunsLazily (Interpreter.ofRules rules slots) w :=
    ⟨hrested, hreachable.trackedInPlace, hreachable.placementsWake,
      (TimingWheel.isEmpty_iff w.wheel).1 hwheel⟩
  have hobey : ∀ c ∈ run, ∀ v, RunsLazily (Interpreter.ofRules rules slots) v →
      RunsLazily (Interpreter.ofRules rules slots) (v.obey c) :=
    fun c hc _ hv => RunsLazily.obey hreads hv (hrun c hc)
  have hstep : ∀ v, RunsLazily (Interpreter.ofRules rules slots) v →
      RunsLazily (Interpreter.ofRules rules slots) v.step.1 :=
    fun _ hv => RunsLazily.step hreads hv
  intro u hu
  have hlazy := forall_mem_stepsAlong hobey hstep hstart u hu
  obtain ⟨heager, hrested', -⟩ := step_eq_eager hreads hlazy.1 hlazy.2.1 hlazy.2.2.1 hlazy.2.2.2
  rw [hrule]
  exact ⟨heager, hrested'.quiet⟩

/-- A cell with three neighbours of block 1 becomes 1 itself. -/
def birthRules : List Rule :=
  [⟨.equal (.count Neighborhood.moore3d (.isBlock 1)) (.literal 3), [.set 0 (.literal 1)]⟩]

/-- Three blocks in a row, and two ticks. -/
def birthRun : List Command :=
  [.place ⟨-1, 0, 0⟩ (SlotMap.ofList [(0, 1)]), .place ⟨0, 0, 0⟩ (SlotMap.ofList [(0, 1)]),
    .place ⟨1, 0, 0⟩ (SlotMap.ofList [(0, 1)]), .tick, .tick]

theorem lazy_steps_eq_eager_birth :
    ∃ w : World, Reachable w ∧
      w.rule = (Interpreter.ofRules birthRules OrderedMap.empty).localRule ∧
      ∀ u ∈ w.stepsAlong birthRun,
        ∀ p, u.terrain.isLoaded p.home = true → ∀ slot < w.rule.channels,
          u.step.1.read p slot =
            (w.rule.outcome (u.placed.world.viewAt p)).applied (u.placed.world.read p) slot := by
  obtain ⟨w, hw⟩ : ∃ w, ofTerrain Terrain.empty
      (Interpreter.ofRules birthRules OrderedMap.empty).localRule Config.fast = .ok w := ⟨_, rfl⟩
  have hnew := (eq_of_ofTerrain hw).1
  have hrule : w.rule = (Interpreter.ofRules birthRules OrderedMap.empty).localRule := by rw [hnew]
  have hsections : w.sections = OrderedMap.empty := by rw [hnew]
  have hreads : ReadsWithin birthRules 1 := by unfold ReadsWithin; decide
  have hwheel : w.wheel.isEmpty = true := by
    rw [hnew, TimingWheel.isEmpty_iff]
    exact fun d _ => TimingWheel.pending_ofSize _ d
  -- around any cell of an empty terrain there is nothing but air
  have hair : ∀ p, w.viewAt p = ⟨fun _ _ => 0, w.rule.channels⟩ := by
    intro p
    rw [hnew]
    show (⟨fun _ slot => if slot = 0 then 0 else 0, _⟩ : View) = _
    simp only [ite_self]
  refine ⟨w, Reachable.new hw, hrule, fun u hu => ?_⟩
  refine (lazy_steps_eq_eager (Reachable.new hw) hrule hreads hwheel ?_ ?_ ?_ birthRun ?_ u hu).1
  · intro s hs
    rw [hsections] at hs
    cases hs
  · intro s storage hs
    rw [hsections] at hs
    cases hs
  · intro p _ _
    rw [Quiet, hair, hrule]
    decide
  · simp [birthRun]

end World

end BlockAutomata.Engine
