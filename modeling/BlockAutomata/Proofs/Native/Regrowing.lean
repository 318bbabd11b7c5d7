/-
  Grass grows where dirt was left alone, but not only there.

  1. A dirt cell that is evaluated defers its change to the 25th step from now, guarded by being
     dirt.  So in each step at most one task is due for a cell, and it is due just if the cell was
     evaluated as dirt 25 steps earlier (`Sown`).

  2. The guard looks at the cell when the task is due, and at no other time.  So the task turns the
     cell to grass if it is dirt then, and nothing else the rule does changes a block
     (`regrows_or_read_step_eq`).

  3. As the rule never makes dirt, a cell that becomes grass has been dirt for as long as nobody but
     the rule has changed it (`regrows_along_run`).

  4. Dirt that is taken away and put back meanwhile becomes grass as if it had never been away,
     since the task of the first dirt finds the second (`exists_early_regrowth`).
-/
import BlockAutomata.Native.Regrowth
import BlockAutomata.Proofs.Engine.Deferral
import BlockAutomata.Proofs.Engine.Layout
import BlockAutomata.Proofs.Engine.Tracking

namespace BlockAutomata.Engine.World

open Native

variable {dirt grass : Int64}

/-! ## The task -/

/-- What the wheel keeps of the change that a dirt cell asks for. -/
def regrowTask (dirt grass : Int64) (p : Cell) : Request := ⟨p, (regrow dirt grass).undelayed⟩

theorem attempt_regrow {n : Nat} (hn : 0 < n) (own : Nat → Int64) :
    (regrow dirt grass).undelayed.attempt n own 0 = if own 0 = dirt then grass else own 0 := by
  have hguard : (regrow dirt grass).undelayed.guardHolds own = (own 0 == dirt && true) := rfl
  rw [Action.attempt, hguard, Bool.and_true]
  by_cases hdirt : own 0 = dirt
  · rw [if_pos hdirt, if_pos (beq_iff_eq.2 hdirt)]
    exact if_pos hn
  · rw [if_neg hdirt, if_neg (by simpa using hdirt)]

/-- Dirt with storage becomes grass, and nothing else happens to the block of any cell. -/
theorem read_apply_regrowTask (t : Turn) (p q : Cell) :
    (t.apply (regrowTask dirt grass p)).2.world.read q 0 =
      if q = p ∧ (t.world.channelsAt p.home).isSome = true ∧ t.world.read p 0 = dirt then grass
      else t.world.read q 0 := by
  have hcell : (regrowTask dirt grass p).cell = p := rfl
  rw [Turn.read_apply, hcell]
  by_cases hq : q = p
  · subst hq
    rw [if_pos rfl]
    show (regrow dirt grass).undelayed.attempt ((t.world.channelsAt q.home).getD 0)
      (t.world.read q) 0 = _
    cases hn : t.world.channelsAt q.home with
    | none =>
      rw [if_neg fun hc => Bool.noConfusion hc.2.1, Option.getD_none, Action.attempt]
      simp
    | some n =>
      rw [Option.getD_some, attempt_regrow (channelsAt_pos hn)]
      simp only [Option.isSome_some, true_and]
  · rw [if_neg hq, if_neg fun hc => hq hc.1]

/-! ## What is asked for -/

section

variable {u : World} {p : Cell}

theorem evaluate_regrowth {v : World} (hrule : v.rule = regrowth dirt grass) (p : Cell) :
    Turn.evaluate v p = if v.read p 0 = dirt then [⟨p, regrow dirt grass⟩] else [] := by
  have hown : (v.viewAt p).own 0 = v.read p 0 := own_viewAt v p 0
  rw [Turn.evaluate, hrule, regrowth]
  dsimp only
  rw [hown]
  split <;> rfl

theorem action_of_mem_asked (hrule : u.rule = regrowth dirt grass) {r : Request}
    (hr : r ∈ u.asked) : r.action = regrow dirt grass := by
  obtain ⟨q, -, hr⟩ := List.mem_flatMap.1 hr
  rw [evaluate_regrowth ((Grows.placed u).rule.trans hrule)] at hr
  split at hr
  · rw [List.mem_singleton.1 hr]
  · cases hr

/-- The rule asks for nothing at once. -/
theorem immediate_eq_nil (hrule : u.rule = regrowth dirt grass) : u.immediate = [] := by
  refine List.filter_eq_nil_iff.2 fun r hr => ?_
  rw [action_of_mem_asked hrule hr]
  exact Bool.false_ne_true

/-- A dirt cell that is tracked asks for its change once. -/
theorem filter_asked_regrowth (hrule : u.rule = regrowth dirt grass) (hplace : u.TrackedInPlace)
    (p : Cell) :
    (u.asked.filter fun r => r.cell = p) =
      if u.placed.world.tracks p = true ∧ u.placed.world.read p 0 = dirt then
        [⟨p, regrow dirt grass⟩]
      else [] := by
  rw [filter_asked hplace, evaluate_regrowth ((Grows.placed u).rule.trans hrule)]
  by_cases htracks : u.placed.world.tracks p = true
  · rw [if_pos htracks]
    simp only [htracks, true_and]
  · rw [if_neg htracks, if_neg fun hc => htracks hc.1]

end

/-! ## What is due -/

/-- The cell was evaluated as dirt so many steps earlier that its change is due in the n-th. -/
def Sown (starts : List World) (dirt : Int64) (p : Cell) (n : Nat) : Prop :=
  ∃ m v, m + regrowthDelay = n ∧ starts[m]? = some v ∧ v.placed.world.tracks p = true ∧
    v.placed.world.read p 0 = dirt

/-- The worlds in which the steps of a run begin that the rule is in charge of from the start. -/
structure RunsRegrowth (dirt grass : Int64) (size : Nat) (starts : List World) : Prop where
  fits : regrowthDelay < size
  rule_eq : ∀ u ∈ starts, u.rule = regrowth dirt grass
  inPlace : ∀ u ∈ starts, u.TrackedInPlace
  fired_eq : ∀ n u, starts[n]? = some u → u.fired = deferredTo size starts n

theorem runsRegrowth_of_new {terrain : Terrain} {config : Config} {w : World}
    (hw : ofTerrain terrain (regrowth dirt grass) config = .ok w ∨
      ofLoaded terrain (regrowth dirt grass) config = .ok w)
    (hfits : regrowthDelay < config.wheelSize) (run : List Command) :
    RunsRegrowth dirt grass config.wheelSize (w.stepsAlong run) := by
  obtain ⟨hnew, hsize⟩ := eq_of_new hw
  have hreachable : Reachable w := hw.elim Reachable.new reachable_of_ofLoaded
  have hrule : w.rule = regrowth dirt grass := by rw [hnew]
  refine ⟨hfits, ?_, ?_, fun n u hn => (fired_of_new hw run hn).2⟩
  · exact forall_mem_stepsAlong (fun c _ u hu => (rule_obey u c).trans hu)
      (fun u hu => (Grows.step u).rule.trans hu) hrule
  · exact trackedInPlace_stepsAlong hreachable.trackedInPlace run

section

variable {size : Nat} {starts : List World} {n : Nat} {u : World} {p : Cell}

theorem RunsRegrowth.delay_of_mem_askedAt (h : RunsRegrowth dirt grass size starts) {t : Nat}
    {r : Request} (hr : r ∈ askedAt starts t) : r.action.delay = regrowthDelay := by
  rw [askedAt] at hr
  cases ht : starts[t]? with
  | none => rw [ht] at hr; cases hr
  | some v =>
    rw [ht] at hr
    rw [action_of_mem_asked (h.rule_eq v (List.mem_of_getElem? ht)) hr]
    rfl

/-- What fires in a step is what was asked for 25 steps earlier. -/
theorem RunsRegrowth.fired_eq_map (h : RunsRegrowth dirt grass size starts)
    (hn : starts[n]? = some u) :
    u.fired =
      if regrowthDelay ≤ n then (askedAt starts (n - regrowthDelay)).map Request.undelayed
      else [] := by
  have hpos : 0 < regrowthDelay := by decide
  have hterm : ∀ t, ((askedAt starts t).filter fun r =>
      0 < r.action.delay ∧ r.action.delay < size ∧ t + r.action.delay = n).map Request.undelayed =
        if regrowthDelay ≤ n ∧ t = n - regrowthDelay then
          (askedAt starts (n - regrowthDelay)).map Request.undelayed
        else [] := by
    intro t
    split
    · rename_i ht
      obtain ⟨hle, rfl⟩ := ht
      rw [List.filter_eq_self.2]
      intro r hr
      rw [h.delay_of_mem_askedAt hr, decide_eq_true_iff]
      exact ⟨hpos, h.fits, by omega⟩
    · rename_i ht
      rw [List.filter_eq_nil_iff.2, List.map_nil]
      intro r hr
      rw [h.delay_of_mem_askedAt hr, decide_eq_true_iff]
      omega
  -- only one of the steps asked for anything that is due now
  rw [h.fired_eq n u hn, deferredTo, List.flatMap_congr fun t _ => hterm t]
  by_cases hle : regrowthDelay ≤ n
  · simp only [hle, true_and, if_true]
    rw [flatMap_range_ite, if_pos (by omega)]
  · simp only [hle, false_and, if_false]
    exact List.flatMap_eq_nil_iff.2 fun _ _ => rfl

/-- A cell that was sown has one task that is due. -/
theorem RunsRegrowth.filter_fired_of_sown (h : RunsRegrowth dirt grass size starts)
    (hn : starts[n]? = some u) (hsown : Sown starts dirt p n) :
    (u.fired.filter fun r => r.cell = p) = [regrowTask dirt grass p] := by
  obtain ⟨m, v, rfl, hm, htracks, hdirt⟩ := hsown
  have hv := List.mem_of_getElem? hm
  have hasked := askedAt_of_getElem? hm
  have hfilter := filter_asked_regrowth (h.rule_eq v hv) (h.inPlace v hv) p
  rw [if_pos ⟨htracks, hdirt⟩] at hfilter
  rw [h.fired_eq_map hn, if_pos (Nat.le_add_left _ _), Nat.add_sub_cancel, hasked, List.filter_map]
  exact congrArg (List.map Request.undelayed) hfilter

/-- A cell that was not sown has none. -/
theorem RunsRegrowth.sown_of_mem_fired (h : RunsRegrowth dirt grass size starts)
    (hn : starts[n]? = some u) {r : Request} (hr : r ∈ u.fired) : Sown starts dirt r.cell n := by
  rw [h.fired_eq_map hn] at hr
  split at hr
  · rename_i hle
    obtain ⟨asked, hasked, rfl⟩ := List.mem_map.1 hr
    cases hm : starts[n - regrowthDelay]? with
    | none => rw [askedAt, hm] at hasked; cases hasked
    | some v =>
      rw [askedAt_of_getElem? hm] at hasked
      have hv := List.mem_of_getElem? hm
      have hself : asked ∈ v.asked.filter fun r => r.cell = asked.cell :=
        List.mem_filter.2 ⟨hasked, decide_eq_true rfl⟩
      rw [filter_asked_regrowth (h.rule_eq v hv) (h.inPlace v hv)] at hself
      split at hself
      · rename_i hcell
        exact ⟨_, v, Nat.sub_add_cancel hle, hm, hcell.1, hcell.2⟩
      · cases hself
  · cases hr

/-! ## One step -/

/-- A task that is due turns the cell from dirt into grass. -/
def Regrows (u : World) (dirt grass : Int64) (p : Cell) : Prop :=
  ∃ before r after, u.fired = before ++ r :: after ∧ r.cell = p ∧
    ((u.ready.applyAll u.immediate).applyAll before).world.read p 0 = dirt ∧
    (((u.ready.applyAll u.immediate).applyAll before).apply r).2.world.read p 0 = grass

/-- Around the task for a cell, the block of the cell is as after the placements before it, and as
    after the step behind it. -/
theorem read_around {before after : List Request} {r : Request}
    (himmediate : u.immediate = []) (hfired : u.fired = before ++ r :: after)
    (hbefore : ∀ x ∈ before, x.cell ≠ p) (hafter : ∀ x ∈ after, x.cell ≠ p) (slot : Nat) :
    ((u.ready.applyAll u.immediate).applyAll before).world.read p slot =
        u.placed.world.read p slot ∧
      u.step.1.read p slot =
        (((u.ready.applyAll u.immediate).applyAll before).apply r).2.world.read p slot := by
  constructor
  · rw [Turn.read_applyAll_of_forall_ne hbefore, himmediate]
    exact u.read_ready p slot
  · rw [step_eq, read_flush, hfired, Turn.applyAll_append]
    exact Turn.read_applyAll_of_forall_ne hafter slot

/-- A cell that becomes grass was sown, was dirt until then, and is grass when the step ends. -/
theorem RunsRegrowth.of_regrows (h : RunsRegrowth dirt grass size starts)
    (hn : starts[n]? = some u) (hgrows : u.Regrows dirt grass p) :
    Sown starts dirt p n ∧ u.placed.world.read p 0 = dirt ∧ u.step.1.read p 0 = grass := by
  obtain ⟨before, r, after, hfired, rfl, hdirt, hgrass⟩ := hgrows
  have hsown := h.sown_of_mem_fired hn (hfired ▸ List.mem_append_right _ List.mem_cons_self)
  have hone := h.filter_fired_of_sown hn hsown
  -- no other task is for this cell
  rw [hfired, List.filter_append, List.filter_cons_of_pos (by simp)] at hone
  obtain ⟨hbefore, hrest⟩ : (before.filter fun x => x.cell = r.cell) = [] ∧
      (after.filter fun x => x.cell = r.cell) = [] := by
    have hlength := congrArg List.length hone
    simp only [List.length_append, List.length_cons, List.length_nil] at hlength
    exact ⟨List.length_eq_zero_iff.1 (by omega), List.length_eq_zero_iff.1 (by omega)⟩
  obtain ⟨hread, hstep⟩ := read_around (p := r.cell)
    (immediate_eq_nil (h.rule_eq u (List.mem_of_getElem? hn))) hfired
    (fun x hx => by simpa using List.filter_eq_nil_iff.1 hbefore x hx)
    (fun x hx => by simpa using List.filter_eq_nil_iff.1 hrest x hx) 0
  exact ⟨hsown, hread.symm.trans hdirt, hstep.trans hgrass⟩

/-- Dirt that was sown and has storage becomes grass, and nothing else changes a block. -/
theorem RunsRegrowth.regrows_or_read_step_eq (h : RunsRegrowth dirt grass size starts)
    (hn : starts[n]? = some u) (p : Cell) :
    u.Regrows dirt grass p ∨
      (u.step.1.read p 0 = u.placed.world.read p 0 ∧
        ¬ (u.placed.world.read p 0 = dirt ∧ Sown starts dirt p n ∧
          (u.placed.world.channelsAt p.home).isSome = true)) := by
  have himmediate := immediate_eq_nil (h.rule_eq u (List.mem_of_getElem? hn))
  by_cases hsown : Sown starts dirt p n
  · obtain ⟨before, after, hfired, -, hbefore, hafter⟩ :=
      split_of_filter_eq_singleton (h.filter_fired_of_sown hn hsown)
    obtain ⟨hread, hstep⟩ := read_around himmediate hfired hbefore hafter 0
    rw [read_apply_regrowTask, hread] at hstep
    split at hstep
    · rename_i hdue
      refine .inl ⟨before, _, after, hfired, rfl, hread.trans hdue.2.2, ?_⟩
      rw [read_apply_regrowTask, hread, if_pos hdue]
    · rename_i hdue
      refine .inr ⟨hstep, fun ⟨hdirt, _, hstored⟩ => hdue ⟨rfl, ?_, hdirt⟩⟩
      -- storage that is there after the placements is there when the task is due
      obtain ⟨k, hk⟩ := Option.isSome_iff_exists.1 hstored
      rw [himmediate]
      have hready : u.ready.world.channelsAt p.home = some k := by rw [channelsAt_ready, hk]
      exact Option.isSome_iff_exists.2 ⟨k, Turn.channelsAt_applyAll_of_some hready before⟩
  · refine .inr ⟨?_, fun hc => hsown hc.2.1⟩
    have hnone : ∀ r ∈ u.fired, r.cell ≠ p := by
      rintro r hr rfl
      exact hsown (h.sown_of_mem_fired hn hr)
    rw [step_eq, read_flush, Turn.read_applyAll_of_forall_ne hnone, himmediate]
    exact u.read_ready p 0

/-! ## A run -/

/-- From the end of the m-th step until the rule is asked in the n-th, nobody but the rule has
    changed the block of the cell. -/
def LeftAlone (starts : List World) (p : Cell) (m n : Nat) : Prop :=
  ∀ k v v', m ≤ k → k < n → starts[k]? = some v → starts[k + 1]? = some v' →
    v'.placed.world.read p 0 = v.step.1.read p 0

/-- The rule never makes dirt, so dirt that was left alone has been dirt all the time. -/
theorem RunsRegrowth.read_of_leftAlone (h : RunsRegrowth dirt grass size starts)
    (hne : dirt ≠ grass) (hn : starts[n]? = some u) (hdirt : u.placed.world.read p 0 = dirt)
    {m : Nat} {v : World} (hmn : m < n) (hm : starts[m]? = some v)
    (halone : LeftAlone starts p m n) : v.step.1.read p 0 = dirt := by
  induction n generalizing u with
  | zero => exact absurd hmn (Nat.not_lt_zero _)
  | succ n ih =>
    have hlt : n < starts.length := by
      obtain ⟨hlt, -⟩ := List.getElem?_eq_some_iff.1 hn
      omega
    obtain ⟨last, hlast⟩ : ∃ last, starts[n]? = some last := ⟨_, List.getElem?_eq_getElem hlt⟩
    have hend : last.step.1.read p 0 = dirt :=
      (halone n last u (by omega) (Nat.lt_succ_self n) hlast hn).symm.trans hdirt
    rcases Nat.lt_or_ge m n with hmn' | hge
    · -- had the cell become grass in this step, it would not be dirt at its end
      have hplaced : last.placed.world.read p 0 = dirt := by
        rcases h.regrows_or_read_step_eq hlast p with hgrows | ⟨hsame, -⟩
        · exact absurd (hend.symm.trans (h.of_regrows hlast hgrows).2.2) hne
        · exact hsame.symm.trans hend
      exact ih hlast hplaced hmn' fun k v v' hk hkn => halone k v v' hk (Nat.lt_succ_of_lt hkn)
    · obtain rfl : m = n := by omega
      obtain rfl := Option.some.inj (hm.symm.trans hlast)
      exact hend

end

/-! ## Dirt that is put back -/

/-- Put a block where the first block has been put. -/
def plant (block : Int64) : Command := .place firstRequest.cell (SlotMap.ofList [(0, block)])

/-- A block that is put into storage is there when the rule is asked. -/
theorem read_placed_plant {v : World} (hv : v.placements = []) {n : Nat}
    (hn : v.channelsAt firstRequest.cell.home = some n) (block : Int64) :
    (v.obey (plant block)).placed.world.read firstRequest.cell 0 = block := by
  let r : Request :=
    ⟨firstRequest.cell, { Action.write (SlotMap.ofList [(0, block)]) with reset := true }⟩
  let t : Turn := (v.obey (plant block)).opening
  have hplaced : (v.obey (plant block)).placed = t.applyPlacement r := by
    show (v.placements ++ [r]).foldl Turn.applyPlacement _ = _
    rw [hv]
    rfl
  have hstored : (t.provided r).world.channelsAt r.cell.home = some n := by
    rw [Turn.provided, channelsAt_provide, if_neg]
    · exact hn
    · rintro ⟨-, hnone, -⟩
      rw [show t.world.channelsAt r.cell.home = some n from hn] at hnone
      cases hnone
  have hguard : ∀ own, r.action.guardHolds own = true := fun _ => rfl
  rw [hplaced, Turn.world_applyPlacement, Turn.read_apply, if_pos rfl, attempted, hstored,
    Action.attempt, if_pos (hguard _)]
  exact if_pos (channelsAt_pos hn)

/-- Dirt is put into a cell, replaced after a step, and put back after another; then nobody touches
    it for a number of ticks. -/
def replanting (ticks : Nat) : List Command :=
  [plant 1, .tick, plant 3, .tick, plant 1] ++ List.replicate ticks .tick

theorem ticksIn_replanting (ticks : Nat) : ticksIn (replanting ticks) = ticks + 2 := by
  have hstart : ticksIn [plant 1, .tick, plant 3, .tick, plant 1] = 2 := rfl
  have hrest : ticksIn (List.replicate ticks .tick) = ticks := by
    rw [ticksIn, List.countP_replicate]
    exact if_pos rfl
  rw [ticksIn, replanting, List.countP_append]
  exact (congrArg₂ (· + ·) hstart hrest).trans (Nat.add_comm _ _)

section

variable {w : World}

/-- The world in which the first dirt waits to be placed. -/
theorem after_plant (hw : ofTerrain Terrain.empty (regrowth 1 2) Config.fast = .ok w) :
    w.after [plant 1] = firstBlock (regrowth 1 2) := by
  obtain ⟨w', hw', hplace⟩ := exists_firstBlock (regrowth 1 2)
  obtain rfl := Except.ok.inj (hw.symm.trans hw')
  exact hplace

theorem stepsPerTick_eq (hw : ofTerrain Terrain.empty (regrowth 1 2) Config.fast = .ok w) :
    w.config.stepsPerTick = 1 := by
  rw [(eq_of_ofTerrain hw).1]
  rfl

theorem stepsPerTick_after (hw : ofTerrain Terrain.empty (regrowth 1 2) Config.fast = .ok w)
    (run : List Command) : (w.after run).config.stepsPerTick = 1 := by
  rw [config_after, stepsPerTick_eq hw]

/-- The step in which the first dirt is placed evaluates it. -/
theorem sown_replanting (hw : ofTerrain Terrain.empty (regrowth 1 2) Config.fast = .ok w)
    (ticks : Nat) :
    Sown (w.stepsAlong (replanting ticks ++ [.tick])) 1 firstRequest.cell regrowthDelay := by
  have hfirst := getElem?_stepsAlong (stepsPerTick_eq hw) [plant 1]
    ([plant 3, .tick, plant 1] ++ List.replicate ticks .tick ++ [.tick])
  rw [after_plant hw] at hfirst
  exact ⟨0, _, rfl, hfirst, tracks_placed_firstBlock _, read_placed_firstBlock _⟩

/-- Once the first dirt has been placed, its section has storage. -/
theorem channelsAt_after_plant (hw : ofTerrain Terrain.empty (regrowth 1 2) Config.fast = .ok w)
    (run : List Command) (hrun : .unload firstRequest.cell.home ∉ run) :
    (w.after (plant 1 :: .tick :: run)).channelsAt firstRequest.cell.home = some 1 := by
  have htick : ((firstBlock (regrowth 1 2)).obey .tick).channelsAt firstRequest.cell.home =
      some 1 := channelsAt_runTick_firstBlock (regrowth 1 2)
  show (((w.after [plant 1]).obey .tick).after run).channelsAt _ = _
  rw [after_plant hw]
  exact channelsAt_after_of_some htick hrun

/-- In the first 25 steps no cell becomes grass. -/
theorem read_step_replanting (hw : ofTerrain Terrain.empty (regrowth 1 2) Config.fast = .ok w)
    (before after : List Command) (hearly : ticksIn before < regrowthDelay) (p : Cell) :
    (w.after before).step.1.read p 0 = (w.after before).placed.world.read p 0 := by
  have hn := getElem?_stepsAlong (stepsPerTick_eq hw) before after
  have hruns := runsRegrowth_of_new (.inl hw) (by decide) (before ++ .tick :: after)
  rcases hruns.regrows_or_read_step_eq hn p with hgrows | ⟨hsame, -⟩
  · obtain ⟨m, -, hm, -⟩ := (hruns.of_regrows hn hgrows).1
    omega
  · exact hsame

/-- With nothing but ticks, each step begins as the one before has ended. -/
theorem read_placed_replanting_succ
    (hw : ofTerrain Terrain.empty (regrowth 1 2) Config.fast = .ok w) (ticks : Nat) (p : Cell) :
    (w.after (replanting (ticks + 1))).placed.world.read p 0 =
      (w.after (replanting ticks)).step.1.read p 0 := by
  have hone := stepsPerTick_after hw (replanting ticks)
  have hlast : w.after (replanting (ticks + 1)) = (w.after (replanting ticks)).obey .tick := by
    rw [World.after, replanting, List.replicate_succ', ← List.append_assoc, List.foldl_append]
    rfl
  rw [hlast, read_placed_of_placements_eq_nil (placements_obey_tick hone), read_obey_tick hone]

/-- The dirt that was put back is still there. -/
theorem read_placed_replanting (hw : ofTerrain Terrain.empty (regrowth 1 2) Config.fast = .ok w)
    {ticks : Nat} (hticks : ticks + 2 ≤ regrowthDelay) :
    (w.after (replanting ticks)).placed.world.read firstRequest.cell 0 = 1 := by
  induction ticks with
  | zero =>
    have hstored := channelsAt_after_plant hw [plant 3, .tick] (by simp [plant])
    have hnone := placements_obey_tick (stepsPerTick_after hw [plant 1, .tick, plant 3])
    have hlast : w.after (replanting 0) =
        ((w.after [plant 1, .tick, plant 3]).obey .tick).obey (plant 1) := rfl
    rw [hlast]
    exact read_placed_plant hnone hstored 1
  | succ ticks ih =>
    rw [read_placed_replanting_succ hw,
      read_step_replanting hw _ [] (by rw [ticksIn_replanting]; omega)]
    exact ih (by omega)

/-- In the step that comes 25 steps after the first, the dirt that was put back becomes grass. -/
theorem regrows_replanting (hw : ofTerrain Terrain.empty (regrowth 1 2) Config.fast = .ok w) :
    (w.stepsAlong (replanting 23 ++ [.tick]))[25]? = some (w.after (replanting 23)) ∧
      (w.after (replanting 23)).Regrows 1 2 firstRequest.cell := by
  have hruns := runsRegrowth_of_new (.inl hw) (by decide) (replanting 23 ++ [.tick])
  have hn := getElem?_stepsAlong (stepsPerTick_eq hw) (replanting 23) []
  rw [ticksIn_replanting] at hn
  have hstored := channelsAt_placed_of_some (channelsAt_after_plant hw
    ([plant 3, .tick, plant 1] ++ List.replicate 23 .tick) (by simp [plant]))
  refine ⟨hn, (hruns.regrows_or_read_step_eq hn firstRequest.cell).resolve_right fun hc => ?_⟩
  exact hc.2 ⟨read_placed_replanting hw (Nat.le_refl _), sown_replanting hw 23,
    Option.isSome_iff_exists.2 ⟨1, hstored⟩⟩

end

/-! ## The law -/

/-- In a run under this rule, a cell becomes grass in a step only if it is dirt after the placements
    and was evaluated as dirt 25 steps earlier; and then it was dirt at the end of every step before
    since which nobody but the rule has changed it.  If the section has storage, it is enough to be
    dirt then and there.  Nothing else that the rule does changes the block of a cell. -/
theorem regrows_along_run {terrain : Terrain} {config : Config} {w : World}
    (hw : ofTerrain terrain (regrowth dirt grass) config = .ok w ∨
      ofLoaded terrain (regrowth dirt grass) config = .ok w)
    (hne : dirt ≠ grass) (hfits : regrowthDelay < config.wheelSize) (run : List Command) {n : Nat}
    {u : World} (hn : (w.stepsAlong run)[n]? = some u) (p : Cell) :
    (u.Regrows dirt grass p →
      u.placed.world.read p 0 = dirt ∧ Sown (w.stepsAlong run) dirt p n ∧
        ∀ m v, m < n → (w.stepsAlong run)[m]? = some v → LeftAlone (w.stepsAlong run) p m n →
          v.step.1.read p 0 = dirt) ∧
      (u.placed.world.read p 0 = dirt → Sown (w.stepsAlong run) dirt p n →
        (u.placed.world.channelsAt p.home).isSome = true → u.Regrows dirt grass p) ∧
      (¬ u.Regrows dirt grass p → u.step.1.read p 0 = u.placed.world.read p 0) := by
  have hruns := runsRegrowth_of_new hw hfits run
  have hcases := hruns.regrows_or_read_step_eq hn p
  refine ⟨fun hgrows => ?_, fun hdirt hsown hstored => ?_, fun hnot => ?_⟩
  · obtain ⟨hsown, hdirt, -⟩ := hruns.of_regrows hn hgrows
    exact ⟨hdirt, hsown, fun m v hmn hm => hruns.read_of_leftAlone hne hn hdirt hmn hm⟩
  · exact hcases.resolve_right fun hc => hc.2 ⟨hdirt, hsown, hstored⟩
  · exact (hcases.resolve_left hnot).1

/-- The step before the last has left the dirt alone. -/
theorem regrows_along_run_replanting :
    ∃ w u v, ofTerrain Terrain.empty (regrowth 1 2) Config.fast = .ok w ∧
      (w.stepsAlong (replanting 23 ++ [.tick]))[25]? = some u ∧ u.Regrows 1 2 firstRequest.cell ∧
      (w.stepsAlong (replanting 23 ++ [.tick]))[24]? = some v ∧
      v.step.1.read firstRequest.cell 0 = 1 := by
  obtain ⟨w, hw⟩ : ∃ w, ofTerrain Terrain.empty (regrowth 1 2) Config.fast = .ok w := ⟨_, rfl⟩
  obtain ⟨hn, hgrows⟩ := regrows_replanting hw
  have hbefore : (w.stepsAlong (replanting 23 ++ [.tick]))[24]? = some (w.after (replanting 22)) :=
    getElem?_stepsAlong (stepsPerTick_eq hw) (replanting 22) [.tick]
  refine ⟨w, _, _, hw, hn, hgrows, hbefore, ?_⟩
  refine ((regrows_along_run (.inl hw) (by decide) (by decide) _ hn _).1 hgrows).2.2 24 _
    (by decide) hbefore ?_
  intro k v v' hk hkn hv hv'
  obtain rfl : k = 24 := by omega
  obtain rfl := Option.some.inj (hbefore.symm.trans hv)
  obtain rfl := Option.some.inj (hn.symm.trans hv')
  exact read_placed_replanting_succ hw 22 _

/-- Dirt grows over 23 steps after it was put back, although the cell held stone at the end of one
    of the 25 steps before. -/
theorem exists_early_regrowth :
    ∃ w u v, ofTerrain Terrain.empty (regrowth 1 2) Config.fast = .ok w ∧
      (w.stepsAlong (replanting 23 ++ [.tick]))[25]? = some u ∧ u.Regrows 1 2 firstRequest.cell ∧
      (w.stepsAlong (replanting 23 ++ [.tick]))[1]? = some v ∧
      v.step.1.read firstRequest.cell 0 ≠ 1 := by
  obtain ⟨w, hw⟩ : ∃ w, ofTerrain Terrain.empty (regrowth 1 2) Config.fast = .ok w := ⟨_, rfl⟩
  obtain ⟨hn, hgrows⟩ := regrows_replanting hw
  have hsecond := getElem?_stepsAlong (stepsPerTick_eq hw) [plant 1, .tick, plant 3]
    (plant 1 :: (List.replicate 23 .tick ++ [.tick]))
  refine ⟨w, _, _, hw, hn, hgrows, hsecond, ?_⟩
  have hstone := read_placed_plant (placements_obey_tick (stepsPerTick_after hw [plant 1]))
    (channelsAt_after_plant hw [] List.not_mem_nil) 3
  rw [read_step_replanting hw [plant 1, .tick, plant 3] [] (by decide)]
  show (((w.after [plant 1]).obey .tick).obey (plant 3)).placed.world.read _ 0 ≠ 1
  rw [hstone]
  decide

end BlockAutomata.Engine.World
