/-
  What counts as a modification.

  1. Applying a request counts when it changes a channel of its cell.  It also counts when the cell
     is reset and was not empty, even if the request then writes what was there before, because the
     reset is looked at by itself (`Turn.Touches`).

  2. A step applies its requests one after the other, each in the turn that the ones before it
     leave.  `applications` lists these turns with their requests.  The report counts those of them
     that touch their cells (`modified_step`), so it tells of a change when there is one of them.

  3. A block that is placed again where it stands is such a reset
     (`exists_counted_without_change`).
-/
import BlockAutomata.Proofs.Engine.Tracking

namespace BlockAutomata.Engine

namespace Turn

/-! ## One request -/

/-- Whether applying the request changes a channel of its cell, or resets a cell with a channel that
    is not 0. -/
def Touches (t : Turn) (r : Request) : Prop :=
  (∃ slot, (t.apply r).2.world.read r.cell slot ≠ t.world.read r.cell slot) ∨
    (r.action.reset = true ∧ ∃ slot, t.world.read r.cell slot ≠ 0)

theorem modifiedBy_iff_touches {t : Turn} {r : Request} (h : t.world.admits r = true) :
    t.world.modifiedBy r = true ↔ t.Touches r := by
  have hafter : ∀ slot,
      (t.apply r).2.world.read r.cell slot = t.world.attempted r slot := by
    intro slot
    rw [read_apply, if_pos rfl]
  rw [World.admits, Bool.and_eq_true] at h
  obtain ⟨n, hn⟩ := Option.isSome_iff_exists.1 h.1
  simp only [Touches, hafter, World.attempted, World.modifiedBy, hn, Option.getD_some]
  exact Action.modifies_iff h.2 fun slot hslot => World.read_eq_zero_of_channels_le hn hslot

theorem modified_report_apply (t : Turn) (r : Request) :
    (t.apply r).2.report.modified =
      t.report.modified + (t.world.modifiedBy r && t.world.admits r).toNat := by
  rw [report_apply]
  cases t.world.admits r <;> cases t.world.modifiedBy r <;> rfl

theorem modified_report_placing (t : Turn) (r : Request) :
    (t.placing r).2.report.modified =
      t.report.modified +
        ((t.provided r).world.modifiedBy r && (t.provided r).world.admits r).toNat := by
  have h := modified_report_apply (t.provided r) r
  rw [placing, applyPlacement_eq]
  split <;> exact h

theorem modified_apply_of_touches {t : Turn} {r : Request} (hadmits : t.world.admits r = true)
    (h : t.Touches r) : (t.apply r).2.report.modified = t.report.modified + 1 := by
  rw [modified_report_apply, (modifiedBy_iff_touches hadmits).2 h, hadmits]
  rfl

theorem modified_apply_of_not_touches {t : Turn} {r : Request}
    (h : t.world.admits r = true → ¬ t.Touches r) :
    (t.apply r).2.report.modified = t.report.modified := by
  rw [modified_report_apply]
  cases hadmits : t.world.admits r with
  | false => rw [Bool.and_false]; rfl
  | true =>
    have hmodified : t.world.modifiedBy r = false := by
      rw [Bool.eq_false_iff, Ne, modifiedBy_iff_touches hadmits]
      exact h hadmits
    rw [hmodified]
    rfl

/-! ## Several requests -/

/-- The requests with the turns in which they are handled. -/
def occasions (handle : Turn → Request → Bool × Turn) :
    Turn → List Request → List (Turn × Request)
  | _, [] => []
  | t, r :: rest => (t, r) :: occasions handle (handle t r).2 rest

variable {handle : Turn → Request → Bool × Turn}

/-- The accepted requests are those that are applied on their occasions. -/
theorem accepted_eq (t : Turn) (requests : List Request) :
    accepted handle t requests =
      ((occasions handle t requests).filter fun e => (handle e.1 e.2).1).map Prod.snd := by
  induction requests generalizing t with
  | nil => rfl
  | cons r rest ih =>
    rw [occasions, List.filter_cons]
    cases hr : (handle t r).1 with
    | false => rw [accepted_cons_of_not_applied hr, ih, if_neg Bool.false_ne_true]
    | true => rw [accepted_cons_of_applied hr, ih, if_pos rfl, List.map_cons]

/-- A count that goes up on certain occasions tells how many of them there are. -/
theorem count_occasions (count : Turn → Nat) {counts : Turn → Request → Bool}
    (hstep : ∀ t r, count (handle t r).2 = count t + (counts t r).toNat)
    (t : Turn) (requests : List Request) :
    count (handleAll handle t requests) =
      count t + (occasions handle t requests).countP fun e => counts e.1 e.2 := by
  induction requests generalizing t with
  | nil => rfl
  | cons r rest ih =>
    show count (handleAll handle (handle t r).2 rest) = _
    rw [ih, hstep, occasions, List.countP_cons]
    cases counts t r <;> simp [Nat.add_assoc, Nat.add_comm 1]

/-- Every request has its occasion. -/
theorem exists_occasion (handle : Turn → Request → Bool × Turn) {r : Request}
    {requests : List Request} (h : r ∈ requests) (t : Turn) :
    ∃ u, (u, r) ∈ occasions handle t requests := by
  induction requests generalizing t with
  | nil => cases h
  | cons r' rest ih =>
    rcases List.mem_cons.1 h with rfl | h
    · exact ⟨t, List.mem_cons_self⟩
    · obtain ⟨u, hu⟩ := ih h (handle t r').2
      exact ⟨u, List.mem_cons_of_mem _ hu⟩

/-- What every request keeps holds on all occasions. -/
theorem forall_mem_occasions {motive : Turn → Prop}
    (hstep : ∀ t r, motive t → motive (handle t r).2) {t : Turn} (h : motive t)
    (requests : List Request) : ∀ e ∈ occasions handle t requests, motive e.1 := by
  induction requests generalizing t with
  | nil => exact fun e he => absurd he List.not_mem_nil
  | cons r rest ih =>
    intro e he
    rcases List.mem_cons.1 he with rfl | he
    · exact h
    · exact ih (hstep t r h) e he

end Turn

namespace World

/-! ## One step -/

/-- What the step applies, each request in the turn in which it is applied. -/
def applications (w : World) : List (Turn × Request) :=
  (((Turn.occasions Turn.placing w.opening w.placements).map fun e => (e.1.provided e.2, e.2)) ++
      Turn.occasions Turn.apply w.ready (w.immediate ++ w.fired)).filter
    fun e => e.1.world.admits e.2

theorem map_snd_applications (w : World) :
    w.applications.map Prod.snd = w.appliedPlacements ++ w.appliedDue := by
  rw [applications, List.filter_append, List.map_append, List.filter_map, List.map_map,
    appliedPlacements, appliedDue, Turn.accepted_eq, Turn.accepted_eq]
  simp only [Turn.placing_fst, Turn.apply_fst]
  rfl

/-- The first block is placed once its section has storage. -/
theorem firstRequest_mem_applications (rule : LocalRule) :
    ((firstBlock rule).opening.provided firstRequest, firstRequest) ∈
      (firstBlock rule).applications := by
  have hadmits :
      ((firstBlock rule).opening.provided firstRequest).world.admits firstRequest = true := by
    rw [admits, channelsAt_provided_firstBlock]
    rfl
  exact List.mem_filter.2 ⟨List.mem_append_left _ List.mem_cons_self, hadmits⟩

/-- The report counts the applications that modify their cells. -/
theorem modified_step (w : World) :
    w.step.2.modified = w.applications.countP fun e => e.1.world.modifiedBy e.2 := by
  have hplaced := Turn.count_occasions (fun t => t.report.modified)
    Turn.modified_report_placing w.opening w.placements
  have hdone := Turn.count_occasions (fun t => t.report.modified)
    Turn.modified_report_apply w.ready (w.immediate ++ w.fired)
  have hopening : w.opening.report.modified = 0 := rfl
  have hready : w.ready.report.modified = w.placed.report.modified := by
    rw [report_ready]
    rfl
  rw [step_eq_flush, report_flush]
  show w.done.report.modified = _
  rw [done_eq, hdone, hready, placed_eq, hplaced, hopening, Nat.zero_add, applications,
    List.countP_filter, List.countP_append, List.countP_map]
  rfl

/-- A step reports a change if it applies a request that touches its cell. -/
theorem changed_step (w : World) :
    w.step.2.changed = true ↔ ∃ e ∈ w.applications, e.1.Touches e.2 := by
  rw [Report.changed, decide_eq_true_iff, modified_step, List.countP_pos_iff]
  refine exists_congr fun e => and_congr_right fun he => ?_
  exact Turn.modifiedBy_iff_touches (List.mem_filter.1 he).2

/-! ## A tick -/

theorem changed_add (r s : Report) : (r.add s).changed = (r.changed || s.changed) := by
  rw [Report.changed, Report.changed, Report.changed, ← Bool.decide_or, decide_eq_decide]
  show 0 < r.modified + s.modified ↔ _
  omega

/-- Steps report a change if one of them does. -/
theorem changed_steps (n : Nat) (w : World) (report : Report) :
    (steps n (w, report)).2.changed = true ↔
      report.changed = true ∨ ∃ u ∈ stepStarts n w, u.step.2.changed = true := by
  induction n generalizing w report with
  | zero => simp [steps, stepStarts]
  | succ n ih =>
    show (steps n (w.step.1, report.add w.step.2)).2.changed = true ↔ _
    rw [ih, changed_add, Bool.or_eq_true, or_assoc]
    simp only [stepStarts, List.mem_cons, exists_eq_or_imp]

/-- A request is counted as a modification exactly when it is applied and touches its cell.  So a
    step, and a tick, reports a change exactly when it applies a request that touches its cell. -/
theorem modified_exactly (w : World) :
    (∀ (t : Turn) (r : Request),
      ((t.apply r).1 = true → t.Touches r →
        (t.apply r).2.report.modified = t.report.modified + 1) ∧
      (((t.apply r).1 = true → ¬ t.Touches r) →
        (t.apply r).2.report.modified = t.report.modified)) ∧
    w.applications.map Prod.snd = w.appliedPlacements ++ w.appliedDue ∧
    (w.step.2.changed = true ↔ ∃ e ∈ w.applications, e.1.Touches e.2) ∧
    (w.runTick.2.changed = true ↔
      ∃ u ∈ stepStarts w.config.stepsPerTick w, ∃ e ∈ u.applications, e.1.Touches e.2) := by
  refine ⟨fun t r => ?_, map_snd_applications w, changed_step w, ?_⟩
  · rw [Turn.apply_fst]
    exact ⟨Turn.modified_apply_of_touches, Turn.modified_apply_of_not_touches⟩
  · refine (changed_steps w.config.stepsPerTick w (Report.ofTick w.tick)).trans ?_
    simp only [changed_step]
    exact or_iff_right Bool.false_ne_true

/-- Placing the first block changes its cell, so the step reports a change. -/
theorem modified_exactly_firstBlock :
    ∃ (w : World) (t : Turn) (r : Request), Reachable w ∧ (t, r) ∈ w.applications ∧
      (t.apply r).1 = true ∧ t.Touches r ∧
      (t.apply r).2.report.modified = t.report.modified + 1 ∧ w.step.2.changed = true := by
  obtain ⟨hcount, -, hstep, -⟩ := modified_exactly (firstBlock default)
  have hmem := firstRequest_mem_applications default
  have happlied := (Turn.apply_fst _ _).trans (List.mem_filter.1 hmem).2
  have htouches : ((firstBlock default).opening.provided firstRequest).Touches firstRequest := by
    refine Or.inl ⟨0, ?_⟩
    have hafter := read_placed_firstBlock default
    rw [placed_eq, Turn.handleAll] at hafter
    have hbefore : ((firstBlock default).opening.provided firstRequest).world.read
        firstRequest.cell 0 = 0 := by
      rw [Turn.provided, read_provide]
      rfl
    rw [hbefore, ← Turn.world_placing]
    exact fun hzero => absurd (hafter.symm.trans hzero) (by decide)
  exact ⟨_, _, _, reachable_firstBlock default, hmem, happlied, htouches,
    (hcount _ _).1 happlied htouches, hstep.2 ⟨_, hmem, htouches⟩⟩

/-! ## A reset that changes nothing -/

/-- The first block has been placed, and is to be placed into its cell again. -/
theorem exists_sameBlock :
    ∃ w, Reachable w ∧ w.placements = [firstRequest] ∧ w.immediate ++ w.fired = [] ∧
      w.channelsAt firstRequest.cell.home = some 1 ∧ w.read firstRequest.cell 0 = 1 := by
  have hidle : ∀ v, ((default : LocalRule).outcome v).actions = [] := fun _ => rfl
  obtain ⟨w, hreachable, hrule, hplacements, hpending, -, hchannels, hblock⟩ :=
    exists_settled_firstBlock hidle
  refine ⟨w.place ⟨8, 8, 8⟩ (SlotMap.ofList [(0, 1)]), hreachable.obey (.place _ _), ?_,
    due_eq_nil ?_ hpending, hchannels, hblock⟩
  · rw [place, hplacements]
    rfl
  · show ∀ v, (w.rule.outcome v).actions = []
    rw [hrule]
    exact hidle

/-- Placing a block where it already stands leaves the channels of the cell as they are.  When this
    is all that the step applies, the step still reports a change. -/
theorem exists_counted_without_change :
    ∃ (w : World) (t : Turn) (r : Request), Reachable w ∧ w.applications = [(t, r)] ∧
      (t.apply r).1 = true ∧
      (∀ slot, (t.apply r).2.world.read r.cell slot = t.world.read r.cell slot) ∧
      (t.apply r).2.report.modified = t.report.modified + 1 ∧ w.step.2.changed = true := by
  obtain ⟨w, hreachable, hplacements, hdue, hchannels, hblock⟩ := exists_sameBlock
  have hprovided : (w.opening.provided firstRequest).world.channelsAt firstRequest.cell.home =
      some 1 := by
    rw [Turn.provided, channelsAt_provide, if_neg]
    · exact hchannels
    · rintro ⟨-, hnone, -⟩
      exact absurd (hchannels.symm.trans hnone) (Option.some_ne_none 1)
  have hread : (w.opening.provided firstRequest).world.read firstRequest.cell 0 = 1 := by
    rw [Turn.provided, read_provide]
    exact hblock
  have hadmits : (w.opening.provided firstRequest).world.admits firstRequest = true := by
    rw [admits, hprovided]
    rfl
  have htouches : (w.opening.provided firstRequest).Touches firstRequest := by
    refine Or.inr ⟨rfl, 0, ?_⟩
    rw [hread]
    decide
  have happlications :
      w.applications = [(w.opening.provided firstRequest, firstRequest)] := by
    rw [applications, hplacements, hdue]
    exact List.filter_cons_of_pos hadmits
  refine ⟨w, w.opening.provided firstRequest, firstRequest, hreachable, happlications, ?_, ?_,
    Turn.modified_apply_of_touches hadmits htouches, ?_⟩
  · rw [Turn.apply_fst, hadmits]
  · intro slot
    have hguard : ∀ own, firstRequest.action.guardHolds own = true := fun _ => rfl
    rw [Turn.read_apply, if_pos rfl, attempted, hprovided, Option.getD_some, Action.attempt,
      if_pos (hguard _)]
    cases slot with
    | zero => exact hread.symm
    | succ slot => exact if_neg (by omega)
  · rw [changed_step, happlications]
    exact ⟨_, List.mem_singleton_self _, htouches⟩

end World

end BlockAutomata.Engine
