/-
  Exchanging the rule moves everything by name.

  1. An exchange never fails.  Every channel of the new rule takes its values over from the channel
     of the same name, tasks and placements are carried over along with their delays and their
     order, and what was tracked stays tracked (`Migrated`).

  2. Between rules with the same names nothing moves at all (`Undisturbed`).  For the channels this
     needs that storage has no more of them than there are names, which is so as long as all rules
     say so (`channelsFit`).

  3. Requests may name slots that are no channel of any rule.  Such a slot does not survive even
     when the new rule has the same names: a task that is guarded by one is dropped
     (`exists_task_dropped`).
-/
import BlockAutomata.Proofs.Engine.Layout
import BlockAutomata.Proofs.Engine.Renumbering
import BlockAutomata.Proofs.Engine.Tracking

namespace BlockAutomata

/-- The rule has distinct names, and cells have a channel for each of them and one for the block. -/
structure LocalRule.WellNamed (r : LocalRule) : Prop where
  nodup : r.names.Nodup
  channels : r.channels = r.names.length + 1

namespace Engine.World

variable {w : World}

/-- When all rules are well named, storage has as many channels as the rule says. -/
theorem ReachableWith.channelsFit (h : ReachableWith LocalRule.WellNamed w) : w.ChannelsFit := by
  have hchannels := h.given.channels
  intro s n hs
  rcases h.reachable.channelsAt_eq_or s n hs with hn | hn
  · exact hn
  · omega

/-- A channel beyond the names of the rule is 0. -/
theorem read_eq_zero_of_names_lt (hrule : w.rule.WellNamed) (hfit : w.ChannelsFit) (p : Cell)
    {slot : Nat} (hslot : w.rule.names.length < slot) : w.read p slot = 0 := by
  cases hs : w.channelsAt p.home with
  | none => rw [read_of_channelsAt_eq_none hs, if_neg (Nat.ne_of_gt (Nat.zero_lt_of_lt hslot))]
  | some n =>
    have hn := hfit _ _ hs
    rw [hrule.channels] at hn
    exact read_eq_zero_of_channels_le hs (by omega)

/-! ## The migration -/

/-- What an exchange of the rule makes of a world. -/
structure Migrated (w w' : World) : Prop where
  /-- sections keep their storage, with the channels of the new rule -/
  stored : ∀ s, (w.channelsAt s).isSome = true → w'.channelsAt s = some w'.rule.channels
  /-- the block and all channels that both rules name keep their values -/
  kept : ∀ slot slot', SameChannel w.rule w'.rule slot slot' →
    ∀ p, w'.read p slot' = w.read p slot
  /-- all other channels are 0 -/
  new : ∀ slot', (∀ slot, ¬ SameChannel w.rule w'.rule slot slot') → ∀ p, w'.read p slot' = 0
  /-- the wheel has its size -/
  size : w'.wheel.size = w.wheel.size
  /-- of the tasks of each delay, those whose guards survive are carried over in order -/
  tasks : ∀ d < w.wheel.size,
    List.Forall₂ (CarriedOver w.rule w'.rule)
      ((w.wheel.pending d).filter (guardSurvives w.rule w'.rule)) (w'.wheel.pending d)
  /-- all placements are carried over in order -/
  placements : List.Forall₂ (CarriedOver w.rule w'.rule) w.placements w'.placements
  /-- cells that were tracked stay tracked -/
  tracked : ∀ p, w.tracks p = true → w'.tracks p = true

/-- What an exchange of the rule leaves alone if the new rule has the same names. -/
structure Undisturbed (w w' : World) : Prop where
  /-- every channel keeps its values -/
  read : ∀ p slot, w'.read p slot = w.read p slot
  /-- the guard of a request that names channels only survives -/
  survives : ∀ r, NamesChannels w.rule r → guardSurvives w.rule w'.rule r = true
  /-- a task that names channels only does not change -/
  tasks : ∀ d < w.wheel.size,
    List.Forall₂ (fun r r' => NamesChannels w.rule r → r' = r)
      ((w.wheel.pending d).filter (guardSurvives w.rule w'.rule)) (w'.wheel.pending d)
  /-- a placement that names channels only does not change -/
  placements : List.Forall₂ (fun r r' => NamesChannels w.rule r → r' = r) w.placements w'.placements

/-- Requests without a guard are all carried over. -/
theorem filter_guardSurvives_eq_self {old new : LocalRule} {l : List Request}
    (h : ∀ r ∈ l, r.action.guard = none) : l.filter (guardSurvives old new) = l := by
  refine List.filter_eq_self.2 fun r hr => ?_
  unfold guardSurvives
  rw [h r hr]

theorem migrated_of_exchangeRule (hreachable : Reachable w) (hold : w.rule.names.Nodup)
    {rule : LocalRule} (hnew : rule.WellNamed) :
    ∃ w', w.exchangeRule rule = .ok w' ∧ w'.rule = rule ∧ Migrated w w' := by
  obtain ⟨wheel, hwheel, hsize, hpending⟩ := w.exists_exchangeRule rule
  have hrule := rule_seedAll_relaid w rule wheel
  have hlength : (sourceSlots w.rule rule).length = rule.channels := by
    rw [hnew.channels, sourceSlots, List.length_cons, List.length_map]
  refine ⟨_, hwheel, hrule, ?_⟩
  constructor
  · intro s hs
    obtain ⟨n, hn⟩ := Option.isSome_iff_exists.1 hs
    refine channelsAt_seedAll_of_some ?_
    rw [channelsAt_relaid, hn, hrule, ← hlength]
    rfl
  · rw [hrule]
    intro slot slot' hsame p
    rw [read_seedAll, read_relaid, (sourceSlots_eq_some_iff hold).2 hsame]
  · rw [hrule]
    intro slot' hother p
    rw [read_seedAll, read_relaid]
    split
    · rename_i source hsource
      exact absurd ((sourceSlots_eq_some_iff hold).1 hsource) (hother source)
    · rfl
  · rw [seedAll_eq]
    exact hsize
  · intro d hd
    rw [hrule, seedAll_eq]
    show List.Forall₂ _ _ (wheel.pending d)
    rw [hpending d hd]
    exact forall₂_filterMap_renumberRequest hold hnew.nodup _
  · have hcarried := forall₂_filterMap_renumberRequest hold hnew.nodup w.placements
    rw [filter_guardSurvives_eq_self hreachable.guard_of_mem_placements] at hcarried
    rw [hrule, seedAll_eq]
    exact hcarried
  · intro p hp
    refine tracks_seedAll ?_
    rw [tracks_relaid]
    exact hp

/-- A migration between rules with the same names disturbs nothing, as long as storage has no
    channels beyond the names. -/
theorem Migrated.undisturbed {w' : World} (h : Migrated w w') (hrule : w.rule.WellNamed)
    (hfit : w.ChannelsFit) (hnames : w'.rule.names = w.rule.names) : Undisturbed w w' := by
  have hsame : ∀ {r r'}, CarriedOver w.rule w'.rule r r' → NamesChannels w.rule r → r' = r :=
    fun hr => hr.eq_of_namesChannels hnames hrule.nodup
  constructor
  · intro p slot
    rcases Nat.lt_or_ge w.rule.names.length slot with hlt | hle
    · have hnone : ∀ source, ¬ SameChannel w.rule w'.rule source slot := by
        intro source hsource
        obtain ⟨rfl, hle⟩ := (sameChannel_iff_of_names_eq hnames hrule.nodup).1 hsource
        exact Nat.not_lt.2 hle hlt
      rw [h.new slot hnone, read_eq_zero_of_names_lt hrule hfit p hlt]
    · exact h.kept slot slot ((sameChannel_iff_of_names_eq hnames hrule.nodup).2 ⟨rfl, hle⟩) p
  · exact fun r => guardSurvives_of_namesChannels hnames hrule.nodup
  · exact fun d hd => (h.tasks d hd).imp fun _ _ => hsame
  · exact h.placements.imp fun _ _ => hsame

/-- With well-named rules an exchange never fails.  It moves channels, tasks and placements by name,
    and if the new rule has the same names it disturbs nothing that names channels only. -/
theorem exchangeRule_migrates (h : ReachableWith LocalRule.WellNamed w) {rule : LocalRule}
    (hrule : rule.WellNamed) :
    ∃ w', w.exchangeRule rule = .ok w' ∧ w'.rule = rule ∧ Migrated w w' ∧
      (rule.names = w.rule.names → Undisturbed w w') := by
  obtain ⟨w', hw', hnew, hmigrated⟩ :=
    migrated_of_exchangeRule h.reachable h.given.nodup hrule
  refine ⟨w', hw', hnew, hmigrated, fun hnames => ?_⟩
  exact hmigrated.undisturbed h.given h.channelsFit (by rw [hnew, hnames])

theorem wellNamed_default : LocalRule.WellNamed default := ⟨List.nodup_nil, rfl⟩

/-- A rule with a channel, and one with none, for a world in which a block waits to be placed. -/
theorem exchangeRule_migrates_firstBlock :
    ∃ (w w₁ w₂ : World) (rule : LocalRule), ReachableWith LocalRule.WellNamed w ∧
      rule.WellNamed ∧ w.rule.WellNamed ∧ w.placements = [firstRequest] ∧
      (w.exchangeRule rule = .ok w₁ ∧ w₁.rule = rule ∧ Migrated w w₁) ∧
      w.exchangeRule w.rule = .ok w₂ ∧ Undisturbed w w₂ := by
  have hreachable := reachableWith_firstBlock wellNamed_default
  let rule : LocalRule := ⟨["heat"], 2, fun _ => false, fun _ => .idle⟩
  have hrule : rule.WellNamed := ⟨List.nodup_singleton _, rfl⟩
  obtain ⟨w₁, hw₁, hnew, hmigrated, -⟩ := exchangeRule_migrates hreachable hrule
  obtain ⟨w₂, hw₂, -, -, hundisturbed⟩ := exchangeRule_migrates hreachable wellNamed_default
  exact ⟨_, w₁, w₂, rule, hreachable, hrule, wellNamed_default, rfl, ⟨hw₁, hnew, hmigrated⟩, hw₂,
    hundisturbed rfl⟩

/-! ## Slots of no channel -/

/-- A write that is guarded by slot 1. -/
def strayWrite : Action := Action.guardedWrite 2 (SlotMap.ofList [(1, 0)]) (SlotMap.ofList [(0, 2)])

/-- A rule without named channels, which asks for this write where there is a block of 1. -/
def strayRule : LocalRule where
  names := []
  channels := 1
  watches := fun _ => false
  outcome := fun v => if v.own 0 = 1 then .one strayWrite else .idle

/-- The task that it leads to. -/
def strayTask : Request := Request.undelayed ⟨firstRequest.cell, strayWrite⟩

theorem outcome_strayRule {v : View} (h : v.own 0 = 1) : strayRule.outcome v = .one strayWrite :=
  if_pos h

/-- The rule asks for the task with a delay of two steps. -/
theorem exists_asked_strayTask :
    ∃ r ∈ (firstBlock strayRule).asked, r.action.delay = 2 ∧ r.undelayed = strayTask := by
  have htracked : (firstBlock strayRule).placed.world.tracks firstRequest.cell = true := by
    rw [tracks_placed, appliedPlacements_firstBlock, mem_wokenBy]
    exact Or.inr ⟨keeps_firstBlock _ _, firstRequest, List.mem_singleton_self _, Offset.zero,
      by decide, by decide⟩
  have hrule : (firstBlock strayRule).placed.world.rule = strayRule := by rw [placed_frame]; rfl
  have hown : ((firstBlock strayRule).placed.world.viewAt firstRequest.cell).own 0 = 1 := by
    rw [own_viewAt, read_placed_firstBlock]
  have hplace := (reachable_firstBlock strayRule).trackedInPlace
  refine ⟨⟨firstRequest.cell, strayWrite⟩, mem_asked hplace htracked ?_, rfl, rfl⟩
  rw [Turn.evaluate, hrule, outcome_strayRule hown]
  exact List.mem_singleton_self _

/-- After a tick the task has one more step to wait. -/
theorem strayTask_mem_pending :
    strayTask ∈ (firstBlock strayRule).runTick.1.wheel.pending 1 := by
  obtain ⟨r, hr, hdelay, htask⟩ := exists_asked_strayTask
  have hsize : (firstBlock strayRule).wheel.size = 32 := TimingWheel.size_ofSize _
  rw [wheel_runTick]
  show strayTask ∈ (firstBlock strayRule).step.1.wheel.pending 1
  rw [pending_step _ (by omega), if_neg (by omega)]
  refine List.mem_append_right _ (List.mem_map.2 ⟨r, List.mem_filter.2 ⟨hr, ?_⟩, htask⟩)
  simpa using hdelay

/-- No task is carried over to the one with the stray guard, since slot 1 is no channel. -/
theorem not_carriedOver_strayTask (r : Request) :
    ¬ CarriedOver strayRule strayRule r strayTask := by
  intro h
  have hguard := h.guard
  cases hg : r.action.guard with
  | none => rw [hg] at hguard; cases hguard
  | some guard =>
    rw [hg] at hguard
    have hmoved : MovedTo strayRule strayRule guard (SlotMap.ofList [(1, 0)]) := by
      cases hguard
      assumption
    obtain ⟨slot, hsame, -⟩ := (hmoved 1 0).1 rfl
    cases hsame with
    | named hold hnew => cases hnew

/-- A rule is exchanged for itself, and a task that is guarded by a slot of no channel is lost. -/
theorem exists_task_dropped :
    ∃ w w' : World, ReachableWith LocalRule.WellNamed w ∧ w.exchangeRule w.rule = .ok w' ∧
      ∃ d < w.wheel.size, ∃ r ∈ w.wheel.pending d, r ∉ w'.wheel.pending d := by
  have hnamed : strayRule.WellNamed := ⟨List.nodup_nil, rfl⟩
  have hreachable : ReachableWith LocalRule.WellNamed (firstBlock strayRule).runTick.1 :=
    (reachableWith_firstBlock hnamed).obey .tick
  have hrule : (firstBlock strayRule).runTick.1.rule = strayRule := rule_obey _ .tick
  have hsize : 1 < (firstBlock strayRule).runTick.1.wheel.size := by
    rw [wheel_runTick]
    show 1 < (firstBlock strayRule).step.1.wheel.size
    rw [size_step]
    decide
  obtain ⟨wheel, hwheel, -, hpending⟩ :=
    (firstBlock strayRule).runTick.1.exists_exchangeRule (firstBlock strayRule).runTick.1.rule
  refine ⟨_, _, hreachable, hwheel, 1, hsize, strayTask, strayTask_mem_pending, ?_⟩
  rw [seedAll_eq]
  show strayTask ∉ wheel.pending 1
  rw [hpending 1 hsize, renumbering, hrule]
  intro hmem
  obtain ⟨r, -, hr⟩ := List.mem_filterMap.1 hmem
  have hspec := renumberRequest_spec hnamed.nodup hnamed.nodup r
  rw [hr] at hspec
  split at hspec
  · obtain ⟨r', hr', hcarried⟩ := hspec
    rw [← Option.some.inj hr'] at hcarried
    exact not_carriedOver_strayTask r hcarried
  · cases hspec

end Engine.World

end BlockAutomata
