/-
  How many channels the storage of a section has.

  1. Storage that is there keeps its size until its section is unloaded, and new storage has as many
     channels as the rule says (`channelsAt_obey_cases`, `channelsAt_obey_of_some`).  Both hold
     along a run, so that storage fits after a run exactly if what is left of the first storage does
     (`channelsFit_after_iff`).

  2. An exchange of the rule does not go by the number that the rule says: it gives the storage that
     is there one channel for each name, and one for the block (`channelsAt_exchangeRule`).

  3. So storage always fits if every rule has as many channels as its names ask for.  After an
     exchange for any other rule it fits only once all sections that had storage before have been
     unloaded (`channelsFit_exact`).

  4. A rule without names but with a second channel is such a rule (`exists_storage_too_small`).
-/
import BlockAutomata.Proofs.Engine.Reachability

namespace BlockAutomata

/-- The rule asks for a channel for each of its names, and one for the block. -/
def LocalRule.CountsNames (r : LocalRule) : Prop := max r.channels 1 = r.names.length + 1

namespace Engine.World

/-! ## Runs with rules of one kind -/

/-- The worlds that an engine can be in if all the rules that it is given have some property. -/
inductive ReachableWith (Given : LocalRule → Prop) : World → Prop where
  | new {terrain : Terrain} {rule : LocalRule} {config : Config} {w : World} (hgiven : Given rule)
      (h : ofTerrain terrain rule config = .ok w) : ReachableWith Given w
  | obey {w : World} (h : ReachableWith Given w) (c : Command) : ReachableWith Given (w.obey c)
  | exchange {w w' : World} {rule : LocalRule} (h : ReachableWith Given w) (hgiven : Given rule)
      (hrule : w.exchangeRule rule = .ok w') : ReachableWith Given w'

variable {Given : LocalRule → Prop} {w w' : World} {rule : LocalRule}

theorem ReachableWith.reachable (h : ReachableWith Given w) : Reachable w := by
  induction h with
  | new _ hnew => exact Reachable.new hnew
  | obey _ c ih => exact ih.obey c
  | exchange _ _ hrule ih => exact ih.exchange hrule

theorem rule_obey (w : World) (c : Command) : (w.obey c).rule = w.rule := by
  cases c with
  | tick => exact (Grows.runTick w).rule
  | place p channels => rfl
  | load s =>
    show (w.sectionLoaded s).rule = w.rule
    rw [sectionLoaded_eq]
  | unload s => rfl
  | takeEvents => rfl
  | reshape terrain => rfl

/-- An exchange puts the new rule into place. -/
theorem rule_seedAll_relaid (w : World) (rule : LocalRule) (wheel : TimingWheel Request) :
    (w.relaid rule wheel).seedAll.rule = rule :=
  (Grows.seedAll _).rule

theorem rule_exchangeRule (h : w.exchangeRule rule = .ok w') : w'.rule = rule := by
  obtain ⟨wheel, rfl⟩ := eq_of_exchangeRule h
  exact rule_seedAll_relaid w rule wheel

theorem ReachableWith.given (h : ReachableWith Given w) : Given w.rule := by
  induction h with
  | new hgiven hnew =>
    rw [(eq_of_ofTerrain hnew).1]
    exact hgiven
  | @obey w _ c ih =>
    rw [rule_obey]
    exact ih
  | @exchange w w' rule _ hgiven hrule _ =>
    rw [rule_exchangeRule hrule]
    exact hgiven

theorem reachableWith_firstBlock {rule : LocalRule} (hgiven : Given rule) :
    ReachableWith Given (firstBlock rule) := by
  obtain ⟨w, hw, hplace⟩ := exists_firstBlock rule
  rw [← hplace]
  exact (ReachableWith.new hgiven hw).obey (.place _ _)

/-! ## Along a run -/

/-- Storage after a command is new, or it has been there and its section is not unloaded. -/
theorem channelsAt_obey_cases {c : Command} {s : Section} {n : Nat}
    (hs : (w.obey c).channelsAt s = some n) :
    n = max w.rule.channels 1 ∨ (w.channelsAt s = some n ∧ c ≠ .unload s) := by
  have hgrows : ∀ {u v : World}, Grows u v → v.channelsAt s = some n → u.rule = w.rule →
      n = max w.rule.channels 1 ∨ u.channelsAt s = some n := by
    intro u v huv hv hrule
    rcases huv.channelsAt s n hv with hu | ⟨hn, -⟩
    · exact Or.inr hu
    · exact Or.inl (hrule ▸ hn)
  cases c with
  | tick => exact (hgrows (Grows.runTick w) hs rfl).imp_right fun hs => ⟨hs, nofun⟩
  | place p channels => exact Or.inr ⟨hs, nofun⟩
  | load a =>
    have hs : (w.sectionLoaded a).channelsAt s = some n := hs
    cases ha : w.terrain.isLoaded a with
    | false =>
      rw [sectionLoaded_of_not_isLoaded ha] at hs
      exact Or.inr ⟨hs, nofun⟩
    | true =>
      rw [sectionLoaded_of_isLoaded ha] at hs
      rcases hgrows (Grows.seed _ a) hs (by rw [refreshed_eq]) with hn | hs
      · exact Or.inl hn
      · rw [channelsAt_refreshed] at hs
        split at hs
        · next hsa =>
          subst hsa
          cases hold : w.channelsAt s with
          | none => exact Or.inl (by rw [hold] at hs; exact (Option.some.inj hs).symm)
          | some m => exact Or.inr ⟨by rw [hold] at hs; exact hs, nofun⟩
        · exact Or.inr ⟨hs, nofun⟩
  | unload a =>
    have hs : (w.sectionUnloaded a).channelsAt s = some n := hs
    rw [channelsAt_sectionUnloaded] at hs
    split at hs
    · cases hs
    · next hne => exact Or.inr ⟨hs, fun h => hne (Command.unload.inj h).symm⟩
  | takeEvents => exact Or.inr ⟨hs, nofun⟩
  | reshape terrain => exact Or.inr ⟨hs, nofun⟩

theorem channelsAt_runTick_of_some {s : Section} {n : Nat} (hs : w.channelsAt s = some n) :
    w.runTick.1.channelsAt s = some n := by
  rw [channelsAt_runTick]
  exact stepped_invariant (fun u (hu : u.channelsAt s = some n) =>
    channelsAt_step_of_some (channelsAt_placed_of_some hu)) _ hs

/-- Only unloading its section drops storage or changes its size. -/
theorem channelsAt_obey_of_some {c : Command} {s : Section} {n : Nat}
    (hs : w.channelsAt s = some n) (hc : c ≠ .unload s) : (w.obey c).channelsAt s = some n := by
  cases c with
  | tick => exact channelsAt_runTick_of_some hs
  | place p channels => exact hs
  | load a =>
    show (w.sectionLoaded a).channelsAt s = some n
    cases ha : w.terrain.isLoaded a with
    | false =>
      rw [sectionLoaded_of_not_isLoaded ha]
      exact hs
    | true =>
      rw [sectionLoaded_of_isLoaded ha]
      refine channelsAt_seed_of_some ?_ a
      rw [channelsAt_refreshed]
      split
      · next hsa => rw [← hsa, hs, Option.getD_some]
      · exact hs
  | unload a =>
    show (w.sectionUnloaded a).channelsAt s = some n
    have hne : s ≠ a := fun h => hc (congrArg Command.unload h.symm)
    rw [channelsAt_sectionUnloaded, if_neg hne]
    exact hs
  | takeEvents => exact hs
  | reshape terrain => exact hs

theorem rule_after (w : World) (run : List Command) : (w.after run).rule = w.rule := by
  unfold World.after
  induction run generalizing w with
  | nil => rfl
  | cons c rest ih => rw [List.foldl_cons, ih, rule_obey]

theorem channelsAt_after_cases {run : List Command} {s : Section} {n : Nat}
    (hs : (w.after run).channelsAt s = some n) :
    n = max w.rule.channels 1 ∨ (w.channelsAt s = some n ∧ .unload s ∉ run) := by
  unfold World.after at hs
  induction run generalizing w with
  | nil => exact Or.inr ⟨hs, List.not_mem_nil⟩
  | cons c rest ih =>
    rcases ih hs with hn | ⟨hobey, hrest⟩
    · rw [rule_obey] at hn
      exact Or.inl hn
    · exact (channelsAt_obey_cases hobey).imp_right fun ⟨hold, hc⟩ =>
        ⟨hold, List.not_mem_cons_of_ne_of_not_mem hc.symm hrest⟩

theorem channelsAt_after_of_some {run : List Command} {s : Section} {n : Nat}
    (hs : w.channelsAt s = some n) (hrun : .unload s ∉ run) :
    (w.after run).channelsAt s = some n := by
  unfold World.after
  induction run generalizing w with
  | nil => exact hs
  | cons c rest ih =>
    have hc : c ≠ .unload s := (List.ne_of_not_mem_cons hrun).symm
    exact ih (channelsAt_obey_of_some hs hc) (List.not_mem_of_not_mem_cons hrun)

/-- Storage fits after a run exactly if the storage that has been there all along does. -/
theorem channelsFit_after_iff (w : World) (run : List Command) :
    (w.after run).ChannelsFit ↔
      ∀ s n, w.channelsAt s = some n → .unload s ∉ run → n = max w.rule.channels 1 := by
  unfold ChannelsFit
  rw [rule_after]
  constructor
  · exact fun hfit s n hs hrun => hfit s n (channelsAt_after_of_some hs hrun)
  · intro hkept s n hs
    rcases channelsAt_after_cases hs with hn | ⟨hold, hrun⟩
    · exact hn
    · exact hkept s n hold hrun

/-! ## The two sizes -/

/-- An exchange gives storage that is there a channel for each name, and one for the block. -/
theorem channelsAt_exchangeRule (h : w.exchangeRule rule = .ok w') {s : Section}
    (hs : (w.channelsAt s).isSome = true) : w'.channelsAt s = some (rule.names.length + 1) := by
  obtain ⟨wheel, rfl⟩ := eq_of_exchangeRule h
  obtain ⟨n, hn⟩ := Option.isSome_iff_exists.1 hs
  refine channelsAt_seedAll_of_some ?_
  rw [channelsAt_relaid, hn, sourceSlots, Option.map_some, List.length_cons, List.length_map]

/-- After an exchange, storage has been there before, or it is new. -/
theorem channelsAt_exchangeRule_cases (h : w.exchangeRule rule = .ok w') {s : Section} {n : Nat}
    (hs : w'.channelsAt s = some n) :
    ((w.channelsAt s).isSome = true ∧ n = rule.names.length + 1) ∨ n = max rule.channels 1 := by
  cases hold : w.channelsAt s with
  | some m =>
    rw [channelsAt_exchangeRule h (by rw [hold]; rfl)] at hs
    exact Or.inl ⟨rfl, (Option.some.inj hs).symm⟩
  | none =>
    obtain ⟨wheel, rfl⟩ := eq_of_exchangeRule h
    rcases (Grows.seedAll (w.relaid rule wheel)).channelsAt s n hs with hs | ⟨hn, -⟩
    · rw [channelsAt_relaid, hold] at hs
      cases hs
    · exact Or.inr hn

/-- All storage has as many channels as the rule says, or as its names ask for. -/
theorem Reachable.channelsAt_eq_or (h : Reachable w) :
    ∀ s n, w.channelsAt s = some n → n = max w.rule.channels 1 ∨ n = w.rule.names.length + 1 := by
  induction h with
  | new hnew =>
    rw [(eq_of_ofTerrain hnew).1]
    exact fun s n hs => (by cases hs)
  | @obey w _ c ih =>
    intro s n hs
    rw [rule_obey]
    rcases channelsAt_obey_cases hs with hn | ⟨hold, -⟩
    · exact Or.inl hn
    · exact ih s n hold
  | @exchange w w' rule _ hrule _ =>
    intro s n hs
    rw [rule_exchangeRule hrule]
    rcases channelsAt_exchangeRule_cases hrule hs with ⟨-, hn⟩ | hn
    · exact Or.inr hn
    · exact Or.inl hn

/-! ## When storage fits -/

theorem ReachableWith.channelsFit_of_countsNames (h : ReachableWith LocalRule.CountsNames w) :
    w.ChannelsFit := by
  intro s n hs
  have hcounts : max w.rule.channels 1 = w.rule.names.length + 1 := h.given
  rcases h.reachable.channelsAt_eq_or s n hs with hn | hn
  · exact hn
  · rw [hn, hcounts]

/-- After an exchange and a run, storage fits exactly if the new rule counts its names, or all the
    sections that had storage before the exchange have been unloaded. -/
theorem channelsFit_after_exchangeRule_iff (h : w.exchangeRule rule = .ok w')
    (run : List Command) :
    (w'.after run).ChannelsFit ↔
      rule.CountsNames ∨ ∀ s, (w.channelsAt s).isSome = true → .unload s ∈ run := by
  rw [channelsFit_after_iff, rule_exchangeRule h]
  constructor
  · intro hkept
    by_cases hall : ∀ s, (w.channelsAt s).isSome = true → .unload s ∈ run
    · exact Or.inr hall
    · obtain ⟨s, hs⟩ := Classical.not_forall.1 hall
      obtain ⟨hold, hrun⟩ := Classical.not_imp.1 hs
      exact Or.inl (hkept s _ (channelsAt_exchangeRule h hold) hrun).symm
  · intro hcounts s n hs hrun
    rcases channelsAt_exchangeRule_cases h hs with ⟨hold, hn⟩ | hn
    · rcases hcounts with hcounts | hall
      · rw [hn, ← hcounts]
      · exact absurd (hall s hold) hrun
    · exact hn

/-- Storage fits as long as all rules count their names, and as long as the rule is not exchanged.
    Some time after an exchange it fits exactly if the new rule counts its names, or all the
    sections that had storage before have been unloaded since. -/
theorem channelsFit_exact (w : World) (run : List Command) :
    (ReachableWith LocalRule.CountsNames w → w.ChannelsFit) ∧
    (∀ (terrain : Terrain) (rule : LocalRule) (config : Config),
      ofTerrain terrain rule config = .ok w → (w.after run).ChannelsFit) ∧
    ∀ (before : World) (rule : LocalRule), before.exchangeRule rule = .ok w →
      ((w.after run).ChannelsFit ↔
        rule.CountsNames ∨ ∀ s, (before.channelsAt s).isSome = true → .unload s ∈ run) := by
  refine ⟨fun h => h.channelsFit_of_countsNames, ?_,
    fun before rule h => channelsFit_after_exchangeRule_iff h run⟩
  intro terrain rule config h
  rw [channelsFit_after_iff, (eq_of_ofTerrain h).1]
  exact fun s n hs => (by cases hs)

/-- The section of the first block has storage, and the rule is exchanged for one with a name. -/
theorem channelsFit_exact_firstBlock :
    ∃ (w w' : World) (s : Section) (rule : LocalRule), ReachableWith LocalRule.CountsNames w ∧
      w.channelsAt s = some 1 ∧ w.ChannelsFit ∧ rule.CountsNames ∧
      w.exchangeRule rule = .ok w' ∧ w'.channelsAt s = some 2 ∧
      ∀ run, (w'.after run).ChannelsFit := by
  have hcounts : LocalRule.CountsNames default := rfl
  have hreachable := (reachableWith_firstBlock hcounts).obey .tick
  let rule : LocalRule := ⟨["heat"], 2, fun _ => false, fun _ => .idle⟩
  obtain ⟨wheel, hexchange, -⟩ := (firstBlock default).runTick.1.exists_exchangeRule rule
  have hlaid := channelsAt_exchangeRule hexchange
    (Option.isSome_iff_exists.2 ⟨1, channelsAt_runTick_firstBlock default⟩)
  exact ⟨_, _, _, rule, hreachable, channelsAt_runTick_firstBlock default,
    (channelsFit_exact _ []).1 hreachable, rfl, hexchange, hlaid,
    fun run => ((channelsFit_exact _ run).2.2 _ _ hexchange).2 (Or.inl rfl)⟩

/-! ## Storage that does not fit -/

/-- A rule with a second channel that has no name. -/
def roomyRule : LocalRule := ⟨[], 2, fun _ => false, fun _ => .idle⟩

/-- The section of the first block has storage when the rule is exchanged for one with a second
    channel.  It is left with one channel. -/
theorem exists_storage_too_small :
    ∃ (w w' : World) (s : Section), Reachable w ∧ w.exchangeRule roomyRule = .ok w' ∧
      w'.channelsAt s = some 1 ∧ max w'.rule.channels 1 = 2 ∧ ¬ w'.ChannelsFit := by
  have hreachable : Reachable (firstBlock default).runTick.1 :=
    (reachable_firstBlock default).obey .tick
  obtain ⟨wheel, hexchange, -⟩ := (firstBlock default).runTick.1.exists_exchangeRule roomyRule
  have hlaid := channelsAt_exchangeRule hexchange
    (Option.isSome_iff_exists.2 ⟨1, channelsAt_runTick_firstBlock default⟩)
  refine ⟨_, _, _, hreachable, hexchange, hlaid, by rw [rule_exchangeRule hexchange]; rfl, ?_⟩
  intro hfit
  have hn := hfit _ _ hlaid
  rw [rule_exchangeRule hexchange] at hn
  exact absurd hn (by decide)

end Engine.World

end BlockAutomata
