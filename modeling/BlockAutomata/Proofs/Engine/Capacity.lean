/-
  How many channels a combined rule has room for.

  1. A combined rule asks for a channel for each of its names and one for the block, whatever number
     of channels its parts ask for.  Its names are the longest list among those of the rules at the
     bottom, so it has room for a part just if one of these has names enough (`Nest.fits_iff`).  For
     rules that count their names this is always so (`Nest.fits_of_countsNames`).

  2. In an engine with a combined rule all storage has the channels that the rule asks for, because
     the rule counts its names (`StepBegins.channelsFit`).  A request that is applied leaves what it
     writes in the channels that there are; what it writes beyond is lost
     (`Turn.read_apply_of_write`).

  3. A rule with a channel that has no name loses what it writes there once it is part of another
     (`exists_write_lost`).
-/
import BlockAutomata.Proofs.Combination
import BlockAutomata.Proofs.Engine.Layout
import BlockAutomata.Proofs.Engine.Modification

namespace BlockAutomata

/-! ## What a combined rule asks for -/

namespace Nest

/-- The nest is the other one, or lies somewhere inside of it. -/
inductive Inside (inner : Nest) : Nest → Prop where
  | here : Inside inner inner
  | deeper {nest : Nest} {nests : List Nest} (hmem : nest ∈ nests) (h : Inside inner nest) :
      Inside inner (.combined nests)

theorem mem_rulesAll {nests : List Nest} {rule : LocalRule} :
    rule ∈ rulesAll nests ↔ ∃ nest ∈ nests, rule ∈ nest.rules := by
  induction nests with
  | nil => simp [rulesAll]
  | cons nest nests ih =>
    rw [rulesAll, List.mem_append, ih]
    simp only [List.mem_cons, exists_eq_or_imp]

/-- The rules at the bottom of what lies inside are at the bottom of the whole. -/
theorem Inside.rules_subset {inner outer : Nest} (h : Inside inner outer) :
    inner.rules ⊆ outer.rules := by
  induction h with
  | here => exact List.Subset.refl _
  | deeper hmem _ ih =>
    intro rule hrule
    rw [rules]
    exact mem_rulesAll.2 ⟨_, hmem, ih hrule⟩

mutual

/-- Every rule at the bottom lies inside. -/
theorem inside_of_mem_rules : ∀ (nest : Nest) {rule : LocalRule}, rule ∈ nest.rules →
    Inside (.single rule) nest
  | .single r, rule, h => by
    rw [rules, List.mem_singleton] at h
    rw [h]
    exact .here
  | .combined nests, rule, h => by
    rw [rules] at h
    obtain ⟨nest, hmem, hinside⟩ := inside_of_mem_rulesAll nests h
    exact .deeper hmem hinside

theorem inside_of_mem_rulesAll : ∀ (nests : List Nest) {rule : LocalRule}, rule ∈ rulesAll nests →
    ∃ nest ∈ nests, Inside (.single rule) nest
  | [], rule, h => absurd h List.not_mem_nil
  | nest :: nests, rule, h => by
    rw [rulesAll] at h
    rcases List.mem_append.1 h with h | h
    · exact ⟨nest, List.mem_cons_self, inside_of_mem_rules nest h⟩
    · obtain ⟨nest', hmem, hinside⟩ := inside_of_mem_rulesAll nests h
      exact ⟨nest', List.mem_cons_of_mem nest hmem, hinside⟩

end

theorem standFor_of_build {nest : Nest} {r : LocalRule} (h : nest.build = .ok r) :
    StandFor [r] nest.rules := by
  rcases nest.build_spec with ⟨r', hr', hstand⟩ | ⟨e, he, -⟩
  · rw [h] at hr'
    rw [Except.ok.inj hr']
    exact hstand
  · rw [h] at he
    cases he

/-- A combined rule asks for a channel for each of its names and one for the block. -/
theorem channels_of_build {nests : List Nest} {r : LocalRule}
    (h : (Nest.combined nests).build = .ok r) : r.channels = r.names.length + 1 := by
  rw [build] at h
  cases hparts : buildAll nests with
  | error e => rw [hparts] at h; cases h
  | ok parts =>
    rw [hparts] at h
    cases hc : CombinedRule.ofParts parts with
    | error e =>
      have h : (CombinedRule.localRule <$> CombinedRule.ofParts parts) = .ok r := h
      rw [hc] at h
      cases h
    | ok c =>
      have h : (CombinedRule.localRule <$> CombinedRule.ofParts parts) = .ok r := h
      rw [hc] at h
      cases h
      rfl

end Nest

/-- A rule that stands for others has the longest of their lists of names. -/
theorem StandFor.exists_names_length {r : LocalRule} {rules : List LocalRule}
    (h : StandFor [r] rules) (hne : r.names ≠ []) :
    ∃ rule ∈ rules, r.names.length = rule.names.length := by
  have hpos := List.length_pos_of_ne_nil hne
  have hlast : r.nameOf? (r.names.length - 1 + 1) = some (r.names.getLast hne) := by
    rw [LocalRule.nameOf?, List.getLast_eq_getElem]
    exact List.getElem?_eq_getElem _
  obtain ⟨rule, hrule, hname⟩ := h.named r (List.mem_singleton_self r) _ _ hlast
  obtain ⟨hlt, -⟩ := List.getElem?_eq_some_iff.1 hname
  have hle := (h.names_prefix hrule).length_le
  exact ⟨rule, hrule, by omega⟩

namespace Nest

variable {nests : List Nest} {r : LocalRule}

/-- What lies inside has no more names than the whole. -/
theorem Inside.names_length_le {inner outer : Nest} {r' : LocalRule} (h : Inside inner outer)
    (houter : outer.build = .ok r) (hinner : inner.build = .ok r') :
    r'.names.length ≤ r.names.length := by
  by_cases hne : r'.names = []
  · rw [hne]
    exact Nat.zero_le _
  · obtain ⟨rule, hrule, hlength⟩ := (standFor_of_build hinner).exists_names_length hne
    rw [hlength]
    have hstand := standFor_of_build houter
    exact (hstand.names_prefix (h.rules_subset hrule)).length_le

/-- A combined rule has room for everything inside of it just if, for each rule at the bottom, there
    is one with enough names. -/
theorem fits_iff (h : (Nest.combined nests).build = .ok r) :
    (∀ inner r', Inside inner (.combined nests) → inner.build = .ok r' →
        r'.channels ≤ r.channels) ↔
      ∀ rule ∈ (Nest.combined nests).rules, ∃ other ∈ (Nest.combined nests).rules,
        rule.channels ≤ other.names.length + 1 := by
  have hchannels := channels_of_build h
  have hstand := standFor_of_build h
  constructor
  · intro hfits rule hrule
    have hle := hfits _ rule (inside_of_mem_rules _ hrule) rfl
    rw [hchannels] at hle
    by_cases hne : r.names = []
    · rw [hne] at hle
      exact ⟨rule, hrule, hle.trans (Nat.le_add_left 1 _)⟩
    · obtain ⟨other, hother, hlength⟩ := hstand.exists_names_length hne
      exact ⟨other, hother, hlength ▸ hle⟩
  · intro hnames inner r' hinside hinner
    rw [hchannels]
    cases inner with
    | single rule =>
      obtain rfl : rule = r' := Except.ok.inj hinner
      obtain ⟨other, hother, hle⟩ := hnames rule (hinside.rules_subset (List.mem_singleton_self _))
      exact hle.trans (Nat.succ_le_succ (hstand.names_prefix hother).length_le)
    | combined nests' =>
      rw [channels_of_build hinner]
      exact Nat.succ_le_succ (hinside.names_length_le h hinner)

/-- It always has room for rules that count their names. -/
theorem fits_of_countsNames (h : (Nest.combined nests).build = .ok r)
    (hcounts : ∀ rule ∈ (Nest.combined nests).rules, rule.CountsNames) :
    ∀ inner r', Inside inner (.combined nests) → inner.build = .ok r' →
      r'.channels ≤ r.channels := by
  refine (fits_iff h).2 fun rule hrule => ⟨rule, hrule, ?_⟩
  rw [← hcounts rule hrule]
  exact Nat.le_max_left _ _

end Nest

namespace Engine

/-! ## What an engine keeps -/

/-- A request that is applied leaves what it writes in the channels that the cell has. -/
theorem Turn.read_apply_of_write {t : Turn} {r : Request} (hadmits : t.world.admits r = true)
    {n : Nat} (hn : t.world.channelsAt r.cell.home = some n) {slot : Nat} {value : Int64}
    (hvalue : r.action.writes.get? slot = some value) :
    (t.apply r).2.world.read r.cell slot = if slot < n then value else 0 := by
  rw [World.admits, Bool.and_eq_true] at hadmits
  rw [read_apply, if_pos rfl, World.attempted, hn, Option.getD_some, Action.attempt,
    if_pos hadmits.2]
  by_cases hslot : slot < n
  · rw [if_pos hslot, if_pos hslot, Action.applied, hvalue, Option.getD_some]
  · rw [if_neg hslot, if_neg hslot]
    exact World.read_eq_zero_of_channels_le hn (Nat.le_of_not_lt hslot)

namespace World

/-- Nothing but storage is added on the way to the application of a request. -/
theorem grows_of_mem_applications {w : World} {e : Turn × Request} (he : e ∈ w.applications) :
    Grows w e.1.world := by
  rcases List.mem_append.1 (List.mem_filter.1 he).1 with he | he
  · obtain ⟨occasion, hmem, rfl⟩ := List.mem_map.1 he
    have hplacing : ∀ t r, Grows w t.world → Grows w (Turn.placing t r).2.world :=
      fun t r ht => ht.trans (Grows.applyPlacement t r)
    have hopening : Grows w w.opening.world := ⟨rfl, fun _ => rfl, fun _ _ h => Or.inl h⟩
    have ht := Turn.forall_mem_occasions (motive := fun t => Grows w t.world) hplacing hopening
      w.placements occasion hmem
    exact ht.trans (Grows.provide occasion.1.world occasion.2.cell)
  · exact Turn.forall_mem_occasions (motive := fun t => Grows w t.world)
      (fun t r ht => ht.trans (Grows.apply t r)) (Grows.ready w) _ e he

/-- Where the rule counts its names, all storage has as many channels as the rule asks for. -/
theorem StepBegins.channelsFit {u : World} (h : StepBegins u) (hcounts : u.rule.CountsNames) :
    u.ChannelsFit := by
  obtain ⟨w, hw, hu⟩ := h
  have htick : ∀ c ∈ [Command.tick], ∀ v : World, Grows w v → Grows w (v.obey c) := by
    intro c hc v hv
    rw [List.mem_singleton.1 hc]
    exact hv.trans (Grows.runTick v)
  have hsteps : ∀ v ∈ w.stepsAlong [.tick], Grows w v :=
    forall_mem_stepsAlong htick (fun v hv => hv.trans (Grows.step v)) (Grows.refl w)
  have hgrows := hsteps u (List.mem_append_left _ hu)
  rw [hgrows.rule] at hcounts
  refine ChannelsFit.of_grows ?_ hgrows
  intro s n hs
  rcases hw.channelsAt_eq_or s n hs with hn | hn
  · exact hn
  · rw [hn, hcounts]

/-- A combined rule has room for all that is named inside of it.  It has room for all channels of
    everything inside of it just if, for each rule at the bottom, there is one with enough names.
    An engine with this rule keeps what is written into the channels that there is room for, and
    loses what is written beyond. -/
theorem combined_keeps_writes {nests : List Nest} {r : LocalRule}
    (h : (Nest.combined nests).build = .ok r) :
    (∀ inner r', Nest.Inside inner (.combined nests) → inner.build = .ok r' →
      r'.names.length + 1 ≤ r.channels) ∧
    ((∀ inner r', Nest.Inside inner (.combined nests) → inner.build = .ok r' →
        r'.channels ≤ r.channels) ↔
      ∀ rule ∈ (Nest.combined nests).rules, ∃ other ∈ (Nest.combined nests).rules,
        rule.channels ≤ other.names.length + 1) ∧
    ∀ u, StepBegins u → u.rule = r → ∀ e ∈ u.applications, ∀ slot value,
      e.2.action.writes.get? slot = some value →
        (e.1.apply e.2).2.world.read e.2.cell slot = if slot < r.channels then value else 0 := by
  have hchannels := Nest.channels_of_build h
  refine ⟨?_, Nest.fits_iff h, ?_⟩
  · intro inner r' hinside hinner
    rw [hchannels]
    exact Nat.succ_le_succ (hinside.names_length_le h hinner)
  · rintro u hu rfl e he slot value hvalue
    have hmax : max u.rule.channels 1 = u.rule.channels := by omega
    have hfit := (hu.channelsFit (hmax.trans hchannels)).of_grows (grows_of_mem_applications he)
    have hadmits := (List.mem_filter.1 he).2
    have hstorage := hadmits
    rw [admits, Bool.and_eq_true] at hstorage
    obtain ⟨n, hn⟩ := Option.isSome_iff_exists.1 hstorage.1
    have hroom := hfit _ _ hn
    rw [(grows_of_mem_applications he).rule, hmax] at hroom
    rw [← hroom]
    exact Turn.read_apply_of_write hadmits hn hvalue

/-- Two rules that count their names, one of them inside of a combined rule of its own. -/
theorem combined_keeps_writes_marking :
    ∃ r, (Nest.combined [.single hushed, .combined [.single marking]]).build = .ok r ∧
      r.channels = 3 ∧
      (∀ inner r', Nest.Inside inner (.combined [.single hushed, .combined [.single marking]]) →
        inner.build = .ok r' → r'.channels ≤ r.channels) ∧
      StepBegins (firstBlock r) ∧
      ∃ e ∈ (firstBlock r).applications, e.2.action.writes.get? 0 = some 1 ∧
        (e.1.apply e.2).2.world.read e.2.cell 0 = 1 := by
  obtain ⟨r, hr, hchannels⟩ :
      ∃ r, (Nest.combined [.single hushed, .combined [.single marking]]).build = .ok r ∧
        r.channels = 3 := ⟨_, rfl, rfl⟩
  obtain ⟨-, hfits, hkeeps⟩ := combined_keeps_writes hr
  have hbegins := stepBegins_firstBlock r
  have hmem := firstRequest_mem_applications r
  refine ⟨r, hr, hchannels, hfits.2 ?_, hbegins, _, hmem, rfl, ?_⟩
  · decide
  · rw [hkeeps _ hbegins rfl _ hmem 0 1 rfl, hchannels]
    rfl

/-! ## A channel without a name -/

/-- What a tracked cell asks for without delay or guard is applied in the step, if the section of
    the cell has storage. -/
theorem exists_application {w : World} (hplace : w.TrackedInPlace) {p : Cell}
    (hp : w.placed.world.tracks p = true) {n : Nat}
    (hn : w.placed.world.channelsAt p.home = some n) {a : Action}
    (ha : a ∈ (w.placed.world.rule.outcome (w.placed.world.viewAt p)).actions)
    (hdelay : a.delay = 0) (hguard : a.guard = none) :
    ∃ t, (t, ⟨p, a⟩) ∈ w.applications ∧ t.world.channelsAt p.home = some n := by
  have hasked : ⟨p, a⟩ ∈ w.asked := mem_asked hplace hp (List.mem_map.2 ⟨a, ha, rfl⟩)
  have hnow : ⟨p, a⟩ ∈ w.immediate := by
    refine List.mem_filter.2 ⟨hasked, ?_⟩
    rw [Action.waits, hdelay]
    rfl
  obtain ⟨t, ht⟩ := Turn.exists_occasion Turn.apply (List.mem_append_left w.fired hnow) w.ready
  have hready : w.ready.world.channelsAt p.home = some n := by rw [channelsAt_ready, hn]
  have hstorage : t.world.channelsAt p.home = some n :=
    Turn.forall_mem_occasions (motive := fun t => t.world.channelsAt p.home = some n)
      (fun _ r ht => Turn.channelsAt_apply_of_some ht r) hready _ _ ht
  refine ⟨t, List.mem_filter.2 ⟨List.mem_append_right _ ht, ?_⟩, hstorage⟩
  rw [admits, hstorage, Action.guardHolds, hguard]
  rfl

/-- A rule that writes 7 into a channel for which it has no name. -/
def unnamedWriter : LocalRule :=
  ⟨[], 2, fun _ => true, fun _ => .one (Action.write (SlotMap.ofList [(1, 7)]))⟩

/-- Alone in a combined rule, this rule loses what it writes. -/
theorem exists_write_lost :
    ∃ (part : LocalRule) (c : CombinedRule) (u : World) (t : Turn) (q : Request),
      CombinedRule.ofParts [part] = .ok c ∧ c.localRule.channels = 1 ∧ part.channels = 2 ∧
      StepBegins u ∧ u.rule = c.localRule ∧ (t, q) ∈ u.applications ∧
      (∀ v, q.action ∈ (part.outcome v).actions) ∧ q.action.writes.get? 1 = some 7 ∧
      (t.apply q).2.world.read q.cell 1 = 0 := by
  obtain ⟨c, hc, hchannels, houtcome⟩ :
      ∃ c, CombinedRule.ofParts [unnamedWriter] = .ok c ∧ c.localRule.channels = 1 ∧
        ∀ v, (c.localRule.outcome v).actions = [Action.write (SlotMap.ofList [(1, 7)])] :=
    ⟨_, rfl, rfl, fun _ => rfl⟩
  have hstorage : (firstBlock c.localRule).placed.world.channelsAt firstRequest.cell.home =
      some 1 := by
    rw [channelsAt_placed_firstBlock, hchannels]
    rfl
  have hrule : (firstBlock c.localRule).placed.world.rule = c.localRule := by
    rw [placed_frame]
    rfl
  obtain ⟨t, ht, hone⟩ := exists_application (reachable_firstBlock c.localRule).trackedInPlace
    (tracks_placed_firstBlock c.localRule) hstorage
    (by rw [hrule, houtcome]; exact List.mem_singleton_self _) rfl rfl
  refine ⟨unnamedWriter, c, _, t, _, hc, hchannels, rfl, stepBegins_firstBlock c.localRule, rfl,
    ht, fun _ => List.mem_singleton_self _, rfl, ?_⟩
  rw [Turn.read_apply_of_write (List.mem_filter.1 ht).2 hone rfl]
  rfl

end World

end Engine

end BlockAutomata
