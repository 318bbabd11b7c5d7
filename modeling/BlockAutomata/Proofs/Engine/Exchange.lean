/-
  What an exchange of the rule does.

  1. An exchange lays out the storage of every section anew (`relaid`), refills the timing wheel,
     and seeds all sections.  Seeding only wakes, so what a cell reads is decided by the layout: a
     channel reads what its source read, and 0 if it has none (`read_relaid`).

  2. A drained wheel takes every task back: each comes with a delay that fits, and within one delay
     the tasks come in their order.  So an exchange never fails, and the tasks of each delay are the
     old ones, renumbered (`exists_exchangeRule`).
-/
import BlockAutomata.Engine.Replacement
import BlockAutomata.Proofs.Engine.Growth

namespace BlockAutomata.Engine

/-! ## A new layout -/

namespace Storage

variable (s : Storage) (sources : List (Option Nat))

theorem channels_relayout (h : sources ≠ []) : (s.relayout sources).channels = sources.length := by
  have hne : sources.isEmpty = false := List.isEmpty_eq_false_iff.2 h
  simp [relayout, channels, hne]

theorem getElem?_planes_relayout (h : sources ≠ []) (slot : Nat) :
    (s.relayout sources).planes[slot]? =
      sources[slot]?.map fun source => (source.bind fun k => s.planes[k]?).getD zeroPlane := by
  have hne : sources.isEmpty = false := List.isEmpty_eq_false_iff.2 h
  simp only [relayout, hne, Bool.false_eq_true, if_false, List.getElem?_toArray, List.getElem?_map]
  congr 1
  funext source
  cases source <;> rfl

/-- A channel reads like its source, and 0 without a source. -/
theorem read_relayout (h : sources ≠ []) (i slot : Nat) :
    (s.relayout sources).read i slot =
      match sources[slot]? with
      | some (some source) => s.read i source
      | _ => 0 := by
  have hzero : zeroPlane[i]?.getD 0 = 0 := by
    rw [zeroPlane, Vector.getElem?_replicate]
    split <;> rfl
  rw [read, getElem?_planes_relayout s sources h]
  cases sources[slot]? with
  | none => rfl
  | some source =>
    cases source with
    | none => exact hzero
    | some k =>
      show ((s.planes[k]?).getD zeroPlane)[i]?.getD 0 = s.read i k
      rw [read]
      cases s.planes[k]? with
      | none => exact hzero
      | some plane => rfl

end Storage

/-! ## Tasks that are scheduled again -/

/-- Tasks with delays that fit are all accepted, each after those that have its delay already. -/
theorem reschedule_of_forall_lt {wheel : TimingWheel Request} {tasks : List (Nat × Request)}
    (h : ∀ t ∈ tasks, t.1 < wheel.size) :
    ∃ wheel', reschedule wheel tasks = .ok wheel' ∧ wheel'.size = wheel.size ∧
      ∀ d < wheel.size,
        wheel'.pending d = wheel.pending d ++ (tasks.filter fun t => t.1 = d).map Prod.snd := by
  induction tasks generalizing wheel with
  | nil => exact ⟨wheel, rfl, rfl, fun _ _ => (List.append_nil _).symm⟩
  | cons t rest ih =>
    obtain ⟨delay, r⟩ := t
    rw [List.forall_mem_cons] at h
    obtain ⟨ticket, w₁, hw₁, hsize₁, -, hpending₁⟩ := wheel.schedule_of_lt r h.1
    rw [← hsize₁] at h
    obtain ⟨w₂, hw₂, hsize₂, hpending₂⟩ := ih h.2
    refine ⟨w₂, ?_, hsize₂.trans hsize₁, ?_⟩
    · rw [reschedule, hw₁]
      exact hw₂
    · intro d hd
      rw [hpending₂ d (by rwa [hsize₁]), hpending₁ d hd]
      by_cases hdd : d = delay
      · subst hdd
        simp
      · simp [hdd, Ne.symm hdd]

/-- One value of a range is the only one that contributes. -/
theorem flatMap_range_ite {α : Type} (n d : Nat) (l : List α) :
    ((List.range n).flatMap fun e => if e = d then l else []) = if d < n then l else [] := by
  induction n with
  | zero => rfl
  | succ n ih =>
    rw [List.range_succ, List.flatMap_append, ih]
    rcases Nat.lt_trichotomy d n with h | h | h
    · simp [h, Nat.lt_succ_of_lt h, Nat.ne_of_gt h]
    · simp [h]
    · simp [Nat.not_lt.2 (Nat.le_of_lt h), Nat.not_lt.2 (Nat.succ_le_of_lt h), Nat.ne_of_lt h]

/-- Of the drained tasks that are kept, those of one delay are the kept ones among the pending. -/
theorem filter_filterMap_drain (wheel : TimingWheel Request) (f : Request → Option Request)
    {d : Nat} (hd : d < wheel.size) :
    ((wheel.drain.1.filterMap fun t => (f t.2).map fun r => (t.1, r)).filter fun t =>
        t.1 = d).map Prod.snd = (wheel.pending d).filterMap f := by
  have hone : ∀ (l : List Request) (e : Nat),
      (((l.map fun task => (e, task)).filterMap fun t => (f t.2).map fun r => (t.1, r)).filter
        fun t => t.1 = d).map Prod.snd = if e = d then l.filterMap f else [] := by
    intro l e
    induction l with
    | nil => simp
    | cons r rest ih =>
      rw [List.map_cons, List.filterMap_cons, List.filterMap_cons]
      cases f r with
      | none => exact ih
      | some r' => by_cases he : e = d <;> simpa [he] using ih
  rw [TimingWheel.drain_fst, List.filterMap_flatMap, List.filter_flatMap, List.map_flatMap]
  simp only [hone]
  have hsame : ((List.range wheel.size).flatMap fun e =>
      if e = d then (wheel.pending e).filterMap f else []) =
        (List.range wheel.size).flatMap fun e =>
          if e = d then (wheel.pending d).filterMap f else [] := by
    congr 1
    funext e
    by_cases he : e = d
    · rw [he]
    · rw [if_neg he, if_neg he]
  rw [hsame, flatMap_range_ite, if_pos hd]

namespace World

/-! ## The exchange -/

/-- How the slots of requests are renumbered when the rule is exchanged for the given one. -/
def renumbering (w : World) (rule : LocalRule) : Nat → Option Nat :=
  newSlot? (sourceSlots w.rule rule)

/-- The world with the given rule and wheel, its storage laid out for this rule and its placements
    renumbered, before anything is seeded. -/
def relaid (w : World) (rule : LocalRule) (wheel : TimingWheel Request) : World :=
  { w with
    rule := rule
    sections := w.sections.map fun _ s => s.relayout (sourceSlots w.rule rule)
    wheel := wheel
    placements := w.placements.filterMap (renumberRequest (w.renumbering rule)) }

/-- Seed every section with storage. -/
def seedAll (w : World) : World := w.sections.keys.foldl seed w

/-- An exchange never fails, and of the tasks of each delay it keeps those that can be renumbered,
    in their order. -/
theorem exists_exchangeRule (w : World) (rule : LocalRule) :
    ∃ wheel, w.exchangeRule rule = .ok (w.relaid rule wheel).seedAll ∧
      wheel.size = w.wheel.size ∧
      ∀ d < w.wheel.size, wheel.pending d =
        (w.wheel.pending d).filterMap (renumberRequest (w.renumbering rule)) := by
  have hfit : ∀ t ∈ w.wheel.drain.1.filterMap fun t =>
      (renumberRequest (w.renumbering rule) t.2).map fun r => (t.1, r),
        t.1 < w.wheel.drain.2.size := by
    intro t ht
    obtain ⟨old, hold, ht⟩ := List.mem_filterMap.1 ht
    obtain ⟨r, -, rfl⟩ := Option.map_eq_some_iff.1 ht
    rw [TimingWheel.drain_fst, List.mem_flatMap] at hold
    obtain ⟨d, hd, hold⟩ := hold
    obtain ⟨task, -, rfl⟩ := List.mem_map.1 hold
    rw [TimingWheel.size_drain]
    exact List.mem_range.1 hd
  obtain ⟨wheel, hwheel, hsize, hpending⟩ := reschedule_of_forall_lt hfit
  rw [TimingWheel.size_drain] at hsize hpending
  refine ⟨wheel, ?_, hsize, ?_⟩
  · show Except.map _ (reschedule _ _) = _
    exact congrArg (Except.map _) hwheel
  · intro d hd
    rw [hpending d hd, TimingWheel.pending_drain, List.nil_append, filter_filterMap_drain _ _ hd]

theorem eq_of_exchangeRule {w w' : World} {rule : LocalRule} (h : w.exchangeRule rule = .ok w') :
    ∃ wheel, w' = (w.relaid rule wheel).seedAll := by
  obtain ⟨wheel, hwheel, -⟩ := w.exists_exchangeRule rule
  rw [hwheel] at h
  exact ⟨wheel, (Except.ok.inj h).symm⟩

/-! ## What seeding all sections keeps -/

theorem seedAll_induction {w : World} {motive : World → Prop}
    (hwake : ∀ u p, motive u → motive (u.wake p Neighborhood.moore3dSelf)) (h : motive w) :
    motive w.seedAll := by
  have hfold : ∀ (keys : List Section) (u : World), motive u → motive (keys.foldl seed u) := by
    intro keys
    induction keys with
    | nil => exact fun _ hu => hu
    | cons s rest ih =>
      intro u hu
      rw [List.foldl_cons]
      exact ih _ (seed_induction hwake hu s)
  exact hfold _ w h

variable (w : World)

theorem seedAll_eq : w.seedAll = { w with sections := w.seedAll.sections } :=
  seedAll_induction (motive := fun u => u = { w with sections := u.sections })
    (fun u p hu => by rw [wake_eq, hu]) rfl

theorem Grows.seedAll : Grows w w.seedAll :=
  seedAll_induction (fun u p hu => hu.trans (Grows.wake u p _)) (Grows.refl w)

theorem read_seedAll (p : Cell) (slot : Nat) : w.seedAll.read p slot = w.read p slot :=
  seedAll_induction (motive := fun u => u.read p slot = w.read p slot)
    (fun u q hu => (read_wake u q _ p slot).trans hu) rfl

theorem tracks_seedAll {w : World} {p : Cell} (h : w.tracks p = true) :
    w.seedAll.tracks p = true :=
  seedAll_induction (motive := fun u => u.tracks p = true)
    (fun u q hu => (tracks_wake u q _ p).2 (Or.inl hu)) h

/-- Storage that is there keeps its channels. -/
theorem channelsAt_seedAll_of_some {w : World} {s : Section} {n : Nat}
    (h : w.channelsAt s = some n) : w.seedAll.channelsAt s = some n :=
  seedAll_induction (motive := fun u => u.channelsAt s = some n)
    (fun _ p hu => channelsAt_wake_of_some hu p _) h

/-! ## What the new layout reads -/

theorem sourceSlots_ne_nil (old new : LocalRule) : sourceSlots old new ≠ [] := List.cons_ne_nil _ _

theorem sourceSlots_succ (old new : LocalRule) (j : Nat) :
    (sourceSlots old new)[j + 1]? = new.names[j]?.map old.slot? := by
  rw [sourceSlots, List.getElem?_cons_succ, List.getElem?_map]

/-- Slot 0 belongs to the block, not to any name. -/
theorem slot?_ne_zero {rule : LocalRule} {name : String} {slot : Nat}
    (h : rule.slot? name = some slot) : slot ≠ 0 := by
  obtain ⟨j, -, rfl⟩ := Option.map_eq_some_iff.1 h
  exact Nat.succ_ne_zero j

variable (rule : LocalRule) (wheel : TimingWheel Request)

theorem find?_relaid (s : Section) :
    (w.relaid rule wheel).sections.find? s =
      (w.sections.find? s).map fun storage => storage.relayout (sourceSlots w.rule rule) :=
  OrderedMap.find?_map _ _ _

theorem channelsAt_relaid (s : Section) :
    (w.relaid rule wheel).channelsAt s =
      (w.channelsAt s).map fun _ => (sourceSlots w.rule rule).length := by
  rw [channelsAt, channelsAt, find?_relaid]
  cases w.sections.find? s with
  | none => rfl
  | some storage =>
    exact congrArg some (Storage.channels_relayout _ _ (sourceSlots_ne_nil w.rule rule))

/-- A channel of a cell reads what its source has read, and 0 without a source. -/
theorem read_relaid (p : Cell) (slot : Nat) :
    (w.relaid rule wheel).read p slot =
      match (sourceSlots w.rule rule)[slot]? with
      | some (some source) => w.read p source
      | _ => 0 := by
  cases hs : w.sections.find? p.home with
  | some storage =>
    have hlaid := find?_relaid w rule wheel p.home
    rw [hs] at hlaid
    rw [read_of_find? hlaid, Storage.read_relayout _ _ (sourceSlots_ne_nil w.rule rule)]
    simp only [read_of_find? hs]
  | none =>
    -- only the block is read from the terrain, and it keeps its slot
    have hlaid := find?_relaid w rule wheel p.home
    rw [hs] at hlaid
    rw [read_of_channelsAt_eq_none (channelsAt_eq_none_iff.2 hlaid)]
    simp only [read_of_channelsAt_eq_none (channelsAt_eq_none_iff.2 hs)]
    cases slot with
    | zero => rfl
    | succ j =>
      rw [if_neg (Nat.succ_ne_zero j), sourceSlots_succ]
      cases rule.names[j]? with
      | none => rfl
      | some name =>
        rw [Option.map_some]
        cases hslot : w.rule.slot? name with
        | none => rfl
        | some source => exact (if_neg (slot?_ne_zero hslot)).symm

theorem tracks_relaid (p : Cell) : (w.relaid rule wheel).tracks p = w.tracks p := by
  rw [tracks, tracks, find?_relaid]
  cases w.sections.find? p.home <;> rfl

end World

end BlockAutomata.Engine
