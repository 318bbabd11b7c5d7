/-
  Storage comes into being, and cells get tracked.

  1. What a world holds is asked for point by point: how many channels the storage of a section has
     (`channelsAt`, none without storage), what a channel of a cell holds (`read`), and whether a
     cell is tracked (`tracks`).

  2. New storage is filled from the terrain, which is what was read there before.  So providing
     storage, tracking and waking change no reading (`read_wake`).

  3. Waking tracks exactly the cells that it names and that can be kept: those whose section has
     storage or is loaded (`tracks_wake`).

  4. A section far outside is the home of no cell, yet it may have storage, and the cells at its
     indices belong to other sections.  Nothing is ever tracked there (`TrackedInPlace`), so the
     tracked cells are exactly those that get evaluated (`mem_cellsToEvaluate`).
-/
import BlockAutomata.Engine.Step
import BlockAutomata.Proofs.Engine.Channels
import BlockAutomata.Proofs.Places

namespace BlockAutomata.Engine.World

/-! ## Asking -/

/-- The number of channels in the storage of a section. -/
def channelsAt (w : World) (s : Section) : Option Nat := (w.sections.find? s).map Storage.channels

/-- Whether cells of the section can be tracked: it has storage, or can get it. -/
def keeps (w : World) (s : Section) : Bool := (w.channelsAt s).isSome || w.terrain.isLoaded s

theorem channelsAt_eq_none_iff {w : World} {s : Section} :
    w.channelsAt s = none ↔ w.sections.find? s = none :=
  Option.map_eq_none_iff

/-- Storage has a channel for the block. -/
theorem channelsAt_pos {w : World} {s : Section} {n : Nat} (h : w.channelsAt s = some n) :
    0 < n := by
  obtain ⟨storage, -, rfl⟩ := Option.map_eq_some_iff.1 h
  exact storage.planes_pos

/-- Without storage the terrain is read. -/
theorem read_of_channelsAt_eq_none {w : World} {p : Cell} (h : w.channelsAt p.home = none)
    (slot : Nat) : w.read p slot = if slot = 0 then w.terrain.block p else 0 := by
  rw [read, readCell, channelsAt_eq_none_iff.1 h]

theorem read_of_find? {w : World} {p : Cell} {storage : Storage}
    (h : w.sections.find? p.home = some storage) (slot : Nat) :
    w.read p slot = storage.read p.index slot := by
  rw [read, readCell, h]

/-- A channel that storage does not have is 0. -/
theorem read_eq_zero_of_channels_le {w : World} {p : Cell} {n : Nat}
    (h : w.channelsAt p.home = some n) {slot : Nat} (hslot : n ≤ slot) : w.read p slot = 0 := by
  obtain ⟨storage, hs, rfl⟩ := Option.map_eq_some_iff.1 h
  rw [read_of_find? hs]
  exact Storage.read_of_channels_le hslot

/-- A cell sees its own channels. -/
theorem own_viewAt (w : World) (p : Cell) (slot : Nat) : (w.viewAt p).own slot = w.read p slot := by
  show w.read (p.move Offset.zero) slot = _
  rw [Cell.move_zero]

theorem tracks_of_find? {w : World} {p : Cell} {storage : Storage}
    (h : w.sections.find? p.home = some storage) :
    w.tracks p = storage.tracked.contains p.index := by
  rw [tracks, h]

/-- Only cells of sections with storage are tracked. -/
theorem exists_storage_of_tracks {w : World} {p : Cell} (h : w.tracks p = true) :
    ∃ storage, w.sections.find? p.home = some storage ∧
      storage.tracked.contains p.index = true := by
  rw [tracks] at h
  cases hs : w.sections.find? p.home with
  | none => rw [hs] at h; cases h
  | some storage => rw [hs] at h; exact ⟨storage, rfl, h⟩

theorem exists_channelsAt_of_tracks {w : World} {p : Cell} (h : w.tracks p = true) :
    ∃ n, w.channelsAt p.home = some n := by
  obtain ⟨storage, hs, -⟩ := exists_storage_of_tracks h
  exact ⟨storage.channels, by rw [channelsAt, hs]; rfl⟩

theorem channelsAt_isSome_of_tracks {w : World} {p : Cell} (h : w.tracks p = true) :
    (w.channelsAt p.home).isSome = true :=
  Option.isSome_iff_exists.2 (exists_channelsAt_of_tracks h)

/-! ## Providing storage -/

/-- Only the sections differ. -/
theorem provide_eq (w : World) (s : Section) :
    w.provide s = { w with sections := (w.provide s).sections } := by
  unfold provide
  split
  · rfl
  · split <;> rfl

theorem terrain_provide (w : World) (s : Section) : (w.provide s).terrain = w.terrain := by
  rw [provide_eq]

theorem rule_provide (w : World) (s : Section) : (w.provide s).rule = w.rule := by
  rw [provide_eq]

theorem events_provide (w : World) (s : Section) : (w.provide s).events = w.events := by
  rw [provide_eq]

theorem find?_provide (w : World) (s a : Section) :
    (w.provide s).sections.find? a =
      if a = s ∧ w.channelsAt s = none ∧ w.terrain.isLoaded s then some (w.newStorage s)
      else w.sections.find? a := by
  unfold provide
  cases hs : w.sections.find? s with
  | some storage => simp [OrderedMap.contains, channelsAt, hs]
  | none =>
    cases hl : w.terrain.isLoaded s with
    | false => simp [OrderedMap.contains, hs]
    | true => simp [OrderedMap.contains, channelsAt, hs, OrderedMap.find?_insert]

theorem channelsAt_provide (w : World) (s a : Section) :
    (w.provide s).channelsAt a =
      if a = s ∧ w.channelsAt s = none ∧ w.terrain.isLoaded s then some (max w.rule.channels 1)
      else w.channelsAt a := by
  rw [channelsAt, find?_provide]
  split
  · rw [Option.map_some, newStorage, Storage.channels_ofBlocks]
  · rfl

/-- New storage reads like the terrain that it was filled from. -/
theorem read_provide (w : World) (s : Section) (p : Cell) (slot : Nat) :
    (w.provide s).read p slot = w.read p slot := by
  by_cases h : p.home = s ∧ w.channelsAt s = none ∧ w.terrain.isLoaded s
  · obtain ⟨rfl, hnone, hloaded⟩ := h
    have hs := find?_provide w p.home p.home
    rw [if_pos ⟨rfl, hnone, hloaded⟩] at hs
    rw [read_of_find? hs, read_of_channelsAt_eq_none hnone, newStorage,
      Storage.read_ofBlocks _ _ p.index_lt, p.home_cell_index]
  · have hs := find?_provide w s p.home
    rw [if_neg h] at hs
    rw [provide_eq, read, read, readCell, readCell]
    simp only [hs]

theorem tracks_provide (w : World) (s : Section) (p : Cell) :
    (w.provide s).tracks p = w.tracks p := by
  rw [tracks, tracks, find?_provide]
  by_cases h : p.home = s ∧ w.channelsAt s = none ∧ w.terrain.isLoaded s
  · obtain ⟨rfl, hnone, hloaded⟩ := h
    rw [if_pos ⟨rfl, hnone, hloaded⟩, channelsAt_eq_none_iff.1 hnone]
    exact CellSet.contains_empty _
  · rw [if_neg h]

/-- Whether cells of a section can be tracked does not depend on what is provided. -/
theorem keeps_provide (w : World) (s a : Section) : (w.provide s).keeps a = w.keeps a := by
  rw [keeps, keeps, channelsAt_provide, terrain_provide]
  by_cases h : a = s ∧ w.channelsAt s = none ∧ w.terrain.isLoaded s
  · obtain ⟨rfl, hnone, hloaded⟩ := h
    rw [if_pos ⟨rfl, hnone, hloaded⟩, hloaded, Bool.or_true, Bool.or_true]
  · rw [if_neg h]

/-- A section that cells can be tracked in has storage once it is provided. -/
theorem channelsAt_provide_self (w : World) (s : Section) :
    ((w.provide s).channelsAt s).isSome = w.keeps s := by
  rw [keeps, channelsAt_provide]
  cases hs : w.channelsAt s with
  | some n => simp
  | none => cases hl : w.terrain.isLoaded s <;> simp

/-! ## Tracking -/

theorem track_eq (w : World) (p : Cell) :
    w.track p = { w with sections := (w.track p).sections } := by
  unfold track
  rw [provide_eq]

theorem find?_track (w : World) (p : Cell) (a : Section) :
    (w.track p).sections.find? a =
      if a = p.home then ((w.provide p.home).sections.find? a).map fun s => (s.track p.index).2
      else (w.provide p.home).sections.find? a := by
  unfold track
  rw [OrderedMap.find?_modify]
  by_cases h : a = p.home
  · rw [if_pos h, if_pos h, h]
  · rw [if_neg h, if_neg h]

theorem channelsAt_track (w : World) (p : Cell) (a : Section) :
    (w.track p).channelsAt a = (w.provide p.home).channelsAt a := by
  rw [channelsAt, find?_track]
  split
  · rw [Option.map_map]; rfl
  · rfl

theorem read_track (w : World) (p q : Cell) (slot : Nat) :
    (w.track p).read q slot = w.read q slot := by
  have hterrain : (w.track p).terrain = (w.provide p.home).terrain := rfl
  rw [← read_provide w p.home q slot, read, read, readCell, readCell, find?_track, hterrain]
  by_cases hh : q.home = p.home
  · rw [if_pos hh]
    cases (w.provide p.home).sections.find? q.home <;> rfl
  · rw [if_neg hh]

theorem keeps_track (w : World) (p : Cell) (a : Section) : (w.track p).keeps a = w.keeps a := by
  rw [← keeps_provide w p.home a, keeps, keeps, channelsAt_track]
  rfl

theorem tracks_track (w : World) (p q : Cell) :
    (w.track p).tracks q = (w.tracks q || (decide (q = p) && w.keeps p.home)) := by
  rw [← tracks_provide w p.home q, ← channelsAt_provide_self, tracks, tracks, find?_track]
  by_cases hh : q.home = p.home
  · rw [if_pos hh, hh, channelsAt]
    cases hs : (w.provide p.home).sections.find? p.home with
    | none => simp
    | some storage =>
      have hqp : q.index = p.index ↔ q = p :=
        ⟨fun hi => Cell.eq_of_home_of_index hh hi, fun h => congrArg Cell.index h⟩
      show (storage.tracked.insert p.index).2.contains q.index = _
      simp [CellSet.contains_insert _ p.index_lt, hqp]
  · have hne : q ≠ p := fun h => hh (congrArg Cell.home h)
    rw [if_neg hh]
    simp [hne]

/-! ## Waking -/

variable (w : World) (p : Cell) (offsets : List Offset)

/-- Waking changes nothing but the sections. -/
theorem wake_eq : w.wake p offsets = { w with sections := (w.wake p offsets).sections } := by
  unfold wake
  induction offsets generalizing w with
  | nil => rfl
  | cons o rest ih => rw [List.foldl_cons, ih, track_eq]

theorem read_wake (q : Cell) (slot : Nat) : (w.wake p offsets).read q slot = w.read q slot := by
  unfold wake
  induction offsets generalizing w with
  | nil => rfl
  | cons o rest ih => rw [List.foldl_cons, ih, read_track]

/-- A woken cell gets its section storage if that can be. -/
theorem channelsAt_wake (a : Section) :
    (w.wake p offsets).channelsAt a =
      if w.channelsAt a = none ∧ w.terrain.isLoaded a ∧ ∃ o ∈ offsets, (p.move o).home = a
      then some (max w.rule.channels 1) else w.channelsAt a := by
  unfold wake
  induction offsets generalizing w with
  | nil => simp
  | cons o rest ih =>
    have hframe : (w.track (p.move o)).terrain = w.terrain ∧
        (w.track (p.move o)).rule = w.rule := by
      rw [track_eq]
      exact ⟨rfl, rfl⟩
    rw [List.foldl_cons, ih, channelsAt_track, channelsAt_provide, hframe.1, hframe.2]
    simp only [List.mem_cons, exists_eq_or_imp]
    by_cases ho : (p.move o).home = a
    · subst ho
      cases hs : w.channelsAt (p.move o).home with
      | some n => simp
      | none => cases hl : w.terrain.isLoaded (p.move o).home <;> simp
    · simp [ho, Ne.symm ho]

/-- Storage that is there keeps its channels when cells are woken. -/
theorem channelsAt_wake_of_some {w : World} {s : Section} {n : Nat} (h : w.channelsAt s = some n)
    (p : Cell) (offsets : List Offset) : (w.wake p offsets).channelsAt s = some n := by
  rw [channelsAt_wake, if_neg, h]
  rintro ⟨hnone, -⟩
  rw [h] at hnone
  cases hnone

/-- Exactly the named cells that can be kept are tracked besides those that were. -/
theorem tracks_wake (q : Cell) :
    (w.wake p offsets).tracks q = true ↔
      w.tracks q = true ∨ (w.keeps q.home = true ∧ ∃ o ∈ offsets, p.move o = q) := by
  unfold wake
  induction offsets generalizing w with
  | nil => simp
  | cons o rest ih =>
    simp only [List.foldl_cons, ih, tracks_track, keeps_track, List.mem_cons, exists_eq_or_imp]
    by_cases ho : p.move o = q
    · subst ho
      simp only [Bool.or_eq_true, Bool.and_eq_true, decide_true, true_and, true_or, and_true]
      constructor
      · rintro ((h | h) | ⟨h, -⟩)
        · exact Or.inl h
        · exact Or.inr h
        · exact Or.inr h
      · rintro (h | h)
        · exact Or.inl (Or.inl h)
        · exact Or.inl (Or.inr h)
    · simp [ho, Ne.symm ho]

/-! ## The tracked cells lie where they belong -/

/-- Tracked indices stand for cells of the section under which they are kept. -/
def TrackedInPlace (w : World) : Prop :=
  ∀ s storage, w.sections.find? s = some storage →
    ∀ i, storage.tracked.contains i = true → (s.cell i).home = s ∧ (s.cell i).index = i

variable {w p offsets}

theorem TrackedInPlace.provide (h : w.TrackedInPlace) (s : Section) :
    (w.provide s).TrackedInPlace := by
  intro a storage ha i hi
  rw [find?_provide] at ha
  split at ha
  · obtain rfl := Option.some.inj ha
    exact absurd hi (by rw [newStorage, Storage.tracked_ofBlocks, CellSet.contains_empty]; simp)
  · exact h a storage ha i hi

theorem TrackedInPlace.track (h : w.TrackedInPlace) (p : Cell) : (w.track p).TrackedInPlace := by
  intro a storage ha i hi
  rw [find?_track] at ha
  split at ha
  · rename_i hp
    subst hp
    obtain ⟨old, hold, rfl⟩ := Option.map_eq_some_iff.1 ha
    have hi' : (old.tracked.insert p.index).2.contains i = true := hi
    rw [CellSet.contains_insert _ p.index_lt, Bool.or_eq_true, decide_eq_true_eq] at hi'
    rcases hi' with hi' | rfl
    · exact h.provide p.home _ old hold i hi'
    · rw [p.home_cell_index]
      exact ⟨rfl, rfl⟩
  · exact h.provide p.home a storage ha i hi

theorem TrackedInPlace.wake (h : w.TrackedInPlace) (p : Cell) (offsets : List Offset) :
    (w.wake p offsets).TrackedInPlace := by
  unfold World.wake
  induction offsets generalizing w with
  | nil => exact h
  | cons o rest ih => exact ih (h.track (p.move o))

/-- What storage marks as tracked is a tracked cell of its section. -/
theorem TrackedInPlace.tracks_cell (h : w.TrackedInPlace) {s : Section} {storage : Storage}
    (hfind : w.sections.find? s = some storage) {i : Nat} (hi : storage.tracked.contains i = true) :
    (s.cell i).home = s ∧ w.tracks (s.cell i) = true := by
  obtain ⟨hhome, hindex⟩ := h s storage hfind i hi
  refine ⟨hhome, ?_⟩
  rw [← hhome] at hfind
  rw [tracks_of_find? hfind, hindex]
  exact hi

/-- The tracked cells are those that get evaluated. -/
theorem mem_cellsToEvaluate (h : w.TrackedInPlace) {p : Cell} :
    p ∈ Turn.cellsToEvaluate w ↔ w.tracks p = true := by
  rw [Turn.cellsToEvaluate, List.mem_flatMap]
  constructor
  · rintro ⟨⟨s, storage⟩, hs, hp⟩
    obtain ⟨i, hi, rfl⟩ := List.mem_map.1 hp
    exact (h.tracks_cell (OrderedMap.find?_eq_some_iff.2 hs) (CellSet.mem_toList.1 hi)).2
  · intro hp
    obtain ⟨storage, hs, hindex⟩ := exists_storage_of_tracks hp
    exact ⟨(p.home, storage), OrderedMap.find?_eq_some_iff.1 hs,
      List.mem_map.2 ⟨p.index, CellSet.mem_toList.2 hindex, p.home_cell_index⟩⟩

/-- No cell is evaluated twice. -/
theorem nodup_cellsToEvaluate (h : w.TrackedInPlace) : (Turn.cellsToEvaluate w).Nodup := by
  have hpart : ∀ e ∈ w.sections.entries, ∀ p ∈ e.2.tracked.toList.map e.1.cell,
      p.home = e.1 := by
    rintro ⟨s, storage⟩ he p hp
    obtain ⟨i, hi, rfl⟩ := List.mem_map.1 hp
    exact (h s storage (OrderedMap.find?_eq_some_iff.2 he) i (CellSet.mem_toList.1 hi)).1
  rw [Turn.cellsToEvaluate, List.Nodup, List.pairwise_flatMap]
  constructor
  · rintro ⟨s, storage⟩ he
    have hs := OrderedMap.find?_eq_some_iff.2 he
    refine List.Pairwise.map _ ?_ (List.Pairwise.and_mem.1 storage.tracked.nodup_toList)
    rintro i j ⟨hi, hj, hne⟩ heq
    refine hne ?_
    rw [← (h s storage hs i (CellSet.mem_toList.1 hi)).2,
      ← (h s storage hs j (CellSet.mem_toList.1 hj)).2]
    exact congrArg Cell.index heq
  · have hkeys : w.sections.entries.Pairwise fun a b => a.1 ≠ b.1 :=
      List.Pairwise.of_map Prod.fst (fun _ _ hne => hne) w.sections.nodup
    refine (List.Pairwise.and_mem.1 hkeys).imp ?_
    rintro a b ⟨ha, hb, hne⟩ p hpa q hqb rfl
    exact hne ((hpart a ha p hpa).symm.trans (hpart b hb p hqb))

end BlockAutomata.Engine.World
