/-
  What a new world tracks when it takes over a terrain.

  1. Seeding a section tracks the cube around each of its seeds as far as the cells can be kept, and
     gives storage to the loaded sections of this cube (`tracks_wakeCubes`,
     `channelsAt_wakeCubes_isSome`).  The seeds are the cells of the section whose blocks count as
     seeds (`mem_seeds`).

  2. The sections are taken over one after the other.  Seeding one of them reaches into neighbours
     whose turn comes later, or never, so that some have storage and tracked cells before their
     turn.  `SeededFrom` says what holds in between: the cells around the seeds of the sections that
     had their turn are tracked, nothing reads differently from the terrain, and storage is where a
     section had its turn or a cell is tracked.  A turn keeps this (`SeededFrom.sectionLoaded`).

  3. After the last turn this is what was to be shown (`ofLoaded_tracks_exactly`).
-/
import BlockAutomata.Proofs.Engine.Layout
import BlockAutomata.Proofs.Engine.Mirror

namespace BlockAutomata.Engine.World

variable {w : World}

/-! ## Waking several cubes -/

theorem keeps_wake (w : World) (p : Cell) (offsets : List Offset) (s : Section) :
    (w.wake p offsets).keeps s = w.keeps s := by
  rw [keeps, keeps, channelsAt_wake, wake_eq]
  split
  · rename_i h
    rw [h.2.1, Bool.or_true, Bool.or_true]
  · rfl

/-- Waking the cube around one cell after the other. -/
def wakeCubes (w : World) (cells : List Cell) : World :=
  cells.foldl (fun w p => w.wake p Neighborhood.moore3dSelf) w

theorem seed_eq_wakeCubes (w : World) (s : Section) : w.seed s = w.wakeCubes (w.seeds s) := rfl

/-- Whether the cell lies in the cube around one of the cells. -/
def InCubes (cells : List Cell) (q : Cell) : Prop :=
  ∃ p ∈ cells, ∃ o ∈ Neighborhood.moore3dSelf, p.move o = q

theorem tracks_wakeCubes (cells : List Cell) (q : Cell) :
    (w.wakeCubes cells).tracks q = true ↔
      w.tracks q = true ∨ (w.keeps q.home = true ∧ InCubes cells q) := by
  unfold wakeCubes
  induction cells generalizing w with
  | nil => simp [InCubes]
  | cons p rest ih =>
    rw [List.foldl_cons, ih, tracks_wake, keeps_wake]
    simp only [InCubes, List.mem_cons, exists_eq_or_imp, and_or_left, or_assoc]

theorem channelsAt_wakeCubes_isSome (cells : List Cell) (s : Section) :
    ((w.wakeCubes cells).channelsAt s).isSome = true ↔
      (w.channelsAt s).isSome = true ∨
        (w.terrain.isLoaded s = true ∧ ∃ q, InCubes cells q ∧ q.home = s) := by
  unfold wakeCubes
  induction cells generalizing w with
  | nil => simp [InCubes]
  | cons p rest ih =>
    have hterrain : (w.wake p Neighborhood.moore3dSelf).terrain = w.terrain := by rw [wake_eq]
    have hwake : ((w.wake p Neighborhood.moore3dSelf).channelsAt s).isSome = true ↔
        (w.channelsAt s).isSome = true ∨
          (w.terrain.isLoaded s = true ∧
            ∃ o ∈ Neighborhood.moore3dSelf, (p.move o).home = s) := by
      rw [channelsAt_wake]
      cases w.channelsAt s with
      | some n => simp
      | none => simp
    rw [List.foldl_cons, ih, hwake, hterrain, or_assoc, ← and_or_left]
    refine or_congr_right (and_congr_right fun _ => ?_)
    constructor
    · rintro (⟨o, ho, hs⟩ | ⟨q, ⟨p', hp', hq⟩, hs⟩)
      · exact ⟨p.move o, ⟨p, List.mem_cons_self, o, ho, rfl⟩, hs⟩
      · exact ⟨q, ⟨p', List.mem_cons_of_mem p hp', hq⟩, hs⟩
    · rintro ⟨q, ⟨p', hp', o, ho, rfl⟩, hs⟩
      rcases List.mem_cons.1 hp' with rfl | hp'
      · exact Or.inl ⟨o, ho, hs⟩
      · exact Or.inr ⟨_, ⟨p', hp', o, ho, rfl⟩, hs⟩

/-! ## Seeding -/

/-- The seeds of a section with storage are those of its cells whose block is one of a seed. -/
theorem mem_seeds {q p : Cell} (h : (w.channelsAt q.home).isSome = true) :
    p ∈ w.seeds q.home ↔ p.home = q.home ∧ w.isSeed (w.read p 0) = true := by
  obtain ⟨n, hn⟩ := Option.isSome_iff_exists.1 h
  obtain ⟨storage, hs, -⟩ := Option.map_eq_some_iff.1 hn
  have hseeds : w.seeds q.home =
      ((List.range sectionVolume).filter fun i => w.isSeed (storage.read i 0)).map q.home.cell := by
    rw [seeds, hs]
  rw [hseeds, List.mem_map]
  constructor
  · rintro ⟨i, hi, rfl⟩
    obtain ⟨hrange, hseed⟩ := List.mem_filter.1 hi
    have hlt := List.mem_range.1 hrange
    rw [← q.home_cell hlt] at hs
    rw [read_of_find? hs, q.index_cell hlt]
    exact ⟨q.home_cell hlt, hseed⟩
  · rintro ⟨hhome, hseed⟩
    rw [← hhome] at hs
    rw [read_of_find? hs] at hseed
    refine ⟨p.index, List.mem_filter.2 ⟨List.mem_range.2 p.index_lt, hseed⟩, ?_⟩
    rw [← hhome, p.home_cell_index]

/-! ## The section before it is seeded -/

theorem tracks_refreshed (w : World) (s : Section) (q : Cell) :
    (w.refreshed s).tracks q = w.tracks q := by
  rw [tracks, tracks, find?_refreshed]
  by_cases hq : q.home = s
  · rw [if_pos hq, hq]
    cases w.sections.find? s with
    | some storage => rfl
    | none => exact CellSet.contains_empty _
  · rw [if_neg hq]

theorem channelsAt_refreshed_isSome (w : World) (s a : Section) :
    ((w.refreshed s).channelsAt a).isSome = true ↔ (w.channelsAt a).isSome = true ∨ a = s := by
  rw [channelsAt_refreshed]
  by_cases ha : a = s
  · simp [ha]
  · simp [ha]

theorem isSeed_refreshed (w : World) (s : Section) : (w.refreshed s).isSeed = w.isSeed := by
  rw [refreshed_eq]
  rfl

theorem terrain_refreshed (w : World) (s : Section) : (w.refreshed s).terrain = w.terrain := by
  rw [refreshed_eq]

/-! ## One section after the other -/

/-- Whether the cell lies in the cube around a seed that the terrain has in one of the sections. -/
def Reaches (w : World) (sections : List Section) (q : Cell) : Prop :=
  ∃ p, (p.home ∈ sections ∧ w.isSeed (w.terrain.block p) = true) ∧
    ∃ o ∈ Neighborhood.moore3dSelf, p.move o = q

theorem reaches_append {first second : List Section} {q : Cell} :
    w.Reaches (first ++ second) q ↔ w.Reaches first q ∨ w.Reaches second q := by
  rw [Reaches, Reaches, Reaches, ← exists_or]
  simp only [List.mem_append, ← or_and_right]

/-- The world, after some sections of the terrain have had their turn. -/
structure SeededFrom (turns : List Section) (w : World) : Prop where
  read : ∀ p slot, w.read p slot = if slot = 0 then w.terrain.block p else 0
  loaded : ∀ s, (w.channelsAt s).isSome = true → w.terrain.isLoaded s = true
  tracks : ∀ q, w.tracks q = true ↔ w.terrain.isLoaded q.home = true ∧ w.Reaches turns q
  stored : ∀ s, (w.channelsAt s).isSome = true ↔
    s ∈ turns ∨ ∃ q, w.tracks q = true ∧ q.home = s

theorem seededFrom_of_ofTerrain {terrain : Terrain} {rule : LocalRule} {config : Config}
    (h : ofTerrain terrain rule config = .ok w) : SeededFrom [] w := by
  rw [(eq_of_ofTerrain h).1]
  refine ⟨fun _ _ => rfl, ?_, ?_, ?_⟩
  · intro s hs
    cases hs
  · intro q
    constructor
    · intro hq
      cases hq
    · rintro ⟨-, p, ⟨hp, -⟩, -⟩
      cases hp
  · intro s
    constructor
    · intro hs
      cases hs
    · rintro (hs | ⟨q, hq, -⟩)
      · cases hs
      · cases hq

namespace SeededFrom

variable {turns : List Section}

/-- Taking over the blocks of the terrain once more changes nothing that can be read. -/
theorem read_refreshed (h : SeededFrom turns w) (s : Section) (p : Cell) (slot : Nat) :
    (w.refreshed s).read p slot = w.read p slot := by
  rw [World.read_refreshed]
  split
  · rename_i hslot
    rw [h.read, if_pos hslot.2]
  · rfl

theorem keeps_refreshed (h : SeededFrom turns w) {s : Section}
    (hloaded : w.terrain.isLoaded s = true) (a : Section) :
    (w.refreshed s).keeps a = w.terrain.isLoaded a := by
  rw [keeps, terrain_refreshed, Bool.eq_iff_iff, Bool.or_eq_true, channelsAt_refreshed_isSome]
  constructor
  · rintro ((ha | rfl) | ha)
    · exact h.loaded a ha
    · exact hloaded
    · exact ha
  · exact Or.inr

/-- The cubes to be woken are those around the seeds that the terrain has in the section. -/
theorem inCubes_seeds (h : SeededFrom turns w) (c q : Cell) :
    InCubes ((w.refreshed c.home).seeds c.home) q ↔ w.Reaches [c.home] q := by
  refine exists_congr fun p => and_congr_left fun _ => ?_
  rw [mem_seeds ((channelsAt_refreshed_isSome w c.home c.home).2 (Or.inr rfl)), h.read_refreshed,
    h.read, if_pos rfl, isSeed_refreshed, List.mem_singleton]

/-- A turn: the section is refreshed, which changes nothing that can be read, and then its seeds
    are added to those of the turns before. -/
theorem sectionLoaded (h : SeededFrom turns w) {c : Cell}
    (hloaded : w.terrain.isLoaded c.home = true) :
    SeededFrom (turns ++ [c.home]) (w.sectionLoaded c.home) := by
  have hterrain : ((w.refreshed c.home).seed c.home).terrain = w.terrain := by
    rw [terrain_seed, terrain_refreshed]
  have hseed : ((w.refreshed c.home).seed c.home).isSeed = w.isSeed := by
    rw [← isSeed_refreshed w c.home, seed_eq]
    rfl
  have htracks : ∀ q, ((w.refreshed c.home).seed c.home).tracks q = true ↔
      w.terrain.isLoaded q.home = true ∧ w.Reaches (turns ++ [c.home]) q := by
    intro q
    rw [seed_eq_wakeCubes, tracks_wakeCubes, tracks_refreshed, h.tracks, h.keeps_refreshed hloaded,
      h.inCubes_seeds, ← and_or_left, reaches_append]
  have hstored : ∀ s, (((w.refreshed c.home).seed c.home).channelsAt s).isSome = true ↔
      ((w.channelsAt s).isSome = true ∨ s = c.home) ∨
        (w.terrain.isLoaded s = true ∧ ∃ q, w.Reaches [c.home] q ∧ q.home = s) := by
    intro s
    rw [seed_eq_wakeCubes, channelsAt_wakeCubes_isSome, channelsAt_refreshed_isSome,
      terrain_refreshed]
    simp only [h.inCubes_seeds]
  rw [sectionLoaded_of_isLoaded hloaded]
  refine ⟨?_, ?_, ?_, ?_⟩
  · intro p slot
    rw [read_seed, h.read_refreshed, hterrain, h.read]
  · intro s hs
    rw [hterrain]
    rcases (hstored s).1 hs with (hs | rfl) | hs
    · exact h.loaded s hs
    · exact hloaded
    · exact hs.1
  · intro q
    rw [htracks, Reaches, Reaches, hterrain, hseed]
  · intro s
    simp only [hstored, htracks, h.stored, h.tracks, reaches_append, List.mem_append,
      List.mem_singleton]
    constructor
    · rintro (((hs | ⟨q, ⟨hq, hbefore⟩, rfl⟩) | rfl) | ⟨hs, q, hnow, rfl⟩)
      · exact Or.inl (Or.inl hs)
      · exact Or.inr ⟨q, ⟨hq, Or.inl hbefore⟩, rfl⟩
      · exact Or.inl (Or.inr rfl)
      · exact Or.inr ⟨q, ⟨hs, Or.inr hnow⟩, rfl⟩
    · rintro ((hs | rfl) | ⟨q, ⟨hq, hbefore | hnow⟩, rfl⟩)
      · exact Or.inl (Or.inl (Or.inl hs))
      · exact Or.inl (Or.inr rfl)
      · exact Or.inl (Or.inl (Or.inr ⟨q, ⟨hq, hbefore⟩, rfl⟩))
      · exact Or.inr ⟨hq, q, hnow, rfl⟩

theorem foldl_sectionLoaded (h : SeededFrom turns w) {sections : List Section}
    (hsections : ∀ s ∈ sections, w.terrain.isLoaded s = true ∧ ∃ c : Cell, c.home = s) :
    SeededFrom (turns ++ sections) (sections.foldl World.sectionLoaded w) := by
  induction sections generalizing turns w with
  | nil => rwa [List.append_nil]
  | cons s rest ih =>
    rw [List.forall_mem_cons] at hsections
    obtain ⟨⟨hloaded, c, rfl⟩, hrest⟩ := hsections
    have hterrain : (w.sectionLoaded c.home).terrain = w.terrain := by rw [sectionLoaded_eq]
    rw [List.foldl_cons, List.append_cons]
    refine ih (h.sectionLoaded hloaded) ?_
    rwa [hterrain]

/-- Storage has the blocks of the terrain, and 0 in every other channel. -/
theorem read_storage (h : SeededFrom turns w) {p : Cell} {storage : Storage}
    (hs : w.sections.find? p.home = some storage) {i : Nat} (hi : i < sectionVolume) (slot : Nat) :
    storage.read i slot = if slot = 0 then w.terrain.block (p.home.cell i) else 0 := by
  have hread := h.read (p.home.cell i) slot
  rw [← p.home_cell hi] at hs
  rwa [read_of_find? hs, p.index_cell hi] at hread

end SeededFrom

/-! ## A terrain is taken over -/

variable {terrain : Terrain} {rule : LocalRule} {config : Config}

/-- With valid settings every terrain can be taken over. -/
theorem exists_ofLoaded_eq_ok (terrain : Terrain) (rule : LocalRule) (h : config.check = .ok ()) :
    ∃ w, ofLoaded terrain rule config = .ok w := by
  unfold ofLoaded ofTerrain
  rw [h]
  exact ⟨_, rfl⟩

theorem seededFrom_of_ofLoaded (h : ofLoaded terrain rule config = .ok w) :
    SeededFrom terrain.populatedSections w := by
  obtain ⟨w₀, hnew, rfl⟩ := exists_of_ofLoaded h
  refine (seededFrom_of_ofTerrain hnew).foldl_sectionLoaded fun s hs => ?_
  rw [(eq_of_ofTerrain hnew).1]
  exact ⟨(Terrain.mem_populatedSections.1 hs).1, Terrain.exists_home_of_mem_populatedSections hs⟩

/-- All storage of a new world has the channels that its rule asks for. -/
theorem channelsFit_of_ofLoaded (h : ofLoaded terrain rule config = .ok w) : w.ChannelsFit := by
  obtain ⟨w₀, hnew, rfl⟩ := exists_of_ofLoaded h
  have hrun := channelsFit_after_iff w₀ (terrain.populatedSections.map Command.load)
  rw [World.after, List.foldl_map] at hrun
  refine hrun.2 fun s n hs => ?_
  rw [(eq_of_ofTerrain hnew).1] at hs
  cases hs

/-- A world that takes over a terrain tracks a cell of a loaded section exactly if a seed in one of
    the populated sections has it in the cube around it.  It has storage for these sections and for
    those of the tracked cells, with the blocks of the terrain and 0 in every other channel. -/
theorem ofLoaded_tracks_exactly (terrain : Terrain) (rule : LocalRule) {config : Config}
    (h : config.check = .ok ()) :
    ∃ w, ofLoaded terrain rule config = .ok w ∧
      (∀ c : Cell, w.tracks c = true ↔
        terrain.isLoaded c.home = true ∧
          ∃ n : Cell, ∃ o ∈ Neighborhood.moore3dSelf, c = n.move o ∧
            n.home ∈ terrain.populatedSections ∧
            (terrain.block n ≠ air ∨ config.seedAir = true) ∧
            rule.watches (terrain.block n) = true) ∧
      (∀ s, (∃ storage, w.sections.find? s = some storage) ↔
        s ∈ terrain.populatedSections ∨ ∃ c : Cell, w.tracks c = true ∧ c.home = s) ∧
      ∀ s storage, w.sections.find? s = some storage →
        storage.channels = max rule.channels 1 ∧
        ∀ i < sectionVolume, ∀ slot,
          storage.read i slot = if slot = 0 then terrain.block (s.cell i) else 0 := by
  obtain ⟨w, hw⟩ := exists_ofLoaded_eq_ok terrain rule h
  have hseeded := seededFrom_of_ofLoaded hw
  have hfit := channelsFit_of_ofLoaded hw
  have hnew := (eq_of_new (Or.inr hw)).1
  have hterrain : w.terrain = terrain := by rw [hnew]
  have hrule : w.rule = rule := by rw [hnew]
  have hseed : ∀ block, w.isSeed block = true ↔
      (block ≠ air ∨ config.seedAir = true) ∧ rule.watches block = true := by
    intro block
    rw [hnew]
    simp [isSeed]
  have hstored : ∀ s, (∃ storage, w.sections.find? s = some storage) ↔
      s ∈ terrain.populatedSections ∨ ∃ c : Cell, w.tracks c = true ∧ c.home = s := by
    intro s
    rw [← hseeded.stored, channelsAt, Option.isSome_map, Option.isSome_iff_exists]
  refine ⟨w, hw, ?_, hstored, ?_⟩
  · intro c
    rw [hseeded.tracks, Reaches, hterrain]
    refine and_congr_right fun _ => exists_congr fun n => ?_
    rw [hseed]
    constructor
    · rintro ⟨⟨hn, hblock⟩, o, ho, hc⟩
      exact ⟨o, ho, hc.symm, hn, hblock⟩
    · rintro ⟨o, ho, hc, hn, hblock⟩
      exact ⟨⟨hn, hblock⟩, o, ho, hc.symm⟩
  · intro s storage hs
    obtain ⟨p, rfl⟩ : ∃ p : Cell, p.home = s := by
      rcases (hstored s).1 ⟨storage, hs⟩ with hs | ⟨c, -, hc⟩
      · exact Terrain.exists_home_of_mem_populatedSections hs
      · exact ⟨c, hc⟩
    rw [← hterrain, ← hrule]
    refine ⟨hfit p.home storage.channels ?_, fun i hi slot => hseeded.read_storage hs hi slot⟩
    rw [channelsAt, hs]
    rfl

/-- A block of 1 at the corner of a section, with the section to the west of it unloaded. -/
def cornerTerrain : Terrain := (Terrain.empty.put ⟨0, 0, 0⟩ 1).unload ⟨-1, 0, 0⟩

/-- The cell below the corner is tracked, in a section of its own, and the cell to the west is
    not. -/
theorem ofLoaded_tracks_exactly_corner :
    Config.fast.check = .ok () ∧
      ∃ w, ofLoaded cornerTerrain ⟨[], 1, fun _ => true, fun _ => .idle⟩ Config.fast = .ok w ∧
        w.tracks ⟨0, -1, 0⟩ = true ∧ w.tracks ⟨-1, 0, 0⟩ = false ∧
        ∃ storage, w.sections.find? ⟨0, -1, 0⟩ = some storage ∧ storage.read 0 0 = 0 := by
  have hvalid : Config.fast.check = .ok () := rfl
  obtain ⟨w, hw, htracks, hstored, hread⟩ := ofLoaded_tracks_exactly cornerTerrain
    ⟨[], 1, fun _ => true, fun _ => .idle⟩ hvalid
  have hcorner : (⟨0, 0, 0⟩ : Cell).home ∈ cornerTerrain.populatedSections := by
    refine Terrain.mem_populatedSections.2 ⟨by decide, ⟨0, 0, 0⟩, ?_, rfl⟩
    exact Std.TreeMap.mem_keys.2 (Std.TreeMap.mem_insert_self)
  have hbelow : w.tracks ⟨0, -1, 0⟩ = true := by
    refine (htracks _).2 ⟨by decide, ⟨0, 0, 0⟩, ⟨0, -1, 0⟩, by decide, by decide, hcorner, ?_, rfl⟩
    exact Or.inl (by decide)
  obtain ⟨storage, hs⟩ := (hstored ⟨0, -1, 0⟩).2 (Or.inr ⟨_, hbelow, by decide⟩)
  refine ⟨hvalid, w, hw, hbelow, ?_, storage, hs, ?_⟩
  · rw [Bool.eq_false_iff]
    intro hwest
    exact absurd ((htracks _).1 hwest).1 (by decide)
  · rw [(hread _ _ hs).2 0 (by decide) 0]
    decide

end BlockAutomata.Engine.World
