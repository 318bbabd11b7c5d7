/-
  The blocks of the engine are the blocks of the terrain.

  1. A cell with storage has its block twice: in the terrain, and in channel 0 of the storage.
     Everything the engine does changes both, and as long as the owner of the terrain tells the
     engine at once about what he does to it, the two are the same.  Such a world is `Attended`.

  2. `Mirrors stale` says that storage is kept for loaded sections only, all of them the home of
     some cell, and that away from the stale sections every block read is the terrain's.  Whatever
     lets a world grow keeps the first part (`Mirrors.of_grows`); a request keeps the second because
     it passes a changed block on (`block_eq_apply`).

  3. Blocks that the owner edits make their sections stale, and telling the engine about a section
     takes it off the list (`Mirrors.sectionLoaded`).
-/
import BlockAutomata.Proofs.Engine.Reachability

namespace BlockAutomata.Engine

/-! ## What the owner does to the terrain -/

namespace Terrain

/-- Put blocks into cells, one after the other. -/
def putAll (t : Terrain) (edits : List (Cell × Int64)) : Terrain :=
  edits.foldl (fun t e => t.put e.1 e.2) t

theorem isLoaded_put (t : Terrain) (p : Cell) (value : Int64) (s : Section) :
    (t.put p value).isLoaded s = t.isLoaded s := rfl

theorem isLoaded_putAll (t : Terrain) (edits : List (Cell × Int64)) (s : Section) :
    (t.putAll edits).isLoaded s = t.isLoaded s := by
  unfold putAll
  induction edits generalizing t with
  | nil => rfl
  | cons e rest ih => rw [List.foldl_cons, ih, isLoaded_put]

/-- A cell that is not edited keeps its block. -/
theorem block_putAll_of_not_mem (t : Terrain) {edits : List (Cell × Int64)} {p : Cell}
    (h : ∀ e ∈ edits, e.1 ≠ p) : (t.putAll edits).block p = t.block p := by
  unfold putAll
  induction edits generalizing t with
  | nil => rfl
  | cons e rest ih =>
    rw [List.forall_mem_cons] at h
    rw [List.foldl_cons, ih _ h.2, block_put, if_neg (Ne.symm h.1)]

theorem isLoaded_load (t : Terrain) (s a : Section) :
    (t.load s).isLoaded a = (decide (a = s) || t.isLoaded a) := by
  simp only [isLoaded, load, List.contains_eq_mem, List.mem_filter]
  by_cases ha : a = s <;> simp [ha]

theorem isLoaded_unload (t : Terrain) (s a : Section) :
    (t.unload s).isLoaded a = (!decide (a = s) && t.isLoaded a) := by
  simp only [isLoaded, unload]
  split
  · rename_i hs
    by_cases ha : a = s
    · subst ha; simpa using hs
    · simp [ha]
  · by_cases ha : a = s <;> simp [ha]

theorem block_unload (t : Terrain) (s : Section) (p : Cell) :
    (t.unload s).block p = t.block p := by
  unfold unload
  split <;> rfl

/-- The populated sections are the loaded ones in which some cell has an entry. -/
theorem mem_populatedSections {t : Terrain} {s : Section} :
    s ∈ t.populatedSections ↔ t.isLoaded s = true ∧ ∃ p ∈ t.blocks.keys, p.home = s := by
  have hfold : ∀ (cells : List Cell) (found : Std.TreeSet Section),
      s ∈ cells.foldl (fun (found : Std.TreeSet Section) p =>
          if t.isLoaded p.home then found.insert p.home else found) found ↔
        s ∈ found ∨ (t.isLoaded s = true ∧ ∃ p ∈ cells, p.home = s) := by
    intro cells
    induction cells with
    | nil => simp
    | cons p rest ih =>
      intro found
      have hinsert : s ∈ found.insert p.home ↔ s ∈ found ∨ p.home = s := by
        rw [Std.TreeSet.mem_insert, Std.LawfulEqOrd.compare_eq_iff_eq, or_comm]
      rw [List.foldl_cons, ih]
      simp only [List.mem_cons, exists_eq_or_imp]
      by_cases hloaded : t.isLoaded p.home = true
      · rw [if_pos hloaded, hinsert, or_assoc]
        refine or_congr_right ?_
        constructor
        · rintro (rfl | ⟨hs, hrest⟩)
          · exact ⟨hloaded, Or.inl rfl⟩
          · exact ⟨hs, Or.inr hrest⟩
        · rintro ⟨hs, rfl | hrest⟩
          · exact Or.inl rfl
          · exact Or.inr ⟨hs, hrest⟩
      · rw [if_neg hloaded]
        refine or_congr_right (and_congr_right fun hs => ?_)
        exact (or_iff_right fun hp : p.home = s => hloaded (hp ▸ hs)).symm
  rw [populatedSections, Std.TreeSet.mem_toList, hfold]
  simp

/-- Every section that counts as populated is the home of some cell. -/
theorem exists_home_of_mem_populatedSections {t : Terrain} {s : Section}
    (h : s ∈ t.populatedSections) : ∃ p : Cell, p.home = s := by
  obtain ⟨-, p, -, hp⟩ := mem_populatedSections.1 h
  exact ⟨p, hp⟩

end Terrain

namespace World

/-- The owner loads a section and tells the engine. -/
def ownerLoads (w : World) (s : Section) : World :=
  { w with terrain := w.terrain.load s }.sectionLoaded s

/-- The owner unloads a section and tells the engine. -/
def ownerUnloads (w : World) (s : Section) : World :=
  { w with terrain := w.terrain.unload s }.sectionUnloaded s

/-- The owner edits blocks and tells the engine about sections. -/
def ownerEdits (w : World) (edits : List (Cell × Int64)) (sections : List Section) : World :=
  sections.foldl sectionLoaded { w with terrain := w.terrain.putAll edits }

/-- The worlds whose owner tells the engine at once about everything that he does to the terrain,
    and who speaks only of sections in which cells have their home. -/
inductive Attended : World → Prop where
  | new {terrain : Terrain} {rule : LocalRule} {config : Config} {w : World}
      (h : ofTerrain terrain rule config = .ok w) : Attended w
  | register {terrain : Terrain} {rule : LocalRule} {config : Config} {w : World}
      (h : ofLoaded terrain rule config = .ok w) : Attended w
  | tick {w : World} (h : Attended w) : Attended w.runTick.1
  | place {w : World} (h : Attended w) (p : Cell) (channels : SlotMap) :
      Attended (w.place p channels)
  | exchange {w w' : World} {rule : LocalRule} (h : Attended w)
      (hrule : w.exchangeRule rule = .ok w') : Attended w'
  | load {w : World} (h : Attended w) (p : Cell) : Attended (w.ownerLoads p.home)
  | unload {w : World} (h : Attended w) (p : Cell) : Attended (w.ownerUnloads p.home)
  | edit {w : World} (h : Attended w) {edits : List (Cell × Int64)} {sections : List Section}
      (hhome : ∀ s ∈ sections, ∃ p : Cell, p.home = s)
      (htold : ∀ e ∈ edits, e.1.home ∈ sections) : Attended (w.ownerEdits edits sections)
  | takeEvents {w : World} (h : Attended w) : Attended w.takeEvents.2
  | takeBatches {w : World} (h : Attended w) :
      Attended { w with terrain := w.terrain.takeBatches.2 }

/-! ## The mirror -/

/-- Storage is kept for loaded sections in which cells have their home, and away from the stale
    sections each cell has the block of the terrain. -/
structure Mirrors (stale : List Section) (w : World) : Prop where
  loaded : ∀ s n, w.channelsAt s = some n → w.terrain.isLoaded s = true
  home : ∀ s n, w.channelsAt s = some n → ∃ p : Cell, p.home = s
  block : ∀ p : Cell, p.home ∉ stale → w.read p 0 = w.terrain.block p

variable {stale : List Section} {w : World}

/-- A world that grows has a mirror if the blocks are the terrain's. -/
theorem Mirrors.of_grows (h : Mirrors stale w) {w' : World} (hgrows : Grows w w')
    (hblock : ∀ p : Cell, p.home ∉ stale → w'.read p 0 = w'.terrain.block p) :
    Mirrors stale w' where
  loaded := by
    intro s n hs
    rw [hgrows.isLoaded]
    rcases hgrows.channelsAt s n hs with hs | ⟨-, hloaded, -⟩
    · exact h.loaded s n hs
    · exact hloaded
  home := by
    intro s n hs
    rcases hgrows.channelsAt s n hs with hs | ⟨-, -, hhome⟩
    · exact h.home s n hs
    · exact hhome
  block := hblock

theorem Mirrors.mono {stale' : List Section} (h : Mirrors stale w)
    (hsub : ∀ s ∈ stale, s ∈ stale') : Mirrors stale' w :=
  ⟨h.loaded, h.home, fun p hp => h.block p fun hs => hp (hsub _ hs)⟩

/-! ## Steps -/

/-- A request passes the block on if it changes it, provided that storage is kept for loaded
    sections only. -/
theorem block_eq_apply {t : Turn}
    (hloaded : ∀ s n, t.world.channelsAt s = some n → t.world.terrain.isLoaded s = true)
    (r : Request) {p : Cell} (h : t.world.read p 0 = t.world.terrain.block p) :
    (t.apply r).2.world.read p 0 = (t.apply r).2.world.terrain.block p := by
  rw [Turn.read_apply, Turn.block_apply]
  by_cases hp : p = r.cell
  · subst hp
    cases hadmits : t.world.admits r with
    | false =>
      rw [attempted_of_not_admits hadmits, if_pos rfl, if_neg fun hc => hc.2.2 rfl]
      exact h
    | true =>
      rw [admits, Bool.and_eq_true] at hadmits
      obtain ⟨n, hn⟩ := Option.isSome_iff_exists.1 hadmits.1
      by_cases hsame : t.world.attempted r 0 = t.world.read r.cell 0
      · rw [if_pos rfl, if_neg fun hc => hc.2.2 hsame, hsame]
        exact h
      · rw [if_pos rfl, if_pos ⟨rfl, hloaded _ n hn, hsame⟩]
  · rw [if_neg hp, if_neg fun hc => hp hc.1]
    exact h

theorem Mirrors.apply {t : Turn} (h : Mirrors stale t.world) (r : Request) :
    Mirrors stale (t.apply r).2.world :=
  h.of_grows (Grows.apply t r) fun p hp => block_eq_apply h.loaded r (h.block p hp)

theorem Mirrors.applyAll {t : Turn} (h : Mirrors stale t.world) (due : List Request) :
    Mirrors stale (t.applyAll due).world :=
  Turn.applyAll_induction (motive := fun u => Mirrors stale u.world)
    (fun _ r hu => Mirrors.apply hu r) h due

theorem Mirrors.provide (h : Mirrors stale w) (p : Cell) : Mirrors stale (w.provide p.home) :=
  h.of_grows (Grows.provide w p) fun q hq => by
    rw [read_provide, terrain_provide]
    exact h.block q hq

theorem Mirrors.placed (h : Mirrors stale w) : Mirrors stale w.placed.world := by
  refine placed_induction (motive := fun t => Mirrors stale t.world) ?_
    ⟨h.loaded, h.home, h.block⟩
  intro t r _ ht
  rw [Turn.world_applyPlacement]
  exact Mirrors.apply (t := t.provided r) (ht.provide r.cell) r

theorem Mirrors.step (h : Mirrors stale w) : Mirrors stale w.step.1 := by
  have hready : Mirrors stale w.ready.world :=
    h.of_grows (Grows.ready w) fun p hp => by
      rw [read_ready, terrain_ready]
      exact h.placed.block p hp
  have hdone := hready.applyAll (w.immediate ++ w.fired)
  refine h.of_grows (Grows.step w) fun p hp => ?_
  rw [step_eq_flush, read_flush, block_flush]
  exact hdone.block p hp

theorem Mirrors.runTick (h : Mirrors stale w) : Mirrors stale w.runTick.1 := by
  have hsteps := stepped_invariant (fun _ hu => Mirrors.step hu) w.config.stepsPerTick h
  rw [runTick_fst]
  exact ⟨hsteps.loaded, hsteps.home, hsteps.block⟩

/-! ## Notices -/

theorem Mirrors.seed (h : Mirrors stale w) (s : Section) : Mirrors stale (w.seed s) :=
  h.of_grows (Grows.seed w s) fun p hp => by
    rw [read_seed, terrain_seed]
    exact h.block p hp

/-- Once the engine has been told about a section, it is no longer stale. -/
theorem Mirrors.sectionLoaded {s : Section} (h : Mirrors (s :: stale) w)
    (hhome : ∃ p : Cell, p.home = s) : Mirrors stale (w.sectionLoaded s) := by
  cases hs : w.terrain.isLoaded s with
  | false =>
    -- an unloaded section has no storage, so its blocks are read from the terrain anyway
    rw [sectionLoaded_of_not_isLoaded hs]
    refine ⟨h.loaded, h.home, fun p hp => ?_⟩
    by_cases hps : p.home = s
    · have hnone : w.channelsAt p.home = none := by
        rw [Option.eq_none_iff_forall_ne_some]
        intro n hn
        have hloaded := h.loaded _ n hn
        rw [hps, hs] at hloaded
        cases hloaded
      rw [read_of_channelsAt_eq_none hnone, if_pos rfl]
    · exact h.block p (List.not_mem_cons_of_ne_of_not_mem hps hp)
  | true =>
    rw [sectionLoaded_of_isLoaded hs]
    have hterrain : (w.refreshed s).terrain = w.terrain := by rw [refreshed_eq]
    refine Mirrors.seed ⟨?_, ?_, ?_⟩ s
    · intro a n ha
      rw [hterrain]
      rw [channelsAt_refreshed] at ha
      split at ha
      · rename_i has
        rw [has, hs]
      · exact h.loaded a n ha
    · intro a n ha
      rw [channelsAt_refreshed] at ha
      split at ha
      · rename_i has
        rw [has]
        exact hhome
      · exact h.home a n ha
    · intro p hp
      rw [hterrain, read_refreshed]
      by_cases hps : p.home = s
      · rw [if_pos ⟨hps, rfl⟩]
      · rw [if_neg fun hc => hps hc.1]
        exact h.block p (List.not_mem_cons_of_ne_of_not_mem hps hp)

theorem Mirrors.foldl_sectionLoaded {sections : List Section}
    (h : Mirrors sections w) (hhome : ∀ s ∈ sections, ∃ p : Cell, p.home = s) :
    Mirrors [] (sections.foldl World.sectionLoaded w) := by
  induction sections generalizing w with
  | nil => exact h
  | cons s rest ih =>
    rw [List.forall_mem_cons] at hhome
    exact ih (h.sectionLoaded hhome.1) hhome.2

theorem Mirrors.ownerLoads (h : Mirrors [] w) (p : Cell) : Mirrors [] (w.ownerLoads p.home) := by
  refine Mirrors.sectionLoaded ⟨?_, h.home, fun q _ => h.block q List.not_mem_nil⟩ ⟨p, rfl⟩
  intro s n hs
  show (w.terrain.load p.home).isLoaded s = true
  rw [Terrain.isLoaded_load, h.loaded s n hs, Bool.or_true]

theorem Mirrors.ownerUnloads (h : Mirrors [] w) (s : Section) : Mirrors [] (w.ownerUnloads s) := by
  have hstored : ∀ a, (w.ownerUnloads s).channelsAt a =
      if a = s then none else w.channelsAt a :=
    channelsAt_sectionUnloaded { w with terrain := w.terrain.unload s } s
  have hchannels : ∀ a n, (w.ownerUnloads s).channelsAt a = some n →
      a ≠ s ∧ w.channelsAt a = some n := by
    intro a n ha
    rw [hstored] at ha
    split at ha
    · cases ha
    · rename_i has
      exact ⟨has, ha⟩
  refine ⟨?_, fun a n ha => h.home a n (hchannels a n ha).2, ?_⟩
  · intro a n ha
    obtain ⟨has, hn⟩ := hchannels a n ha
    show (w.terrain.unload s).isLoaded a = true
    rw [Terrain.isLoaded_unload, h.loaded a n hn]
    simpa using has
  · intro p _
    show (w.ownerUnloads s).read p 0 = (w.terrain.unload s).block p
    have hblock : (w.ownerUnloads s).terrain.block p = w.terrain.block p :=
      Terrain.block_unload w.terrain s p
    rw [Terrain.block_unload, ← h.block p List.not_mem_nil]
    by_cases hp : p.home = s
    · have hnone : (w.ownerUnloads s).channelsAt p.home = none := by rw [hstored, if_pos hp]
      rw [read_of_channelsAt_eq_none hnone, if_pos rfl, hblock, h.block p List.not_mem_nil]
    · have hfind : (w.ownerUnloads s).sections.find? p.home = w.sections.find? p.home :=
        (find?_sectionUnloaded _ s p.home).trans (if_neg hp)
      rw [read, read, readCell, readCell, hfind, hblock]

theorem Mirrors.ownerEdits (h : Mirrors [] w) {edits : List (Cell × Int64)}
    {sections : List Section} (hhome : ∀ s ∈ sections, ∃ p : Cell, p.home = s)
    (htold : ∀ e ∈ edits, e.1.home ∈ sections) : Mirrors [] (w.ownerEdits edits sections) := by
  refine Mirrors.foldl_sectionLoaded ⟨?_, h.home, ?_⟩ hhome
  · intro s n hs
    show (w.terrain.putAll edits).isLoaded s = true
    rw [Terrain.isLoaded_putAll, h.loaded s n hs]
  · intro p hp
    have hkept : (w.terrain.putAll edits).block p = w.terrain.block p :=
      Terrain.block_putAll_of_not_mem _ fun e he hep => hp (hep ▸ htold e he)
    have hblock := h.block p List.not_mem_nil
    rw [read, readCell] at hblock ⊢
    show _ = (w.terrain.putAll edits).block p
    rw [hkept]
    cases hs : w.sections.find? p.home with
    | none => rfl
    | some storage =>
      rw [hs] at hblock
      exact hblock

/-! ## The exchange of the rule -/

theorem Mirrors.exchangeRule (h : Mirrors [] w) {w' : World} {rule : LocalRule}
    (hrule : w.exchangeRule rule = .ok w') : Mirrors [] w' := by
  obtain ⟨wheel, rfl⟩ := eq_of_exchangeRule hrule
  have hstored : ∀ s n, (w.relaid rule wheel).channelsAt s = some n →
      ∃ m, w.channelsAt s = some m := by
    intro s n hs
    rw [channelsAt_relaid] at hs
    obtain ⟨m, hm, -⟩ := Option.map_eq_some_iff.1 hs
    exact ⟨m, hm⟩
  have hrelaid : Mirrors [] (w.relaid rule wheel) := by
    refine ⟨?_, ?_, ?_⟩
    · intro s n hs
      obtain ⟨m, hm⟩ := hstored s n hs
      exact h.loaded s m hm
    · intro s n hs
      obtain ⟨m, hm⟩ := hstored s n hs
      exact h.home s m hm
    · intro p hp
      rw [read_relaid]
      exact h.block p hp
  refine hrelaid.of_grows (Grows.seedAll _) fun p hp => ?_
  rw [read_seedAll, seedAll_eq]
  exact hrelaid.block p hp

/-! ## The law -/

theorem mirrors_of_ofTerrain {terrain : Terrain} {rule : LocalRule} {config : Config}
    (h : ofTerrain terrain rule config = .ok w) : Mirrors [] w := by
  rw [(eq_of_ofTerrain h).1]
  exact ⟨fun s n hs => (by cases hs), fun s n hs => (by cases hs), fun p _ => rfl⟩

theorem Attended.mirrors (h : Attended w) : Mirrors [] w := by
  induction h with
  | new h => exact mirrors_of_ofTerrain h
  | register h =>
    obtain ⟨w₀, hnew, rfl⟩ := exists_of_ofLoaded h
    have hmirrors : Mirrors w₀.terrain.populatedSections w₀ :=
      (mirrors_of_ofTerrain hnew).mono fun s hs => absurd hs List.not_mem_nil
    rw [(eq_of_ofTerrain hnew).1] at hmirrors ⊢
    exact hmirrors.foldl_sectionLoaded fun s hs => Terrain.exists_home_of_mem_populatedSections hs
  | tick _ ih => exact ih.runTick
  | place _ p channels ih => exact ⟨ih.loaded, ih.home, ih.block⟩
  | exchange _ hrule ih => exact ih.exchangeRule hrule
  | load _ p ih => exact ih.ownerLoads p
  | unload _ p ih => exact ih.ownerUnloads p.home
  | edit _ hhome htold ih => exact ih.ownerEdits hhome htold
  | takeEvents _ ih => exact ⟨ih.loaded, ih.home, ih.block⟩
  | takeBatches _ ih => exact ⟨ih.loaded, ih.home, ih.block⟩

/-- As long as the owner of the terrain tells the engine about all that he does, every section with
    storage is loaded, and channel 0 of its storage holds the blocks of the terrain. -/
theorem storage_mirrors_terrain (h : Attended w) {s : Section} {storage : Storage}
    (hs : w.sections.find? s = some storage) :
    w.terrain.isLoaded s = true ∧
      ∀ i < sectionVolume, storage.read i 0 = w.terrain.block (s.cell i) := by
  have hmirrors := h.mirrors
  have hstored : w.channelsAt s = some storage.channels := by rw [channelsAt, hs]; rfl
  refine ⟨hmirrors.loaded s _ hstored, ?_⟩
  intro i hi
  obtain ⟨p, rfl⟩ := hmirrors.home s _ hstored
  rw [← p.home_cell hi] at hs
  rw [← hmirrors.block _ List.not_mem_nil, read_of_find? hs, p.index_cell hi]

/-- A block is placed into an empty world, and a tick follows. -/
theorem storage_mirrors_terrain_placed :
    ∃ (w : World) (storage : Storage), Attended w ∧
      w.sections.find? ⟨0, 0, 0⟩ = some storage ∧ w.terrain.isLoaded ⟨0, 0, 0⟩ = true ∧
      ∀ i < sectionVolume, storage.read i 0 = w.terrain.block ((⟨0, 0, 0⟩ : Section).cell i) := by
  obtain ⟨w₀, hnew, hplace⟩ := exists_firstBlock default
  have hattended : Attended (firstBlock default).runTick.1 := by
    rw [← hplace]
    exact ((Attended.new hnew).place _ _).tick
  have hhome : firstRequest.cell.home = ⟨0, 0, 0⟩ := by decide
  have hstored : (firstBlock default).runTick.1.channelsAt ⟨0, 0, 0⟩ = some 1 := by
    rw [channelsAt_runTick, ← hhome]
    exact channelsAt_step_of_some (channelsAt_placed_firstBlock default)
  obtain ⟨storage, hs, -⟩ := Option.map_eq_some_iff.1 hstored
  exact ⟨_, storage, hattended, hs, storage_mirrors_terrain hattended hs⟩

end World

end BlockAutomata.Engine
