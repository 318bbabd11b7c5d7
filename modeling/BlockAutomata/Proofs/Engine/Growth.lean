/-
  What storage a world comes to have.

  1. One world grows into another when it has got storage for loaded sections only, each of them the
     home of some cell, with as many channels as the rule asks for, and what had storage before has
     kept its channels in number (`Grows`).  Waking, placements, whole steps and seeding make a
     world grow and do nothing else to its storage, so an invariant of sections with storage need
     not look into any of these.

  2. A section that is loaded takes its blocks from the terrain (`refreshed`) and is then seeded.
     Seeding only wakes: it changes no reading, and it drops no tracked cell (`seed_induction`).
-/
import BlockAutomata.Proofs.Engine.Runs

namespace BlockAutomata.Engine.World

/-! ## Growing -/

/-- The second world has the storage of the first one, and perhaps new storage for loaded sections
    in which cells have their home. -/
structure Grows (w w' : World) : Prop where
  rule : w'.rule = w.rule
  isLoaded : ∀ s, w'.terrain.isLoaded s = w.terrain.isLoaded s
  channelsAt : ∀ s n, w'.channelsAt s = some n →
    w.channelsAt s = some n ∨
      (n = max w.rule.channels 1 ∧ w.terrain.isLoaded s = true ∧ ∃ p : Cell, p.home = s)

namespace Grows

variable {w w₁ w₂ : World}

theorem refl (w : World) : Grows w w := ⟨rfl, fun _ => rfl, fun _ _ h => Or.inl h⟩

theorem trans (h₁ : Grows w w₁) (h₂ : Grows w₁ w₂) : Grows w w₂ where
  rule := h₂.rule.trans h₁.rule
  isLoaded := fun s => (h₂.isLoaded s).trans (h₁.isLoaded s)
  channelsAt := by
    intro s n hs
    rcases h₂.channelsAt s n hs with hs | ⟨hn, hloaded, hhome⟩
    · exact h₁.channelsAt s n hs
    · rw [h₁.rule] at hn
      rw [h₁.isLoaded] at hloaded
      exact Or.inr ⟨hn, hloaded, hhome⟩

theorem provide (w : World) (p : Cell) : Grows w (w.provide p.home) where
  rule := rule_provide w p.home
  isLoaded := fun s => by rw [terrain_provide]
  channelsAt := by
    intro s n hs
    rw [channelsAt_provide] at hs
    split at hs
    · rename_i hnew
      obtain ⟨rfl, -, hloaded⟩ := hnew
      exact Or.inr ⟨(Option.some.inj hs).symm, hloaded, p, rfl⟩
    · exact Or.inl hs

theorem wake (w : World) (p : Cell) (offsets : List Offset) : Grows w (w.wake p offsets) where
  rule := by rw [wake_eq]
  isLoaded := fun s => by rw [wake_eq]
  channelsAt := by
    intro s n hs
    rw [channelsAt_wake] at hs
    split at hs
    · rename_i hnew
      obtain ⟨-, hloaded, o, -, ho⟩ := hnew
      exact Or.inr ⟨(Option.some.inj hs).symm, hloaded, p.move o, ho⟩
    · exact Or.inl hs

theorem apply (t : Turn) (r : Request) : Grows t.world (t.apply r).2.world where
  rule := Turn.rule_apply t r
  isLoaded := Turn.isLoaded_apply t r
  channelsAt := by
    intro s n hs
    rw [Turn.channelsAt_apply] at hs
    split at hs
    · rename_i hnew
      obtain ⟨-, hloaded, -, o, -, ho⟩ := hnew
      exact Or.inr ⟨(Option.some.inj hs).symm, hloaded, r.cell.move o, ho⟩
    · exact Or.inl hs

theorem applyAll (t : Turn) (due : List Request) : Grows t.world (t.applyAll due).world :=
  Turn.applyAll_induction (motive := fun u => Grows t.world u.world)
    (fun u r hu => hu.trans (apply u r)) (refl t.world) due

theorem applyPlacement (t : Turn) (r : Request) : Grows t.world (t.applyPlacement r).world := by
  rw [Turn.world_applyPlacement]
  exact (provide t.world r.cell).trans (apply (t.provided r) r)

theorem placed (w : World) : Grows w w.placed.world :=
  placed_induction (motive := fun t => Grows w t.world)
    (fun t r _ ht => ht.trans (applyPlacement t r)) ⟨rfl, fun _ => rfl, fun _ _ h => Or.inl h⟩

theorem ready (w : World) : Grows w w.ready.world where
  rule := by rw [rule_ready, (placed w).rule]
  isLoaded := fun s => by rw [terrain_ready, isLoaded_placed]
  channelsAt := by
    intro s n hs
    rw [channelsAt_ready] at hs
    exact (placed w).channelsAt s n hs

theorem step (w : World) : Grows w w.step.1 := by
  have hdone : Grows w w.done.world := (ready w).trans (applyAll w.ready _)
  rw [step_eq_flush]
  refine ⟨hdone.rule, fun s => ?_, hdone.channelsAt⟩
  rw [isLoaded_flush, hdone.isLoaded]

theorem stepped (n : Nat) (w : World) : Grows w (stepped n w) :=
  stepped_invariant (fun u (hu : Grows w u) => hu.trans (step u)) n (refl w)

theorem runTick (w : World) : Grows w w.runTick.1 := by
  have hsteps := stepped w.config.stepsPerTick w
  rw [runTick_fst]
  exact ⟨hsteps.rule, hsteps.isLoaded, hsteps.channelsAt⟩

end Grows

/-- Whether all storage has the channels that new storage gets. -/
def ChannelsFit (w : World) : Prop := ∀ s n, w.channelsAt s = some n → n = max w.rule.channels 1

theorem ChannelsFit.of_grows {w w' : World} (h : w.ChannelsFit) (hgrows : Grows w w') :
    w'.ChannelsFit := by
  intro s n hs
  rw [hgrows.rule]
  rcases hgrows.channelsAt s n hs with hs | ⟨hn, -⟩
  · exact h s n hs
  · exact hn

/-! ## Seeding -/

theorem Grows.seed (w : World) (s : Section) : Grows w (w.seed s) :=
  seed_induction (fun u p hu => hu.trans (Grows.wake u p _)) (Grows.refl w) s

theorem channelsAt_seed_of_some {w : World} {a : Section} {n : Nat} (h : w.channelsAt a = some n)
    (s : Section) : (w.seed s).channelsAt a = some n :=
  seed_induction (motive := fun u => u.channelsAt a = some n)
    (fun _ p hu => channelsAt_wake_of_some hu p _) h s

theorem read_seed (w : World) (s : Section) (p : Cell) (slot : Nat) :
    (w.seed s).read p slot = w.read p slot :=
  seed_induction (motive := fun u => u.read p slot = w.read p slot)
    (fun u q hu => (read_wake u q _ p slot).trans hu) rfl s

theorem terrain_seed (w : World) (s : Section) : (w.seed s).terrain = w.terrain := by
  rw [seed_eq]

/-! ## Loading a section -/

/-- The world after the blocks of a loaded section have been taken from the terrain. -/
def refreshed (w : World) (s : Section) : World :=
  if w.sections.contains s then
    { w with sections := w.sections.modify s fun storage =>
        storage.setBlocks fun i => w.terrain.block (s.cell i) }
  else { w with sections := w.sections.insert s (w.newStorage s) }

theorem sectionLoaded_of_isLoaded {w : World} {s : Section} (h : w.terrain.isLoaded s = true) :
    w.sectionLoaded s = (w.refreshed s).seed s := by
  unfold sectionLoaded refreshed
  rw [h]
  rfl

theorem sectionLoaded_of_not_isLoaded {w : World} {s : Section}
    (h : w.terrain.isLoaded s = false) : w.sectionLoaded s = w := by
  unfold sectionLoaded
  rw [h]
  rfl

variable (w : World) (s : Section)

theorem refreshed_eq : w.refreshed s = { w with sections := (w.refreshed s).sections } := by
  unfold refreshed
  split <;> rfl

theorem find?_refreshed (a : Section) :
    (w.refreshed s).sections.find? a =
      if a = s then
        some ((w.sections.find? s).elim (w.newStorage s) fun storage =>
          storage.setBlocks fun i => w.terrain.block (s.cell i))
      else w.sections.find? a := by
  unfold refreshed
  cases hs : w.sections.find? s with
  | some storage =>
    rw [OrderedMap.contains, hs]
    show (w.sections.modify s _).find? a = _
    rw [OrderedMap.find?_modify, hs]
    rfl
  | none =>
    rw [OrderedMap.contains, hs]
    show (w.sections.insert s (w.newStorage s)).find? a = _
    rw [OrderedMap.find?_insert]
    rfl

theorem channelsAt_refreshed (a : Section) :
    (w.refreshed s).channelsAt a =
      if a = s then some ((w.channelsAt s).getD (max w.rule.channels 1)) else w.channelsAt a := by
  rw [channelsAt, find?_refreshed]
  by_cases ha : a = s
  · rw [if_pos ha, if_pos ha, channelsAt]
    cases w.sections.find? s with
    | some storage => simp [Storage.setBlocks, Storage.channels]
    | none => rw [Option.elim_none, Option.map_some, newStorage, Storage.channels_ofBlocks]; rfl
  · rw [if_neg ha, if_neg ha, channelsAt]

/-- After the refreshment the block of a cell is the one of the terrain. -/
theorem read_refreshed (p : Cell) (slot : Nat) :
    (w.refreshed s).read p slot =
      if p.home = s ∧ slot = 0 then w.terrain.block p else w.read p slot := by
  by_cases hp : p.home = s
  · subst hp
    have hs := find?_refreshed w p.home p.home
    rw [if_pos rfl] at hs
    rw [read_of_find? hs]
    cases hold : w.sections.find? p.home with
    | some storage =>
      rw [read_of_find? hold, Option.elim_some, Storage.read_setBlocks _ _ p.index_lt,
        p.home_cell_index]
      simp only [true_and]
    | none =>
      rw [read_of_channelsAt_eq_none (channelsAt_eq_none_iff.2 hold), Option.elim_none, newStorage,
        Storage.read_ofBlocks _ _ p.index_lt, p.home_cell_index]
      simp only [true_and]
      split <;> rfl
  · rw [if_neg fun h => hp h.1, refreshed_eq, read, read, readCell, readCell]
    simp only [find?_refreshed, if_neg hp]

end BlockAutomata.Engine.World
