/-
  The blocks of a palette divide the numbers among themselves.

  1. **Ranges.**  Each block begins where the one before it ends (`isChain_layout`), so the ranges
     of two blocks do not meet, and together they are all numbers below the size of the palette.

  2. **What is refused.**  The declarations are gone through once; this finds a property without
     values or a name that repeats just if there is one (`checkBlocks_eq_ok_iff`).  A block without
     such a property has a state (`size_pos_iff`), so no range of a palette is empty.

  3. Both together are `ranges_partition`: a list of blocks makes a palette unless something is
     wrong with it, and then every number below the size belongs to exactly one block, the one that
     is found for it.
-/
import BlockAutomata.Proofs.Palette.Layout
import Mathlib.Algebra.Group.Nat.Defs
import Mathlib.Data.Int.ConditionallyCompleteOrder
import Mathlib.Data.List.Chain
import Mathlib.Order.CompletePartialOrder
import Mathlib.Order.ConditionallyCompleteLattice.Basic

namespace BlockAutomata.Palette

/-- The numbers that a block owns. -/
def Entry.range (e : Entry) : Set Int := Set.Ico e.first (e.first + e.block.size)

theorem Entry.mem_range_iff {e : Entry} {n : Int} : n ∈ e.range ↔ 0 ≤ n ∧ e.Owns n.toNat := by
  unfold range Owns
  rw [Set.mem_Ico]
  omega

/-! ## Ranges -/

section

variable {blocks : List Block} {first : Nat} {e f : Entry}

theorem map_block_layout (first : Nat) (blocks : List Block) :
    (layout first blocks).map Entry.block = blocks := by
  induction blocks generalizing first with
  | nil => rfl
  | cons b rest ih => rw [layout, List.map_cons, ih]

/-- Each block begins where the one before it ends. -/
theorem isChain_layout (first : Nat) (blocks : List Block) :
    (layout first blocks).IsChain fun e f => f.first = e.first + e.block.size := by
  induction blocks generalizing first with
  | nil => exact .nil
  | cons b rest ih =>
    rw [layout]
    cases rest with
    | nil => exact .singleton _
    | cons c rest => exact .cons_cons rfl (ih _)

/-- The ranges of two blocks do not meet. -/
theorem pairwise_disjoint_layout (first : Nat) (blocks : List Block) :
    (layout first blocks).Pairwise fun e f => Disjoint e.range f.range := by
  induction blocks generalizing first with
  | nil => exact .nil
  | cons b rest ih =>
    refine .cons (fun f hf => ?_) (ih _)
    -- all later blocks begin after the first one has ended
    have hafter := (bounds_of_mem_layout hf).1
    refine Set.disjoint_left.2 fun n hn hn' => ?_
    have hbefore := hn.2
    have hsince := hn'.1
    dsimp only at hbefore
    omega

/-- Together the blocks own all numbers below the size of the palette. -/
theorem iUnion_range (blocks : List Block) :
    ⋃ e ∈ (assign blocks).entries, e.range = Set.Ico 0 ((assign blocks).size : Int) := by
  ext n
  rw [Set.mem_iUnion₂, size_assign, Set.mem_Ico]
  constructor
  · rintro ⟨e, he, hn⟩
    obtain ⟨hlow, -, hhigh⟩ := Entry.mem_range_iff.1 hn
    have hbound := (bounds_of_mem_layout he).2
    omega
  · rintro ⟨hlow, hhigh⟩
    obtain ⟨e, he, -, howns⟩ := exists_owns (Nat.zero_le n.toNat)
      (show n.toNat < 0 + total blocks by omega)
    exact ⟨e, he, Entry.mem_range_iff.2 ⟨hlow, howns⟩⟩

/-- The owner of a number is the only block in whose range it lies. -/
theorem mem_range_iff_eq_owner {s : Int64} (h : (assign blocks).owner? s = some e)
    (hf : f ∈ (assign blocks).entries) : s.toInt ∈ f.range ↔ f = e := by
  obtain ⟨hs, he, howns⟩ := owner?_eq_some_iff.1 h
  rw [Entry.mem_range_iff]
  constructor
  · exact fun hn => Owns.unique hf he hn.2 howns
  · rintro rfl
    exact ⟨hs, howns⟩

end

/-! ## What is refused -/

/-- A block has a state unless some property of it has no values. -/
theorem size_pos_iff {b : Block} : 0 < b.size ↔ ∀ prop ∈ b.properties, prop.values ≠ [] := by
  unfold Block.size
  induction b.properties with
  | nil => simp [choices]
  | cons prop rest ih =>
    rw [List.forall_mem_cons, ← ih, choices, Nat.pos_iff_ne_zero, Nat.mul_ne_zero_iff,
      ← Nat.pos_iff_ne_zero (n := choices rest), Ne, List.length_eq_zero_iff]

/-- The declarations are in order if every property has values and no name repeats, nor is one of
    those met before. -/
theorem checkBlocks_eq_ok_iff {seen : List String} {blocks : List Block} :
    checkBlocks seen blocks = .ok () ↔
      (∀ b ∈ blocks, ∀ prop ∈ b.properties, prop.values ≠ []) ∧
        (blocks.map Block.name).Nodup ∧ ∀ b ∈ blocks, b.name ∉ seen := by
  induction blocks generalizing seen with
  | nil => simp [checkBlocks]
  | cons b rest ih =>
    rw [checkBlocks, List.forall_mem_cons, List.map_cons, List.nodup_cons, List.forall_mem_cons]
    cases hempty : b.properties.find? fun prop => prop.values.isEmpty with
    | some prop =>
      -- a property without values is refused at once
      have hvalues := List.find?_some hempty
      rw [List.isEmpty_iff] at hvalues
      refine ⟨nofun, fun h => ?_⟩
      exact absurd hvalues (h.1.1 prop (List.mem_of_find?_eq_some hempty))
    | none =>
      have hvalues : ∀ prop ∈ b.properties, prop.values ≠ [] := by
        simpa using hempty
      dsimp only
      split
      · rename_i hseen
        exact ⟨nofun, fun h => absurd hseen h.2.2.1⟩
      · rename_i hseen
        -- the rest must not repeat this name either
        rw [ih]
        simp only [List.mem_cons, not_or, List.mem_map, not_exists, not_and]
        constructor
        · rintro ⟨hrest, hnodup, hnew⟩
          exact ⟨⟨hvalues, hrest⟩, ⟨fun c hc => (hnew c hc).1, hnodup⟩, hseen,
            fun c hc => (hnew c hc).2⟩
        · rintro ⟨⟨-, hrest⟩, ⟨hfirst, hnodup⟩, -, hnew⟩
          exact ⟨hrest, hnodup, fun c hc => ⟨hfirst c hc, hnew c hc⟩⟩

/-- The first block is air in a single state. -/
def StartsWithAir (blocks : List Block) : Prop :=
  ∃ b ∈ blocks.head?, b.name = "air" ∧ b.size = 1

theorem checkAir_eq_ok_iff {blocks : List Block} :
    checkAir blocks = .ok () ↔ StartsWithAir blocks := by
  cases blocks with
  | nil => simp [checkAir, StartsWithAir]
  | cons b rest =>
    have hhead : StartsWithAir (b :: rest) ↔ b.name = "air" ∧ b.size = 1 := by
      simp [StartsWithAir]
    rw [hhead, checkAir]
    split
    · rename_i hair
      exact ⟨fun _ => hair, fun _ => rfl⟩
    · rename_i hair
      exact ⟨nofun, fun h => absurd h hair⟩

/-- Blocks make a palette if they start with air, every property has values and no name repeats. -/
theorem exists_ofBlocks_eq_ok_iff {blocks : List Block} :
    (∃ p, ofBlocks blocks = .ok p) ↔
      StartsWithAir blocks ∧ (∀ b ∈ blocks, ∀ prop ∈ b.properties, prop.values ≠ []) ∧
        (blocks.map Block.name).Nodup := by
  have hchecks : (∃ p, ofBlocks blocks = .ok p) ↔
      checkAir blocks = .ok () ∧ checkBlocks [] blocks = .ok () := by
    unfold ofBlocks
    cases checkAir blocks with
    | error e => simp [bind, Except.bind]
    | ok _ =>
      cases checkBlocks [] blocks with
      | error e => simp [bind, Except.bind]
      | ok _ => simp [bind, Except.bind, pure, Except.pure]
  rw [hchecks, checkAir_eq_ok_iff, checkBlocks_eq_ok_iff]
  simp only [List.not_mem_nil, not_false_eq_true, implies_true, and_true]

/-- What can be wrong with blocks that make no palette. -/
theorem exists_ofBlocks_eq_error_iff {blocks : List Block} :
    (∃ error, ofBlocks blocks = .error error) ↔
      blocks = [] ∨ (∃ b ∈ blocks.head?, ¬ (b.name = "air" ∧ b.size = 1)) ∨
        (∃ b ∈ blocks, ∃ prop ∈ b.properties, prop.values = []) ∨
          ¬ (blocks.map Block.name).Nodup := by
  have hfails : (∃ error, ofBlocks blocks = .error error) ↔ ¬ ∃ p, ofBlocks blocks = .ok p := by
    cases ofBlocks blocks <;> simp
  have hair : ¬ StartsWithAir blocks ↔
      blocks = [] ∨ ∃ b ∈ blocks.head?, ¬ (b.name = "air" ∧ b.size = 1) := by
    cases blocks <;> simp [StartsWithAir]
  rw [hfails, exists_ofBlocks_eq_ok_iff, not_and_or, not_and_or, hair, or_assoc]
  simp only [not_forall, exists_prop, not_not]

/-! ## Partitions -/

/-- The blocks divide the numbers below the size of the palette among themselves. -/
structure IsPartition (p : Palette) (blocks : List Block) : Prop where
  inOrder : p.entries.map Entry.block = blocks
  consecutive : p.entries.IsChain fun e f => f.first = e.first + e.block.size
  nonempty : ∀ e ∈ p.entries, e.range.Nonempty
  disjoint : p.entries.Pairwise fun e f => Disjoint e.range f.range
  union : ⋃ e ∈ p.entries, e.range = Set.Ico 0 (p.size : Int)
  air : ∃ e ∈ p.entries.head?, e.block.name = "air" ∧ e.range = {0}

theorem isPartition_of_ofBlocks {blocks : List Block} {p : Palette}
    (h : ofBlocks blocks = .ok p) : p.IsPartition blocks := by
  obtain ⟨⟨b, hb, hname, hsize⟩, hvalues, -⟩ := exists_ofBlocks_eq_ok_iff.1 ⟨p, h⟩
  obtain rfl := eq_of_ofBlocks h
  refine ⟨map_block_layout 0 blocks, isChain_layout 0 blocks, fun e he => ?_,
    pairwise_disjoint_layout 0 blocks, iUnion_range blocks, ?_⟩
  · have hmem : e.block ∈ blocks := by
      rw [← map_block_layout 0 blocks]
      exact List.mem_map_of_mem he
    have hpos := size_pos_iff.2 (hvalues e.block hmem)
    exact ⟨e.first, le_refl _, by omega⟩
  · cases blocks with
    | nil => cases hb
    | cons c rest =>
      obtain rfl := Option.some.inj hb
      refine ⟨⟨c, 0⟩, rfl, hname, ?_⟩
      ext n
      rw [Entry.range, hsize, Set.mem_Ico, Set.mem_singleton_iff]
      dsimp only
      omega

/-- Blocks that are accepted own consecutive, non-empty ranges of numbers in the order of their
    declaration.  The ranges do not meet and together are all numbers below the size, of which air
    has just 0.  As long as the size is one of 64 bits, every such number is a state; the block of a
    state is the only one in whose range it lies, and other numbers have none.  Blocks are refused
    just if there are none, the first is not air in a single state, some property has no values, or
    a name repeats. -/
theorem ranges_partition (blocks : List Block) :
    (∀ p, ofBlocks blocks = .ok p → p.size < 2 ^ 63 →
      p.IsPartition blocks ∧
        (∀ n ∈ Set.Ico 0 (p.size : Int), ∃ s : Int64, s.toInt = n) ∧
        ∀ s : Int64,
          (s.toInt ∈ Set.Ico 0 (p.size : Int) → ∃ e ∈ p.entries, p.block? s = some e.block ∧
            ∀ f ∈ p.entries, s.toInt ∈ f.range ↔ f = e) ∧
          (s.toInt ∉ Set.Ico 0 (p.size : Int) → p.block? s = none)) ∧
      ((∃ error, ofBlocks blocks = .error error) ↔
        blocks = [] ∨ (∃ b ∈ blocks.head?, ¬ (b.name = "air" ∧ b.size = 1)) ∨
          (∃ b ∈ blocks, ∃ prop ∈ b.properties, prop.values = []) ∨
            ¬ (blocks.map Block.name).Nodup) := by
  refine ⟨fun p h hfits => ⟨isPartition_of_ofBlocks h, fun n hn => ?_, fun s => ⟨?_, ?_⟩⟩,
    exists_ofBlocks_eq_error_iff⟩
  · have hlow := hn.1
    have hhigh := hn.2
    exact ⟨Int64.ofInt n, Int64.toInt_ofInt_of_le (by omega) (by omega)⟩
  · intro hs
    obtain rfl := eq_of_ofBlocks h
    cases howner : (assign blocks).owner? s with
    | none => exact absurd hs (owner?_eq_none_iff.1 howner)
    | some e =>
      obtain ⟨-, he, -⟩ := owner?_eq_some_iff.1 howner
      exact ⟨e, he, by rw [block?, howner]; rfl, fun f hf => mem_range_iff_eq_owner howner hf⟩
  · intro hs
    obtain rfl := eq_of_ofBlocks h
    rw [block?, owner?_eq_none_iff.2 hs]
    rfl

/-- Still air, a lamp that is lit or not, and a rock. -/
def lampAndRock : List Block :=
  [⟨"air", [⟨"kind", ["still"]⟩]⟩, ⟨"lamp", [⟨"lit", ["no", "yes"]⟩]⟩, ⟨"rock", []⟩]

/-- The lit lamp is state 2, the rock state 3, and there is no state 4. -/
theorem ranges_partition_lampAndRock :
    ∃ p, ofBlocks lampAndRock = .ok p ∧ p.size < 2 ^ 63 ∧ p.size = 4 ∧
      p.IsPartition lampAndRock ∧ p.name? 2 = some "lamp" ∧ p.name? 3 = some "rock" ∧
      p.block? 4 = none := by
  have hp : ofBlocks lampAndRock = .ok (assign lampAndRock) := by rfl
  obtain ⟨hpartition, -, hblocks⟩ := (ranges_partition lampAndRock).1 _ hp (by decide)
  exact ⟨_, hp, by decide, by decide, hpartition, by decide, by decide, (hblocks 4).2 (by decide)⟩

end BlockAutomata.Palette
