/-
  Which block owns a number.

  1. The blocks of a palette own consecutive ranges of numbers, from 0 to the size of the palette,
     so every number below the size is owned by just one of them (`exists_owns`, `Owns.unique`).

  2. `owner?` finds it (`owner?_eq_some_iff`).

  3. A state is thus known by its block and its place among the states of this block (`IsNth`).
-/
import BlockAutomata.Palette

namespace BlockAutomata.Palette

/-- A number is one of those that a block of the palette owns. -/
def Entry.Owns (e : Entry) (n : Nat) : Prop := e.first ≤ n ∧ n < e.first + e.block.size

/-- How many numbers the blocks own. -/
def total (blocks : List Block) : Nat := blocks.foldr (fun b n => b.size + n) 0

theorem total_cons (b : Block) (rest : List Block) : total (b :: rest) = b.size + total rest := rfl

theorem size_assign (blocks : List Block) : (assign blocks).size = total blocks := rfl

/-- The palette that is made of blocks, if it can be made at all. -/
theorem eq_of_ofBlocks {blocks : List Block} {p : Palette} (h : ofBlocks blocks = .ok p) :
    p = assign blocks := by
  unfold ofBlocks at h
  cases hair : checkAir blocks with
  | error e => rw [hair] at h; cases h
  | ok _ =>
    cases hcheck : checkBlocks [] blocks with
    | error e => rw [hair, hcheck] at h; cases h
    | ok _ =>
      rw [hair, hcheck] at h
      exact (Except.ok.inj h).symm

/-! ## Ranges -/

section

variable {blocks : List Block} {first n : Nat} {e f : Entry}

/-- All ranges lie within that of the whole palette. -/
theorem bounds_of_mem_layout (h : e ∈ layout first blocks) :
    first ≤ e.first ∧ e.first + e.block.size ≤ first + total blocks := by
  induction blocks generalizing first with
  | nil => cases h
  | cons b rest ih =>
    rw [total_cons]
    rcases List.mem_cons.1 h with rfl | h
    · dsimp only
      omega
    · have hrest := ih h
      omega

/-- Ranges do not meet. -/
theorem Owns.unique (he : e ∈ layout first blocks) (hf : f ∈ layout first blocks)
    (hen : e.Owns n) (hfn : f.Owns n) : e = f := by
  obtain ⟨helow, hehigh⟩ := hen
  obtain ⟨hflow, hfhigh⟩ := hfn
  induction blocks generalizing first with
  | nil => cases he
  | cons b rest ih =>
    rcases List.mem_cons.1 he with rfl | he <;> rcases List.mem_cons.1 hf with rfl | hf
    · rfl
    · have hafter := (bounds_of_mem_layout hf).1
      dsimp only at hehigh
      omega
    · have hafter := (bounds_of_mem_layout he).1
      dsimp only at hfhigh
      omega
    · exact ih he hf

theorem lastStarting?_of_lt (h : n < first) : lastStarting? n (layout first blocks) = none := by
  cases blocks with
  | nil => rfl
  | cons b rest => exact if_neg (Nat.not_le.2 h)

/-- A number within the palette is owned by the last block that begins at or before it. -/
theorem exists_owns (hlow : first ≤ n) (hhigh : n < first + total blocks) :
    ∃ e ∈ layout first blocks, lastStarting? n (layout first blocks) = some e ∧ e.Owns n := by
  induction blocks generalizing first with
  | nil => exact absurd hhigh (Nat.not_lt.2 hlow)
  | cons b rest ih =>
    rw [total_cons] at hhigh
    rw [layout, lastStarting?, if_pos hlow]
    -- the first block owns the number, and then no later one begins before it, or a later one does
    rcases Nat.lt_or_ge n (first + b.size) with hn | hn
    · rw [lastStarting?_of_lt hn]
      exact ⟨_, List.mem_cons_self, rfl, hlow, hn⟩
    · obtain ⟨e, he, hlast, howns⟩ := ih hn (by omega)
      rw [hlast]
      exact ⟨e, List.mem_cons_of_mem _ he, rfl, howns⟩

end

/-! ## Owners -/

section

variable {blocks : List Block} {s t : Int64} {e : Entry} {n : Nat}

/-- The owner of a state is the block in whose range it lies. -/
theorem owner?_eq_some_iff :
    (assign blocks).owner? s = some e ↔
      0 ≤ s.toInt ∧ e ∈ (assign blocks).entries ∧ e.Owns s.toInt.toNat := by
  unfold owner?
  rw [size_assign]
  constructor
  · intro h
    split at h
    · rename_i hs
      obtain ⟨f, hf, hlast, howns⟩ := exists_owns (Nat.zero_le s.toInt.toNat)
        (show _ < 0 + total blocks by omega)
      obtain rfl := Option.some.inj (hlast.symm.trans h)
      exact ⟨hs.1, hf, howns⟩
    · cases h
  · rintro ⟨hs, he, howns⟩
    have hbound := (bounds_of_mem_layout he).2
    have hhigh := howns.2
    obtain ⟨f, hf, hlast, howns'⟩ := exists_owns (Nat.zero_le s.toInt.toNat)
      (show _ < 0 + total blocks by omega)
    rw [if_pos ⟨hs, by omega⟩, Owns.unique he hf howns howns']
    exact hlast

theorem owner?_eq_none_iff :
    (assign blocks).owner? s = none ↔ ¬ (0 ≤ s.toInt ∧ s.toInt < (assign blocks).size) := by
  unfold owner?
  rw [size_assign]
  constructor
  · intro h hs
    obtain ⟨f, hf, hlast, -⟩ := exists_owns (Nat.zero_le s.toInt.toNat)
      (show _ < 0 + total blocks by omega)
    have hlast : lastStarting? s.toInt.toNat (assign blocks).entries = some f := hlast
    rw [if_pos hs, hlast] at h
    cases h
  · exact fun hs => if_neg hs

/-- A state is the n-th of a block of the palette. -/
def IsNth (p : Palette) (s : Int64) (e : Entry) (n : Nat) : Prop :=
  e ∈ p.entries ∧ n < e.block.size ∧ s.toInt = e.first + n

theorem exists_isNth (h : (assign blocks).owner? s = some e) :
    ∃ n, (assign blocks).IsNth s e n := by
  obtain ⟨hs, he, hlow, hhigh⟩ := owner?_eq_some_iff.1 h
  exact ⟨s.toInt.toNat - e.first, he, by omega, by omega⟩

theorem IsNth.owner? (h : (assign blocks).IsNth s e n) : (assign blocks).owner? s = some e := by
  obtain ⟨he, hn, hs⟩ := h
  exact owner?_eq_some_iff.2 ⟨by omega, he, by omega, by omega⟩

theorem IsNth.block? (h : (assign blocks).IsNth s e n) :
    (assign blocks).block? s = some e.block := by
  rw [Palette.block?, h.owner?]
  rfl

theorem IsNth.inRange (h : (assign blocks).IsNth s e n) :
    0 ≤ s.toInt ∧ s.toInt < (assign blocks).size := by
  obtain ⟨he, hn, hs⟩ := h
  have hbound := (bounds_of_mem_layout he).2
  rw [size_assign]
  omega

/-- The place within the block. -/
theorem IsNth.toNat_sub_first (h : (assign blocks).IsNth s e n) :
    s.toInt.toNat - e.first = n := by
  have hs := h.2.2
  omega

/-- The state with this place is the only one. -/
theorem IsNth.eq (hs : (assign blocks).IsNth s e n) (ht : (assign blocks).IsNth t e n) : s = t :=
  Int64.toInt_inj.1 (hs.2.2.trans ht.2.2.symm)

end

end BlockAutomata.Palette
