/-
  Cells, sections and the cube around a cell.

  1. A coordinate is sixteen times its section part plus its cell part, also where the product wraps
     around.  So every cell is found again at its index in its section (`home_cell_index`), and the
     other way round in every section that is the home of some cell (`home_cell`, `index_cell`).

  2. The homes of cells are the sections whose positions have 28 bits (`inWorld_iff`): in them the
     way from a section and an index to the cell does not overflow.  With 1 this is a bijection
     (`addressed_exactly_once`).

  3. The cube of 27 offsets holds exactly the offsets of norm at most 1, and with each offset the
     one that leads back.  Norms add up at most, since wrapping around only brings things closer.
-/
import BlockAutomata.Neighborhood

namespace BlockAutomata

/-! ## Coordinates -/

/-- A coordinate is put together from its section part and its cell part. -/
theorem sectionPart_mul_add_cellPart (v : Int32) :
    sectionPart v * 16 + Int32.ofInt (cellPart v) = v := by
  have hc : ((cellPart v : Nat) : Int) = v.toInt % 16 := by unfold cellPart; omega
  have h16 : (16 : Int32) = Int32.ofInt 16 := rfl
  rw [sectionPart, hc, h16, ← Int32.ofInt_mul, ← Int32.ofInt_add, Int.ediv_mul_add_emod,
    Int32.ofInt_toInt]

theorem toInt_sectionPart (v : Int32) : (sectionPart v).toInt = v.toInt / 16 := by
  have h₁ := v.le_toInt
  have h₂ := v.toInt_lt
  exact Int32.toInt_ofInt_of_le (by omega) (by omega)

/-- Nothing overflows when a coordinate is put together from the section part of another one. -/
theorem toInt_sectionPart_mul_add (v : Int32) {k : Nat} (hk : k < 16) :
    (sectionPart v * 16 + Int32.ofInt k).toInt = v.toInt / 16 * 16 + k := by
  have h₁ := v.le_toInt
  have h₂ := v.toInt_lt
  have h16 : (16 : Int32) = Int32.ofInt 16 := rfl
  rw [sectionPart, h16, ← Int32.ofInt_mul, ← Int32.ofInt_add]
  exact Int32.toInt_ofInt_of_le (by omega) (by omega)

theorem sectionPart_mul_add (v : Int32) {k : Nat} (hk : k < 16) :
    sectionPart (sectionPart v * 16 + Int32.ofInt k) = sectionPart v := by
  apply Int32.toInt_inj.1
  rw [toInt_sectionPart, toInt_sectionPart_mul_add v hk, toInt_sectionPart]
  omega

theorem cellPart_mul_add (v : Int32) {k : Nat} (hk : k < 16) :
    cellPart (sectionPart v * 16 + Int32.ofInt k) = k := by
  rw [cellPart, toInt_sectionPart_mul_add v hk]
  omega

/-! ## Cells of a section -/

/-- The offset of an index below the volume, axis by axis. -/
theorem Offset.ofIndex_eq {i : Nat} (hi : i < sectionVolume) :
    Offset.ofIndex i =
      ⟨Int32.ofInt (i % 16 : Nat), Int32.ofInt (i / 256 : Nat),
        Int32.ofInt (i / 16 % 16 : Nat)⟩ := by
  unfold sectionVolume at hi
  rw [Offset.ofIndex, Int32.toInt_ofNat_of_lt (by omega)]
  rfl

/-- The offset of a cell from the corner of its section. -/
theorem Offset.ofIndex_index (p : Cell) :
    Offset.ofIndex p.index =
      ⟨Int32.ofInt (cellPart p.x), Int32.ofInt (cellPart p.y), Int32.ofInt (cellPart p.z)⟩ := by
  have hx := cellPart_lt p.x
  have hy := cellPart_lt p.y
  have hz := cellPart_lt p.z
  have hix : p.index % 16 = cellPart p.x := by unfold Cell.index; omega
  have hiy : p.index / 256 = cellPart p.y := by unfold Cell.index; omega
  have hiz : p.index / 16 % 16 = cellPart p.z := by unfold Cell.index; omega
  rw [Offset.ofIndex_eq p.index_lt, hix, hiy, hiz]

/-- Every cell is the cell of its home at its index. -/
theorem Cell.home_cell_index (p : Cell) : p.home.cell p.index = p := by
  rw [Section.cell, Offset.ofIndex_index]
  simp only [Cell.home, sectionPart_mul_add_cellPart]

/-- The cell at an index of a cell's home has this home. -/
theorem Cell.home_cell (p : Cell) {i : Nat} (hi : i < sectionVolume) :
    (p.home.cell i).home = p.home := by
  rw [Section.cell, Offset.ofIndex_eq hi]
  unfold sectionVolume at hi
  simp only [Cell.home]
  rw [sectionPart_mul_add p.x (by omega), sectionPart_mul_add p.y (by omega),
    sectionPart_mul_add p.z (by omega)]

/-- The cell at an index of a cell's home has this index. -/
theorem Cell.index_cell (p : Cell) {i : Nat} (hi : i < sectionVolume) :
    (p.home.cell i).index = i := by
  rw [Section.cell, Offset.ofIndex_eq hi]
  unfold sectionVolume at hi
  simp only [Cell.home, Cell.index]
  rw [cellPart_mul_add p.x (by omega), cellPart_mul_add p.y (by omega),
    cellPart_mul_add p.z (by omega)]
  omega

/-- Cells are known by their section and index. -/
theorem Cell.eq_of_home_of_index {p q : Cell} (hh : p.home = q.home) (hi : p.index = q.index) :
    p = q := by
  rw [← p.home_cell_index, hh, hi, q.home_cell_index]

/-! ## Sections of the world -/

/-- The number has 28 bits, counting the sign: sixteen times it has 32. -/
def CountsSections (v : Int32) : Prop := -0x8000000 ≤ v.toInt ∧ v.toInt < 0x8000000

instance (v : Int32) : Decidable (CountsSections v) := inferInstanceAs (Decidable (_ ∧ _))

/-- The section holds cells of the world, all of them with coordinates of 32 bits. -/
def Section.InWorld (s : Section) : Prop :=
  CountsSections s.x ∧ CountsSections s.y ∧ CountsSections s.z

instance (s : Section) : Decidable s.InWorld := inferInstanceAs (Decidable (_ ∧ _))

theorem countsSections_sectionPart (v : Int32) : CountsSections (sectionPart v) := by
  have h₁ := v.le_toInt
  have h₂ := v.toInt_lt
  rw [CountsSections, toInt_sectionPart]
  omega

theorem sectionPart_mul_sixteen {w : Int32} (h : CountsSections w) : sectionPart (w * 16) = w := by
  obtain ⟨hlow, hhigh⟩ := h
  have h16 : (16 : Int32).toInt = 16 := by decide
  have hmul : (w * 16).toInt = w.toInt * 16 := by
    rw [Int32.toInt_mul, h16]
    exact Int.bmod_eq_of_le (by omega) (by omega)
  apply Int32.toInt_inj.1
  rw [toInt_sectionPart, hmul]
  omega

/-- A section of the world is the home of its corner. -/
theorem Section.home_corner {s : Section} (h : s.InWorld) : s.corner.home = s := by
  obtain ⟨hx, hy, hz⟩ := h
  have hzero : Offset.ofIndex 0 = Offset.zero := by decide
  rw [corner, cell, hzero, Cell.home]
  simp only [Offset.zero, Int32.add_zero, sectionPart_mul_sixteen hx, sectionPart_mul_sixteen hy,
    sectionPart_mul_sixteen hz]

/-- The sections of the world are the homes of cells. -/
theorem Section.inWorld_iff {s : Section} : s.InWorld ↔ ∃ p : Cell, p.home = s := by
  constructor
  · intro h
    exact ⟨s.corner, home_corner h⟩
  · rintro ⟨p, rfl⟩
    exact ⟨countsSections_sectionPart p.x, countsSections_sectionPart p.y,
      countsSections_sectionPart p.z⟩

/-! ## Displacements -/

theorem Cell.move_zero (p : Cell) : p.move Offset.zero = p := by
  simp [Cell.move, Offset.zero]

theorem Cell.move_move_neg (p : Cell) (o : Offset) : (p.move o).move (-o) = p := by
  simp [Cell.move, Offset.neg_def, Int32.add_assoc, Int32.add_right_neg]

theorem Cell.move_neg_move (p : Cell) (o : Offset) : (p.move (-o)).move o = p := by
  simp [Cell.move, Offset.neg_def, Int32.add_assoc, Int32.add_left_neg]

/-- Only the zero displacement leaves a cell where it is. -/
theorem Cell.move_eq_self_iff {p : Cell} {o : Offset} : p.move o = p ↔ o = Offset.zero := by
  obtain ⟨px, py, pz⟩ := p
  obtain ⟨ox, oy, oz⟩ := o
  simp only [move, Offset.zero, Cell.mk.injEq, Offset.mk.injEq, Int32.add_eq_left]

/-- Cells and the pairs of a section of the world and an index below the volume stand for each
    other.  So a displacement that leads anywhere else never leads to the same place in the same
    section. -/
theorem Cell.addressed_exactly_once :
    (∀ p : Cell, p.index < 4096 ∧ p.home.cell p.index = p) ∧
    (∀ s : Section, s.InWorld → ∀ i < 4096, (s.cell i).home = s ∧ (s.cell i).index = i) ∧
    ∀ (p : Cell) (o : Offset),
      ((p.move o).home, (p.move o).index) = (p.home, p.index) ↔ o = Offset.zero := by
  refine ⟨fun p => ⟨p.index_lt, p.home_cell_index⟩, fun s hs i hi => ?_, fun p o => ?_⟩
  · obtain ⟨p, rfl⟩ := Section.inWorld_iff.1 hs
    exact ⟨p.home_cell hi, p.index_cell hi⟩
  · rw [Prod.mk.injEq, ← Cell.move_eq_self_iff (p := p)]
    constructor
    · rintro ⟨hhome, hindex⟩
      exact Cell.eq_of_home_of_index hhome hindex
    · intro h
      rw [h]
      exact ⟨rfl, rfl⟩

/-- The last cell of a section at both ends of the world. -/
theorem Cell.addressed_exactly_once_corner :
    Section.InWorld ⟨-0x8000000, 0x7ffffff, 0⟩ ∧
      (Section.cell ⟨-0x8000000, 0x7ffffff, 0⟩ 4095).home = ⟨-0x8000000, 0x7ffffff, 0⟩ ∧
      (Section.cell ⟨-0x8000000, 0x7ffffff, 0⟩ 4095).index = 4095 := by
  have hworld : Section.InWorld ⟨-0x8000000, 0x7ffffff, 0⟩ := by decide
  exact ⟨hworld, Cell.addressed_exactly_once.2.1 _ hworld 4095 (by decide)⟩

theorem Offset.norm_neg (o : Offset) : (-o).norm = o.norm := by
  have hneg : ∀ v : Int32, (-v).toInt.natAbs = v.toInt.natAbs := by
    intro v
    have h₁ := v.le_toInt
    have h₂ := v.toInt_lt
    -- the least number is its own negative
    rw [Int32.toInt_neg, Int.bmod_def]
    omega
  simp only [Offset.norm, Offset.neg_def, hneg]

/-- Displacements that follow each other lead no further than their norms add up to. -/
theorem Offset.norm_add_le (o p : Offset) : (o + p).norm ≤ o.norm + p.norm := by
  have hadd : ∀ v w : Int32, (v + w).toInt.natAbs ≤ v.toInt.natAbs + w.toInt.natAbs := by
    intro v w
    have h₁ := v.le_toInt
    have h₂ := v.toInt_lt
    have h₃ := w.le_toInt
    have h₄ := w.toInt_lt
    -- a sum that wraps around ends up closer to 0 than it would have been
    rw [Int32.toInt_add, Int.bmod_def]
    omega
  have hx := hadd o.x p.x
  have hy := hadd o.y p.y
  have hz := hadd o.z p.z
  simp only [Offset.norm, Offset.add_def]
  omega

/-- A coordinate of size at most 1 is one of three. -/
theorem natAbs_toInt_le_one_iff {v : Int32} : v.toInt.natAbs ≤ 1 ↔ v = -1 ∨ v = 0 ∨ v = 1 := by
  have hm : (-1 : Int32).toInt = -1 := by decide
  have h₀ : (0 : Int32).toInt = 0 := by decide
  have h₁ : (1 : Int32).toInt = 1 := by decide
  rw [← Int32.toInt_inj, ← Int32.toInt_inj, ← Int32.toInt_inj, hm, h₀, h₁]
  omega

/-- The cube holds exactly the offsets of norm at most 1. -/
theorem Neighborhood.mem_moore3dSelf_iff {o : Offset} :
    o ∈ Neighborhood.moore3dSelf ↔ o.norm ≤ 1 := by
  obtain ⟨x, y, z⟩ := o
  rw [Offset.norm, Nat.max_le, Nat.max_le, natAbs_toInt_le_one_iff, natAbs_toInt_le_one_iff,
    natAbs_toInt_le_one_iff]
  constructor
  · intro h
    have hall : ∀ o ∈ Neighborhood.moore3dSelf,
        ((o.x = -1 ∨ o.x = 0 ∨ o.x = 1) ∧ (o.y = -1 ∨ o.y = 0 ∨ o.y = 1)) ∧
          (o.z = -1 ∨ o.z = 0 ∨ o.z = 1) := by decide
    exact hall _ h
  · rintro ⟨⟨rfl | rfl | rfl, rfl | rfl | rfl⟩, rfl | rfl | rfl⟩ <;> decide

end BlockAutomata
