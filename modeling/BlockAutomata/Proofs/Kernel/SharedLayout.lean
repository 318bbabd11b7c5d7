/-
  One layout of the cube around a cell.

  The displacements of a cube are put in a row three times over: in the list by which loops number
  their neighbours, in the flattened form of a window, and in the blocks from which a machine reads.

  1. A machine computes places by itself, and finds those that windows have (`Machine.block_eq`).
     So a machine that holds the flattened blocks of a window reads from them what the window
     shows, cut down to 32 bits, whatever list of displacements it holds besides
     (`Machine.block_blocks`).

  2. The list has at every place the displacement that stands there in the window.  So all three
     agree on all windows whose volume is a number of 32 bits (`windows_laid_out_alike`).

  3. What is written inside the cube is read there and shows nowhere else.  A write outside the cube
     is not read there: it does nothing (`exists_write_without_trace`).
-/
import BlockAutomata.Kernel.Machine
import BlockAutomata.Proofs.Windows

namespace BlockAutomata.Kernel

/-- The machine reads the entry that stands where a window has the displacement. -/
theorem Machine.block_eq (m : Machine) (o : Offset) :
    m.block o =
      ((Window.indexOf? m.radius o).bind fun i => m.blocks[i]?.map Int64.toInt32).getD 0 := by
  have hside : Int32.ofNat (windowSide m.radius) = 2 * Int32.ofNat m.radius + 1 := by
    rw [windowSide, Int32.ofNat_add, Int32.ofNat_mul]
    rfl
  unfold block Window.indexOf?
  by_cases hnorm : o.norm ≤ m.radius
  · rw [if_neg (Nat.not_lt.2 hnorm), if_pos hnorm, hside]
    rfl
  · rw [if_pos (Nat.lt_of_not_le hnorm), if_neg hnorm]
    rfl

/-- The machine reads the word of the block that the window shows. -/
theorem Machine.block_blocks (w : Window) (offsets : Array Offset) (o : Offset) :
    (Machine.mk w.radius offsets w.blocks.toArray).block o = (w.read o 0).toInt32 := by
  have hpos := w.planes_pos
  have hplane : w.planes[0]? = some w.planes[0] := Array.getElem?_eq_getElem hpos
  have hblocks : ∀ i : Nat, w.blocks.toArray[i]? = w.planes[0][i]? := by
    intro i
    rw [List.getElem?_toArray]
    exact Vector.getElem?_toList
  rw [block_eq, Window.read_eq, hplane, Window.position?]
  cases Window.indexOf? w.radius o with
  | none => rfl
  | some i =>
    simp only [hblocks, Option.bind_some]
    cases w.planes[0][i]? <;> rfl

/-- The list of displacements, the flattened window and the machine lay out the cube alike, every
    displacement of the cube once and no other.  What is written inside the cube, in a channel of
    the window, is read there, and no write shows anywhere else. -/
theorem windows_laid_out_alike (w : Window) (hsize : windowVolume w.radius < 0x80000000) :
    (∀ (i : Nat) (o : Offset),
      ((windowOffsets w.radius)[i]? = some o ↔ w.position? o = some i) ∧
      (w.position? o = some i → o.norm ≤ w.radius)) ∧
    (∀ o : Offset, (windowOffsets w.radius).count o = if o.norm ≤ w.radius then 1 else 0) ∧
    (∀ (offsets : Array Offset) (o : Offset),
      (Machine.mk w.radius offsets w.blocks.toArray).block o = (w.read o 0).toInt32 ∧
      (w.radius < o.norm → w.read o 0 = 0)) ∧
    ∀ (o : Offset) (slot : Nat) (v : Int64),
      (o.norm ≤ w.radius → slot < w.channels → (w.set o slot v).read o slot = v) ∧
      (w.radius < o.norm → w.set o slot v = w) ∧
      ∀ (p : Offset) (k : Nat), (p, k) ≠ (o, slot) → (w.set o slot v).read p k = w.read p k := by
  have hr := Window.radius_lt_of_volume_lt hsize
  refine ⟨fun i o => ⟨?_, fun hi => ?_⟩, Window.count_windowOffsets hr, fun offsets o => ?_,
    fun o slot v => ?_⟩
  · rw [w.position?_eq_place?]
    exact Window.getElem?_windowOffsets_iff hr
  · exact Window.exists_position?_iff.1 ⟨i, hi⟩
  · exact ⟨Machine.block_blocks w offsets o, fun hlt => Window.read_of_lt_norm hlt 0⟩
  · exact ⟨fun hnorm hslot => Window.read_set_self hnorm hslot v,
      fun hlt => Window.set_of_lt_norm hlt slot v, fun p k hne => Window.read_set_of_ne hne v⟩

/-- A value of more than 32 bits, written to a face of a window of radius 2. -/
theorem windows_laid_out_alike_face :
    windowVolume 2 < 0x80000000 ∧ (windowOffsets 2)[59]? = some ⟨2, -1, 0⟩ ∧
      ((Window.zero 2 2).set ⟨2, -1, 0⟩ 0 0x100000007).read ⟨2, -1, 0⟩ 0 = 0x100000007 ∧
      (Machine.mk 2 #[]
        ((Window.zero 2 2).set ⟨2, -1, 0⟩ 0 0x100000007).blocks.toArray).block ⟨2, -1, 0⟩ = 7 := by
  have hsize : windowVolume 2 < 0x80000000 := by decide
  obtain ⟨hplace, -, -, hset⟩ := windows_laid_out_alike (Window.zero 2 2) hsize
  obtain ⟨-, -, hblock, -⟩ :=
    windows_laid_out_alike ((Window.zero 2 2).set ⟨2, -1, 0⟩ 0 0x100000007) hsize
  have hread := (hset ⟨2, -1, 0⟩ 0 0x100000007).1 (by decide) (by decide)
  refine ⟨hsize, (hplace 59 ⟨2, -1, 0⟩).1.2 (by decide), hread, ?_⟩
  refine (hblock #[] ⟨2, -1, 0⟩).1.trans ?_
  rw [hread]
  decide

/-- A value that is written outside the cube is not read back, though the window has the channel. -/
theorem exists_write_without_trace :
    0 < (Window.zero 1 1).channels ∧
      ((Window.zero 1 1).set ⟨2, 0, 0⟩ 0 7).read ⟨2, 0, 0⟩ 0 ≠ 7 := by
  decide

end BlockAutomata.Kernel
