/-
  The storage of a section, read cell by cell and slot by slot.

  1. `read_write` is the one equation on which the others rest: a write is seen at its own cell and
     slot, if there is such a channel, and nowhere else.

  2. Performing an action is attempting it at its cell, and nothing at any other cell
     (`perform_fst`, `read_perform`).  How many channels there are and which cells are tracked stays
     as it is.
-/
import BlockAutomata.Engine.Storage
import BlockAutomata.Proofs.Actions
import BlockAutomata.Proofs.Engine.CellSets

namespace BlockAutomata

namespace Engine

/-! ## Storage -/

namespace Storage

theorem read_of_channels_le {s : Storage} {i slot : Nat} (h : s.channels ≤ slot) :
    s.read i slot = 0 := by
  rw [read, Array.getElem?_eq_none h]

theorem channels_write (s : Storage) (i slot : Nat) (v : Int64) :
    (s.write i slot v).2.channels = s.channels := by
  unfold write
  split
  · simp [channels]
  · rfl

theorem read_write (s : Storage) {i : Nat} (hi : i < sectionVolume) (slot : Nat) (v : Int64)
    (j t : Nat) : (s.write i slot v).2.read j t =
      if j = i ∧ t = slot ∧ slot < s.channels then v else s.read j t := by
  unfold write
  by_cases hs : slot < s.channels
  · rw [if_pos ⟨hs, hi⟩]
    simp only [read, Array.getElem?_modify, hs, and_true]
    by_cases ht : t = slot
    · subst ht
      rw [if_pos rfl, Array.getElem?_eq_getElem hs]
      by_cases hj : j = i
      · subst hj; simp [hi]
      · simp [hj, Ne.symm hj]
    · simp [ht, Ne.symm ht]
  · rw [if_neg (fun h => hs h.1), if_neg (fun h => hs h.2.2)]

theorem tracked_write (s : Storage) (i slot : Nat) (v : Int64) :
    (s.write i slot v).2.tracked = s.tracked := by
  unfold write
  split <;> rfl

/-- The answer of a write differs from the written value where the channel held another value. -/
theorem write_fst_ne (s : Storage) {i : Nat} (hi : i < sectionVolume) (slot : Nat) (v : Int64) :
    ((s.write i slot v).1 != v) = (decide (slot < s.channels) && s.read i slot != v) := by
  unfold write
  by_cases hs : slot < s.channels
  · rw [if_pos ⟨hs, hi⟩]; simp [hs]
  · rw [if_neg fun h => hs h.1]; simp [hs]

theorem channels_resetCell (s : Storage) (i : Nat) : (s.resetCell i).2.channels = s.channels := by
  simp [resetCell, channels]

theorem read_resetCell (s : Storage) {i : Nat} (hi : i < sectionVolume) (j t : Nat) :
    (s.resetCell i).2.read j t = if j = i then 0 else s.read j t := by
  simp only [resetCell, read, Array.getElem?_map]
  cases s.planes[t]? with
  | none => simp
  | some plane =>
    by_cases hj : j = i
    · subst hj; simp [hi]
    · simp [hj, Ne.symm hj]

theorem channels_writeAll (s : Storage) (i : Nat) (l : List (Nat × Int64)) :
    (s.writeAll i l).2.channels = s.channels := by
  induction l generalizing s with
  | nil => rfl
  | cons e rest ih =>
    show ((s.write i e.1 e.2).2.writeAll i rest).2.channels = s.channels
    rw [ih, channels_write]

theorem tracked_writeAll (s : Storage) (i : Nat) (l : List (Nat × Int64)) :
    (s.writeAll i l).2.tracked = s.tracked := by
  induction l generalizing s with
  | nil => rfl
  | cons e rest ih =>
    show ((s.write i e.1 e.2).2.writeAll i rest).2.tracked = s.tracked
    rw [ih, tracked_write]

/-- Writes to distinct slots do not disturb each other. -/
theorem read_writeAll (s : Storage) {i : Nat} (hi : i < sectionVolume) {l : List (Nat × Int64)}
    (hl : (l.map Prod.fst).Nodup) (j t : Nat) :
    (s.writeAll i l).2.read j t =
      if j = i ∧ t < s.channels then (l.lookup t).getD (s.read j t) else s.read j t := by
  induction l generalizing s with
  | nil => simp [writeAll]
  | cons e rest ih =>
    obtain ⟨slot, v⟩ := e
    rw [List.map_cons, List.nodup_cons] at hl
    show ((s.write i slot v).2.writeAll i rest).2.read j t = _
    rw [ih _ hl.2, channels_write, read_write s hi, lookup_cons_if]
    -- no later write is to the same slot, so this one stands
    by_cases hj : j = i
    · by_cases ht : t = slot
      · subst ht
        by_cases hs : t < s.channels
        · simp [hj, hs, lookup_eq_none_iff_not_mem.2 hl.1]
        · simp [hs]
      · simp [ht]
    · simp [hj]

theorem writeAll_fst (s : Storage) {i : Nat} (hi : i < sectionVolume) {l : List (Nat × Int64)}
    (hl : (l.map Prod.fst).Nodup) :
    (s.writeAll i l).1 = l.any fun e => decide (e.1 < s.channels) && s.read i e.1 != e.2 := by
  induction l generalizing s with
  | nil => rfl
  | cons e rest ih =>
    obtain ⟨slot, v⟩ := e
    rw [List.map_cons, List.nodup_cons] at hl
    show ((s.write i slot v).1 != v || ((s.write i slot v).2.writeAll i rest).1) = _
    rw [ih _ hl.2, write_fst_ne s hi, List.any_cons, channels_write]
    congr 1
    rw [Bool.eq_iff_iff, List.any_eq_true, List.any_eq_true]
    -- the later writes are to other slots, which this one has left as they were
    refine exists_congr fun e => and_congr_right fun he => ?_
    have hne : e.1 ≠ slot := fun h => hl.1 (h ▸ List.mem_map.2 ⟨e, he, rfl⟩)
    simp [read_write s hi, hne]

theorem channels_ofBlocks (n : Nat) (block : Nat → Int64) :
    (ofBlocks n block).channels = max n 1 := by
  simp [ofBlocks, setBlocks, zero, channels]

theorem tracked_ofBlocks (n : Nat) (block : Nat → Int64) :
    (ofBlocks n block).tracked = CellSet.empty := rfl

theorem read_setBlocks (s : Storage) (block : Nat → Int64) {i : Nat} (hi : i < sectionVolume)
    (slot : Nat) :
    (s.setBlocks block).read i slot = if slot = 0 then block i else s.read i slot := by
  simp only [setBlocks, read, Array.getElem?_modify]
  by_cases h : slot = 0
  · subst h
    rw [if_pos rfl, if_pos rfl, Array.getElem?_eq_getElem s.planes_pos]
    simp [hi]
  · rw [if_neg (Ne.symm h), if_neg h]

theorem read_ofBlocks (n : Nat) (block : Nat → Int64) {i : Nat} (hi : i < sectionVolume)
    (slot : Nat) : (ofBlocks n block).read i slot = if slot = 0 then block i else 0 := by
  rw [ofBlocks, read_setBlocks _ _ hi]
  by_cases h : slot = 0
  · rw [if_pos h, if_pos h]
  · rw [if_neg h, if_neg h]
    simp only [zero, read, Array.getElem?_replicate]
    by_cases hs : slot < max n 1
    · simp [hs, zeroPlane, hi]
    · simp [hs]

/-! ## Performing -/

/-- The storage after the cell has been reset, if the action asks for it. -/
def prepared (s : Storage) (i : Nat) (a : Action) : Storage :=
  if a.reset then (s.resetCell i).2 else s

theorem channels_prepared (s : Storage) (i : Nat) (a : Action) :
    (s.prepared i a).channels = s.channels := by
  unfold prepared
  split
  · exact channels_resetCell s i
  · rfl

theorem read_prepared (s : Storage) {i : Nat} (hi : i < sectionVolume) (a : Action) (j t : Nat) :
    (s.prepared i a).read j t = if j = i ∧ a.reset then 0 else s.read j t := by
  unfold prepared
  cases a.reset with
  | true => simp [read_resetCell s hi]
  | false => simp

/-- Performing an action whose guard does not hold changes nothing. -/
theorem perform_of_not_guardHolds {s : Storage} {i : Nat} {a : Action}
    (h : a.guardHolds (s.read i) = false) : s.perform i a = (none, s) := by
  simp [perform, h]

/-- Performing an action whose guard holds is preparing the cell, then writing. -/
theorem perform_of_guardHolds {s : Storage} {i : Nat} {a : Action}
    (h : a.guardHolds (s.read i) = true) :
    s.perform i a =
      (some ⟨(a.reset && (s.resetCell i).1) || ((s.prepared i a).writeAll i a.writes.entries).1,
          s.read i 0, ((s.prepared i a).writeAll i a.writes.entries).2.read i 0⟩,
        ((s.prepared i a).writeAll i a.writes.entries).2) := by
  unfold perform prepared
  rw [if_pos h]
  cases a.reset <;> rfl

theorem channels_perform (s : Storage) (i : Nat) (a : Action) :
    (s.perform i a).2.channels = s.channels := by
  cases h : a.guardHolds (s.read i) with
  | false => rw [perform_of_not_guardHolds h]
  | true => rw [perform_of_guardHolds h, channels_writeAll, channels_prepared]

theorem tracked_perform (s : Storage) (i : Nat) (a : Action) :
    (s.perform i a).2.tracked = s.tracked := by
  cases h : a.guardHolds (s.read i) with
  | false => rw [perform_of_not_guardHolds h]
  | true =>
    rw [perform_of_guardHolds h, tracked_writeAll]
    unfold prepared
    split <;> rfl

/-- Performing an action attempts it at its cell, and touches no other cell. -/
theorem read_perform (s : Storage) {i : Nat} (hi : i < sectionVolume) (a : Action) (j t : Nat) :
    (s.perform i a).2.read j t =
      if j = i then a.attempt s.channels (s.read i) t else s.read j t := by
  unfold Action.attempt
  cases h : a.guardHolds (s.read i) with
  | false =>
    rw [perform_of_not_guardHolds h]
    by_cases hj : j = i
    · subst hj; simp
    · simp [hj]
  | true =>
    rw [perform_of_guardHolds h, read_writeAll _ hi a.writes.slots_nodup, channels_prepared,
      read_prepared s hi]
    by_cases hj : j = i
    · subst hj
      by_cases ht : t < s.channels
      · simp [ht, Action.applied, SlotMap.get?]
      · simp [ht, read_of_channels_le (Nat.le_of_not_lt ht)]
    · simp [hj]

/-- What performing an action says about its cell. -/
theorem perform_fst (s : Storage) {i : Nat} (hi : i < sectionVolume) (a : Action) :
    (s.perform i a).1 =
      if a.guardHolds (s.read i) then
        some ⟨a.modifies s.channels (s.read i), s.read i 0, a.attempt s.channels (s.read i) 0⟩
      else none := by
  cases h : a.guardHolds (s.read i) with
  | false => rw [perform_of_not_guardHolds h]; rfl
  | true =>
    have hafter : ((s.prepared i a).writeAll i a.writes.entries).2.read i 0 =
        a.attempt s.channels (s.read i) 0 := by
      rw [← if_pos (rfl : i = i) (t := a.attempt s.channels (s.read i) 0), ← read_perform s hi,
        perform_of_guardHolds h]
    have hreset : (s.resetCell i).1 = (List.range s.channels).any fun t => s.read i t != 0 :=
      List.any_map
    have hwrites : ((s.prepared i a).writeAll i a.writes.entries).1 =
        a.writes.entries.any fun e =>
          decide (e.1 < s.channels) && (if a.reset then 0 else s.read i e.1) != e.2 := by
      rw [writeAll_fst _ hi a.writes.slots_nodup, channels_prepared]
      simp only [read_prepared s hi, true_and]
    rw [perform_of_guardHolds h, hafter, hreset, hwrites, if_pos rfl, Action.modifies]

end Storage

end Engine

end BlockAutomata
