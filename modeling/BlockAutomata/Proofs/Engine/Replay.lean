/-
  The records of a step lead from the blocks before it to the blocks after it.

  1. To replay records is to write each recorded value at the index of the recorded cell, one record
     after the other.

  2. A step records a block whenever a request changes it, so at any time the records of a section,
     replayed on the blocks from before the step, give the blocks as they are (`Recorded`).  All
     that this needs is that the written blocks fit into records.

  3. At the end of the step each section with records gets one batch, and where there are no records
     nothing has changed (`replay_batches`).
-/
import Mathlib.Logic.Function.Basic
import BlockAutomata.Proofs.Records
import BlockAutomata.Proofs.Engine.Admission

namespace BlockAutomata.Engine

/-! ## Replaying -/

/-- The blocks of a section, by index, once the records have been written over them. -/
def replay (blocks : Nat → Int64) (records : List Int64) : Nat → Int64 :=
  records.foldl (fun blocks record =>
    Function.update blocks (ChangeRecord.offset record).index (ChangeRecord.value record)) blocks

theorem replay_append (blocks : Nat → Int64) (records more : List Int64) :
    replay blocks (records ++ more) = replay (replay blocks records) more :=
  List.foldl_append

/-- Replaying the record of a cell writes the value at the index of the cell. -/
theorem replay_encode (blocks : Nat → Int64) (p : Cell) {v : Int64} (hv : ChangeRecord.Fits v) :
    replay blocks [ChangeRecord.encode p v] = Function.update blocks p.index v := by
  show Function.update _ _ _ = _
  rw [ChangeRecord.index_offset_encode, ChangeRecord.value_encode p hv]

/-! ## A step under way -/

/-- Whether the block that the request writes, if it writes one, fits into a record. -/
def Request.BlockFits (r : Request) : Prop :=
  ∀ v, r.action.writes.get? 0 = some v → ChangeRecord.Fits v

/-- A changed block was written by the request, or it is air after a reset. -/
theorem fits_attempted {w : World} {r : Request} (hr : r.BlockFits)
    (hne : w.attempted r 0 ≠ w.read r.cell 0) : ChangeRecord.Fits (w.attempted r 0) := by
  rcases r.action.attempt_eq_or ((w.channelsAt r.cell.home).getD 0) (w.read r.cell) 0 with
    happlied | hsame
  · rw [World.attempted, happlied] at hne ⊢
    unfold Action.applied at hne ⊢
    cases hv : r.action.writes.get? 0 with
    | some v => exact hr v hv
    | none =>
      rw [hv] at hne
      cases hreset : r.action.reset with
      | true => exact ChangeRecord.fits_zero
      | false => rw [hreset] at hne; exact absurd rfl hne
  · exact absurd hsame hne

namespace Turn

/-- Records are kept for sections in which cells have their home, and replaying them on the blocks
    of the earlier world gives the blocks as they are. -/
structure Recorded (before : World) (t : Turn) : Prop where
  home : ∀ s, t.changes.contains s = true → ∃ p : Cell, p.home = s
  block : ∀ p : Cell,
    replay (fun i => before.read (p.home.cell i) 0) (t.recordsIn p.home) p.index = t.world.read p 0

variable {before : World} {t : Turn}

/-- A request whose block fits, if it is applied at all, leaves the records complete. -/
theorem Recorded.apply (h : Recorded before t) {r : Request}
    (hr : (t.apply r).1 = true → r.BlockFits) : Recorded before (t.apply r).2 := by
  constructor
  · intro s hs
    rw [contains_changes_apply, Bool.or_eq_true, decide_eq_true_eq] at hs
    rcases hs with hs | ⟨hs, -⟩
    · exact h.home s hs
    · exact ⟨r.cell, hs.symm⟩
  · intro p
    rw [recordsIn_apply, read_apply]
    by_cases hb : t.world.attempted r 0 ≠ t.world.read r.cell 0
    · have hadmits : (t.apply r).1 = true := by
        rw [apply_fst]
        by_contra hno
        exact hb (congrFun (World.attempted_of_not_admits (Bool.eq_false_iff.2 hno)) 0)
      have hfits := fits_attempted (hr hadmits) hb
      by_cases hs : p.home = r.cell.home
      · rw [if_pos ⟨hs, hb⟩, replay_append, replay_encode _ _ hfits]
        by_cases hp : p = r.cell
        · rw [if_pos hp, hp, Function.update_self]
        · have hindex : p.index ≠ r.cell.index := fun hi => hp (Cell.eq_of_home_of_index hs hi)
          rw [if_neg hp, Function.update_of_ne hindex, h.block]
      · have hp : p ≠ r.cell := fun hp => hs (congrArg Cell.home hp)
        rw [if_neg fun hc => hs hc.1, if_neg hp, h.block]
    · rw [if_neg fun hc => hb hc.2, h.block]
      split
      · rename_i hp
        rw [hp]
        exact (not_not.1 hb).symm
      · rfl

theorem Recorded.provided (h : Recorded before t) (r : Request) :
    Recorded before (t.provided r) :=
  ⟨h.home, fun p => (h.block p).trans (World.read_provide _ _ _ _).symm⟩

theorem Recorded.placing (h : Recorded before t) {r : Request}
    (hr : (t.placing r).1 = true → r.BlockFits) : Recorded before (t.placing r).2 := by
  have happly := (h.provided r).apply hr
  rw [Turn.placing, applyPlacement_eq]
  exact ⟨happly.home, happly.block⟩

end Turn

namespace World

variable {w : World}

theorem recorded_opening (w : World) : Turn.Recorded w w.opening :=
  ⟨fun _ hs => (by cases hs), fun p => congrArg (w.read · 0) p.home_cell_index⟩

theorem recorded_done (hplacements : ∀ r ∈ w.appliedPlacements, r.BlockFits)
    (hdue : ∀ r ∈ w.appliedDue, r.BlockFits) : Turn.Recorded w w.done := by
  have hplaced : Turn.Recorded w w.placed :=
    Turn.handleAll_induction (fun _ _ hr ht => ht.placing hr) hplacements (recorded_opening w)
  have hready : Turn.Recorded w w.ready := by
    refine ⟨fun s hs => hplaced.home s ?_, fun p => ?_⟩
    · rw [changes_ready] at hs
      exact hs
    · rw [read_ready, ← hplaced.block, Turn.recordsIn, changes_ready]
      rfl
  exact Turn.handleAll_induction (fun _ _ hr ht => ht.apply hr) hdue hready

/-- The batches of a step: one for each section with records. -/
def batches (w : World) : List Batch :=
  w.done.changes.entries.map fun e => ⟨e.1, e.2.toList⟩

/-- If every block that a step writes fits into a record, then it passes on at most one batch for
    each section.  Replaying a batch on the blocks that the section had before the step gives the
    blocks that it has afterwards, and sections without a batch keep their blocks. -/
theorem replay_batches (hfits : ∀ r ∈ w.appliedPlacements ++ w.appliedDue, r.BlockFits) :
    ∃ batches : List Batch,
      w.step.1.terrain.batches.toList = w.terrain.batches.toList ++ batches ∧
      (batches.map Batch.position).Nodup ∧
      (∀ b ∈ batches, ∀ i < sectionVolume,
        replay (fun j => w.read (b.position.cell j) 0) b.records i =
          w.step.1.read (b.position.cell i) 0) ∧
      ∀ p : Cell, p.home ∉ batches.map Batch.position → w.step.1.read p 0 = w.read p 0 := by
  rw [List.forall_mem_append] at hfits
  have hrecorded := recorded_done hfits.1 hfits.2
  have hkeys : w.batches.map Batch.position = w.done.changes.keys := by
    rw [batches, List.map_map]
    rfl
  refine ⟨w.batches, ?_, ?_, ?_, ?_⟩
  · rw [step_eq_flush, batches_flush, done, Turn.batches_applyAll, terrain_ready, batches_placed]
    rfl
  · rw [hkeys]
    exact w.done.changes.keys_nodup
  · intro b hb i hi
    obtain ⟨⟨s, records⟩, he, rfl⟩ := List.mem_map.1 hb
    have hfind := OrderedMap.find?_eq_some_iff.2 he
    obtain ⟨p, rfl⟩ := hrecorded.home s (by rw [OrderedMap.contains, hfind]; rfl)
    have hblock := hrecorded.block (p.home.cell i)
    rw [p.home_cell hi, p.index_cell hi, Turn.recordsIn, hfind] at hblock
    rw [step_eq_flush, read_flush]
    exact hblock
  · intro p hp
    have hnone : w.done.changes.find? p.home = none := by
      rw [hkeys] at hp
      exact OrderedMap.find?_eq_none_iff.2 hp
    have hblock := hrecorded.block p
    rw [Turn.recordsIn, hnone] at hblock
    rw [step_eq_flush, read_flush, ← hblock]
    exact congrArg (w.read · 0) p.home_cell_index

/-- A block is placed into an empty world. -/
theorem replay_batches_firstBlock :
    ∃ w : World, w.appliedPlacements ++ w.appliedDue = [firstRequest] ∧ firstRequest.BlockFits ∧
      ∃ batches : List Batch,
        w.step.1.terrain.batches.toList = w.terrain.batches.toList ++ batches ∧
        (batches.map Batch.position).Nodup ∧
        (∀ b ∈ batches, ∀ i < sectionVolume,
          replay (fun j => w.read (b.position.cell j) 0) b.records i =
            w.step.1.read (b.position.cell i) 0) ∧
        ∀ p : Cell, p.home ∉ batches.map Batch.position → w.step.1.read p 0 = w.read p 0 := by
  have happlied : (firstBlock default).appliedPlacements ++ (firstBlock default).appliedDue =
      [firstRequest] := by
    rw [appliedPlacements_firstBlock, appliedDue_firstBlock fun _ => rfl]
    rfl
  have hfits : firstRequest.BlockFits := by
    intro v hv
    obtain rfl : 1 = v := Option.some.inj hv
    decide
  refine ⟨_, happlied, hfits, replay_batches ?_⟩
  rw [happlied]
  exact List.forall_mem_singleton.2 hfits

end World

end BlockAutomata.Engine
