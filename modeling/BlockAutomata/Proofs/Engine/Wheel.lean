/-
  The timing wheel, seen from its cursor.

  1. `bucketAt d` is the bucket that `d` more advances will bring under the cursor, and `pending d`
     is the list of its tasks.  A wheel is known by these buckets, one for each delay that fits.

  2. Scheduling with a delay appends to the bucket of this delay.  A number that was never given out
     is new to every bucket, so the task goes to the end and replaces nothing.

  3. Cancelling swaps a task out of its bucket, if it is there, and leaves all else alone.

  4. Advancing fires the bucket of delay 0 and moves each bucket one delay closer.  The emptied one
     is now the farthest away.

  5. Draining takes all tasks off, in ascending order of their delays.

  6. The count that a wheel keeps is the total of its buckets, so it is zero if and only if nothing
     is pending (`taskCount_eq_zero_iff`), and it changes by the tasks that come and go.
-/
import BlockAutomata.Engine.TimingWheel
import BlockAutomata.Proofs.Tables

namespace BlockAutomata

namespace Engine.TimingWheel

variable {α : Type}

/-- The bucket that `d` more advances bring under the cursor. -/
def bucketAt (w : TimingWheel α) (d : Nat) : OrderedMap Nat α :=
  have : (w.cursor + d) % w.size < w.buckets.size := Nat.mod_lt _ w.size_pos
  w.buckets[(w.cursor + d) % w.size]

/-- The tasks that fire on the advance after `d` more. -/
def pending (w : TimingWheel α) (d : Nat) : List α :=
  match w.buckets[(w.cursor + d) % w.size]? with
  | some b => b.values
  | none => []

theorem getElem?_buckets (w : TimingWheel α) (d : Nat) :
    w.buckets[(w.cursor + d) % w.size]? = some (w.bucketAt d) :=
  Array.getElem?_eq_getElem _

theorem bucketAt_eq_of_getElem? {w : TimingWheel α} {d : Nat} {b : OrderedMap Nat α}
    (h : w.buckets[(w.cursor + d) % w.size]? = some b) : w.bucketAt d = b :=
  Option.some.inj ((w.getElem?_buckets d).symm.trans h)

theorem pending_eq_values (w : TimingWheel α) (d : Nat) : w.pending d = (w.bucketAt d).values := by
  rw [pending, getElem?_buckets]

theorem bucketAt_mem (w : TimingWheel α) (d : Nat) : w.bucketAt d ∈ w.buckets :=
  Array.getElem_mem _

/-- The next number to be given out is in no bucket. -/
theorem nextId_not_mem (w : TimingWheel α) (d : Nat) : w.nextId ∉ (w.bucketAt d).keys :=
  fun h => Nat.lt_irrefl _ (w.fresh _ (w.bucketAt_mem d) _ h)

/-- Different delays that fit belong to different buckets. -/
theorem bucket_inj (w : TimingWheel α) {d e : Nat} (hd : d < w.size) (he : e < w.size) :
    (w.cursor + d) % w.size = (w.cursor + e) % w.size ↔ d = e := by
  have hc : w.cursor < w.size := w.cursor_lt
  constructor
  · intro h
    -- each sum passes the size at most once
    rcases Nat.lt_or_ge (w.cursor + d) w.size with h₁ | h₁ <;>
      rcases Nat.lt_or_ge (w.cursor + e) w.size with h₂ | h₂
    · rw [Nat.mod_eq_of_lt h₁, Nat.mod_eq_of_lt h₂] at h
      omega
    · rw [Nat.mod_eq_of_lt h₁, Nat.mod_eq_sub_mod h₂, Nat.mod_eq_of_lt (by omega)] at h
      omega
    · rw [Nat.mod_eq_sub_mod h₁, Nat.mod_eq_of_lt (by omega), Nat.mod_eq_of_lt h₂] at h
      omega
    · rw [Nat.mod_eq_sub_mod h₁, Nat.mod_eq_of_lt (by omega), Nat.mod_eq_sub_mod h₂,
        Nat.mod_eq_of_lt (by omega)] at h
      omega
  · intro h
    rw [h]

/-- Every bucket belongs to a delay that fits. -/
theorem exists_delay (w : TimingWheel α) {i : Nat} (hi : i < w.size) :
    ∃ d < w.size, (w.cursor + d) % w.size = i := by
  have hc : w.cursor < w.size := w.cursor_lt
  refine ⟨(i + w.size - w.cursor) % w.size, Nat.mod_lt _ w.size_pos, ?_⟩
  rw [Nat.add_mod_mod, show w.cursor + (i + w.size - w.cursor) = i + w.size by omega,
    Nat.add_mod_right, Nat.mod_eq_of_lt hi]

/-! ## Changing one bucket -/

section

variable {w w' : TimingWheel α} {e : Nat} {f : OrderedMap Nat α → OrderedMap Nat α}

/-- The wheel is another one with the bucket of one delay changed. -/
structure ChangedAt (w : TimingWheel α) (e : Nat) (f : OrderedMap Nat α → OrderedMap Nat α)
    (w' : TimingWheel α) : Prop where
  fits : e < w.size
  buckets_eq : w'.buckets = w.buckets.modify ((w.cursor + e) % w.size) f
  cursor_eq : w'.cursor = w.cursor

theorem ChangedAt.size_eq (h : ChangedAt w e f w') : w'.size = w.size := by
  rw [TimingWheel.size, h.buckets_eq, Array.size_modify, TimingWheel.size]

theorem ChangedAt.bucketAt_eq (h : ChangedAt w e f w') {d : Nat} (hd : d < w.size) :
    w'.bucketAt d = if d = e then f (w.bucketAt d) else w.bucketAt d := by
  have hsame := w.bucket_inj h.fits hd
  refine bucketAt_eq_of_getElem? ?_
  rw [h.size_eq, h.cursor_eq, h.buckets_eq, Array.getElem?_modify, getElem?_buckets]
  by_cases hde : d = e
  · rw [if_pos hde, if_pos (hsame.2 hde.symm)]
    rfl
  · rw [if_neg hde, if_neg fun hc => hde (hsame.1 hc).symm]

/-- The number of tasks changes by what the bucket wins or loses. -/
theorem ChangedAt.taskCount_eq (h : ChangedAt w e f w') :
    w'.taskCount + (w.bucketAt e).size = w.taskCount + (f (w.bucketAt e)).size := by
  rw [w'.taskCount_eq, h.buckets_eq]
  exact w.total_modify_buckets f (w.getElem?_buckets e)

end

/-! ## The operations -/

theorem bucketAt_ofSize (size d : Nat) :
    (ofSize size : TimingWheel α).bucketAt d = OrderedMap.empty :=
  (Array.mem_replicate.1 (bucketAt_mem (ofSize size) d)).2

theorem pending_ofSize (size d : Nat) : (ofSize size : TimingWheel α).pending d = [] := by
  rw [pending_eq_values, bucketAt_ofSize]
  rfl

theorem size_ofSize (size : Nat) : (ofSize size : TimingWheel α).size = max size 1 := by
  simp [TimingWheel.size, ofSize]

/-- A delay that fits is accepted: the task gets the next number and comes last in the bucket of
    this delay. -/
theorem schedule_changes (w : TimingWheel α) (task : α) {delay : Nat} (h : delay < w.size) :
    ∃ w', w.schedule task delay = .ok (⟨(w.cursor + delay) % w.size, w.nextId⟩, w') ∧
      w'.nextId = w.nextId + 1 ∧ ChangedAt w delay (fun b => b.insert w.nextId task) w' :=
  ⟨_, if_pos h, rfl, h, rfl, rfl⟩

/-- A task with a new number comes last in its bucket. -/
theorem ChangedAt.entries_insert {w w' : TimingWheel α} {task : α} {delay : Nat}
    (h : ChangedAt w delay (fun b => b.insert w.nextId task) w') {d : Nat} (hd : d < w.size) :
    (w'.bucketAt d).entries =
      (w.bucketAt d).entries ++ if d = delay then [(w.nextId, task)] else [] := by
  rw [h.bucketAt_eq hd]
  split
  · exact OrderedMap.entries_insert_of_not_mem (w.nextId_not_mem d) task
  · exact (List.append_nil _).symm

/-- A delay that fits is accepted, and the task comes last among those of this delay. -/
theorem schedule_of_lt (w : TimingWheel α) (task : α) {delay : Nat} (h : delay < w.size) :
    ∃ ticket w', w.schedule task delay = .ok (ticket, w') ∧ w'.size = w.size ∧
      w'.cursor = w.cursor ∧
      ∀ d < w.size, w'.pending d = if d = delay then w.pending d ++ [task] else w.pending d := by
  obtain ⟨w', hw', -, hchanged⟩ := w.schedule_changes task h
  refine ⟨_, w', hw', hchanged.size_eq, hchanged.cursor_eq, ?_⟩
  intro d hd
  rw [pending_eq_values, pending_eq_values, OrderedMap.values, hchanged.entries_insert hd,
    List.map_append]
  split
  · rfl
  · exact List.append_nil _

/-- An accepted task counts. -/
theorem taskCount_schedule {w w' : TimingWheel α} {task : α} {delay : Nat} {ticket : Ticket}
    (h : w.schedule task delay = .ok (ticket, w')) : w'.taskCount = w.taskCount + 1 := by
  have hdelay : delay < w.size := by
    rw [schedule] at h
    split at h
    · assumption
    · cases h
  obtain ⟨w₁, hw₁, -, hchanged⟩ := w.schedule_changes task hdelay
  obtain ⟨-, rfl⟩ := Prod.mk.inj (Except.ok.inj (h.symm.trans hw₁))
  have hcount := hchanged.taskCount_eq
  rw [OrderedMap.size_insert (w.nextId_not_mem delay)] at hcount
  omega

/-- A delay that does not fit is refused. -/
theorem schedule_of_le (w : TimingWheel α) (task : α) {delay : Nat} (h : w.size ≤ delay) :
    w.schedule task delay = .error ⟨delay, w.size⟩ :=
  if_neg (Nat.not_lt.2 h)

/-- A task that is in the bucket of its ticket is swapped out of it. -/
theorem cancel_of_mem (w : TimingWheel α) {d id : Nat} (hd : d < w.size)
    (h : id ∈ (w.bucketAt d).keys) :
    ∃ w', w.cancel ⟨(w.cursor + d) % w.size, id⟩ = (true, w') ∧ w'.nextId = w.nextId ∧
      ChangedAt w d (fun b => b.swapRemove id) w' := by
  have hb := w.getElem?_buckets d
  unfold cancel
  split
  · rename_i hnone
    rw [hb] at hnone
    cases hnone
  · rename_i b hsome
    obtain rfl := Option.some.inj (hb.symm.trans hsome)
    rw [dif_pos (OrderedMap.contains_iff_mem_keys.2 h)]
    exact ⟨_, rfl, rfl, hd, rfl, rfl⟩

/-- A ticket whose task is in no bucket cancels nothing. -/
theorem cancel_of_not_mem {w : TimingWheel α} {ticket : Ticket}
    (h : ∀ d < w.size, ticket.id ∉ (w.bucketAt d).keys) : w.cancel ticket = (false, w) := by
  unfold cancel
  split
  · rfl
  · rename_i b hb
    obtain ⟨hi, -⟩ := Array.getElem?_eq_some_iff.1 hb
    obtain ⟨d, hd, hdi⟩ := w.exists_delay hi
    rw [← hdi] at hb
    rw [dif_neg]
    intro hc
    rw [OrderedMap.contains_iff_mem_keys, ← bucketAt_eq_of_getElem? hb] at hc
    exact h d hd hc

theorem advance_fst (w : TimingWheel α) : w.advance.1 = w.pending 0 := by
  have hc : w.cursor < w.size := w.cursor_lt
  have hb := w.getElem?_buckets 0
  rw [Nat.add_zero, Nat.mod_eq_of_lt hc, Array.getElem?_eq_getElem w.cursor_lt] at hb
  rw [pending_eq_values, ← Option.some.inj hb]
  rfl

theorem size_advance (w : TimingWheel α) : w.advance.2.size = w.size := Array.size_modify

theorem cursor_advance (w : TimingWheel α) : w.advance.2.cursor = (w.cursor + 1) % w.size := rfl

/-- After an advance every bucket is one delay closer, and the farthest is empty. -/
theorem bucketAt_advance (w : TimingWheel α) {d : Nat} (hd : d < w.size) :
    w.advance.2.bucketAt d =
      if d + 1 = w.size then OrderedMap.empty else w.bucketAt (d + 1) := by
  have hc : w.cursor < w.size := w.cursor_lt
  have hbucket : ((w.cursor + 1) % w.size + d) % w.size = (w.cursor + (d + 1)) % w.size := by
    rw [Nat.mod_add_mod, Nat.add_assoc, Nat.add_comm 1]
  refine bucketAt_eq_of_getElem? ?_
  rw [size_advance, cursor_advance, hbucket]
  simp only [advance, Array.getElem?_modify, getElem?_buckets]
  by_cases hlast : d + 1 = w.size
  · have hback : (w.cursor + (d + 1)) % w.size = w.cursor := by
      rw [hlast, Nat.add_mod_right, Nat.mod_eq_of_lt hc]
    rw [if_pos hlast, if_pos hback.symm]
    rfl
  · have hne : w.cursor ≠ (w.cursor + (d + 1)) % w.size := by
      have h := w.bucket_inj w.size_pos (by omega : d + 1 < w.size)
      rw [Nat.add_zero, Nat.mod_eq_of_lt hc] at h
      intro heq
      exact Nat.succ_ne_zero d (h.1 heq).symm
    rw [if_neg hlast, if_neg hne]

/-- After an advance every list is one delay closer, and the farthest is empty. -/
theorem pending_advance (w : TimingWheel α) {d : Nat} (hd : d < w.size) :
    w.advance.2.pending d = if d + 1 = w.size then [] else w.pending (d + 1) := by
  rw [pending_eq_values, pending_eq_values, bucketAt_advance w hd]
  split <;> rfl

/-- A task that has fired does not count any more. -/
theorem taskCount_advance (w : TimingWheel α) :
    w.advance.2.taskCount + w.advance.1.length = w.taskCount := by
  have hb : w.buckets[w.cursor]? = some (w.bucketAt 0) := by
    have hc : w.cursor < w.size := w.cursor_lt
    rw [← w.getElem?_buckets 0, Nat.add_zero, Nat.mod_eq_of_lt hc]
  have hcount := w.total_modify_buckets (fun _ => OrderedMap.empty) hb
  rw [advance_fst, pending_eq_values, OrderedMap.values, List.length_map, taskCount_eq]
  exact hcount

/-- Draining takes the lists of pending tasks off the wheel, each with its delay. -/
theorem drain_fst (w : TimingWheel α) :
    w.drain.1 = (List.range w.size).flatMap fun d => (w.pending d).map fun task => (d, task) := by
  show List.flatMap _ _ = _
  congr 1
  funext d
  rw [pending]
  cases w.buckets[(w.cursor + d) % w.size]? <;> rfl

theorem size_drain (w : TimingWheel α) : w.drain.2.size = w.size := Array.size_map

theorem bucketAt_drain (w : TimingWheel α) (d : Nat) :
    w.drain.2.bucketAt d = OrderedMap.empty := by
  obtain ⟨b, -, hb⟩ := Array.mem_map.1 (w.drain.2.bucketAt_mem d)
  exact hb.symm

theorem pending_drain (w : TimingWheel α) (d : Nat) : w.drain.2.pending d = [] := by
  rw [pending_eq_values, bucketAt_drain]
  rfl

/-- A wheel is empty if nothing is pending. -/
theorem isEmpty_iff (w : TimingWheel α) : w.isEmpty = true ↔ ∀ d < w.size, w.pending d = [] := by
  have hsize : ∀ b : OrderedMap Nat α, b.size = 0 ↔ b.values = [] := fun b => by
    rw [OrderedMap.size, OrderedMap.values, List.map_eq_nil_iff, List.length_eq_zero_iff]
  rw [isEmpty, beq_iff_eq, taskCount_eq, total_eq_zero_iff]
  constructor
  · intro h d _
    rw [pending_eq_values]
    exact (hsize _).1 (h _ (Array.mem_toList_iff.2 (w.bucketAt_mem d)))
  · intro h b hb
    obtain ⟨i, hi, rfl⟩ := Array.getElem_of_mem (Array.mem_toList_iff.1 hb)
    obtain ⟨d, hd, hdi⟩ := w.exists_delay hi
    have hpending := h d hd
    rw [pending_eq_values] at hpending
    rw [hsize, ← hpending]
    congr 1
    refine (bucketAt_eq_of_getElem? ?_).symm
    rw [hdi, Array.getElem?_eq_getElem]

/-- A wheel without pending tasks counts none. -/
theorem taskCount_eq_zero_iff (w : TimingWheel α) :
    w.taskCount = 0 ↔ ∀ d < w.size, w.pending d = [] := by
  rw [← isEmpty_iff, isEmpty, beq_iff_eq]

end Engine.TimingWheel

end BlockAutomata
