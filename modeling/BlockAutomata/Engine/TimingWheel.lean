/-
  A wheel of buckets for tasks that are due later.

  1. A task with delay d goes into the bucket d places ahead of the cursor.  Every advance fires the
     bucket under the cursor and moves the cursor on by one, so the task fires on the (d+1)-th
     advance from now.

  2. A delay must be smaller than the number of buckets.

  3. Within a bucket tasks fire in the order in which they were scheduled, except that a cancelled
     task gives its place to the last one.

  4. The wheel counts along how many tasks wait.  That the count is right is part of what a wheel
     is: it is the total of the buckets (`taskCount_eq`).
-/
import BlockAutomata.OrderedMap

namespace BlockAutomata.Engine

/-- A delay that does not fit the wheel. -/
structure DelayTooLong where
  delay : Nat
  wheelSize : Nat
  deriving DecidableEq, Repr

/-- The wording of the error. -/
def DelayTooLong.message (e : DelayTooLong) : String :=
  "delay " ++ toString e.delay ++ " does not fit a timer wheel of " ++ toString e.wheelSize
    ++ " buckets"

/-- Names a scheduled task. -/
structure Ticket where
  bucket : Nat
  id : Nat
  deriving DecidableEq, Repr

namespace TimingWheel

variable {α : Type}

/-- Number of tasks in buckets. -/
def total : List (OrderedMap Nat α) → Nat
  | [] => 0
  | b :: rest => b.size + total rest

/-- Changing one bucket changes the total by what this bucket wins or loses. -/
theorem total_modify (f : OrderedMap Nat α → OrderedMap Nat α) {buckets : List (OrderedMap Nat α)}
    {i : Nat} {b : OrderedMap Nat α} (hb : buckets[i]? = some b) :
    total (buckets.modify i f) + b.size = total buckets + (f b).size := by
  induction buckets generalizing i with
  | nil => cases hb
  | cons c rest ih =>
    cases i with
    | zero =>
      obtain rfl := Option.some.inj hb
      rw [List.modify_zero_cons, total, total]
      omega
    | succ i =>
      have hrest := ih hb
      rw [List.modify_succ_cons, total, total]
      omega

theorem total_eq_zero_iff {buckets : List (OrderedMap Nat α)} :
    total buckets = 0 ↔ ∀ b ∈ buckets, b.size = 0 := by
  induction buckets with
  | nil => exact ⟨fun _ => nofun, fun _ => rfl⟩
  | cons b rest ih => rw [total, Nat.add_eq_zero_iff, ih, List.forall_mem_cons]

end TimingWheel

/-- A ring of buckets with the number of tasks in it.  No two tasks ever get the same number. -/
structure TimingWheel (α : Type) where
  buckets : Array (OrderedMap Nat α)
  cursor : Nat
  nextId : Nat
  /-- number of tasks that have not fired -/
  taskCount : Nat
  cursor_lt : cursor < buckets.size
  fresh : ∀ b ∈ buckets, ∀ id ∈ b.keys, id < nextId
  taskCount_eq : taskCount = TimingWheel.total buckets.toList

namespace TimingWheel

variable {α : Type}

private theorem mem_of_mem_modify {β : Type} {a : Array β} {i : Nat} {f : β → β} {b : β}
    (h : b ∈ a.modify i f) : b ∈ a ∨ ∃ c ∈ a, b = f c := by
  obtain ⟨j, hj, rfl⟩ := Array.getElem_of_mem h
  rw [Array.size_modify] at hj
  rw [Array.getElem_modify]
  split
  · exact Or.inr ⟨a[j], Array.getElem_mem hj, rfl⟩
  · exact Or.inl (Array.getElem_mem hj)

/-- A wheel without tasks; it has at least one bucket. -/
def ofSize (size : Nat) : TimingWheel α where
  buckets := Array.replicate (max size 1) OrderedMap.empty
  cursor := 0
  nextId := 0
  taskCount := 0
  cursor_lt := by simp only [Array.size_replicate]; omega
  fresh := by
    intro b hb id hid
    rw [(Array.mem_replicate.1 hb).2] at hid
    cases hid
  taskCount_eq := by
    refine (total_eq_zero_iff.2 fun b hb => ?_).symm
    rw [(Array.mem_replicate.1 (Array.mem_toList_iff.1 hb)).2]
    rfl

/-- Number of buckets. -/
def size (w : TimingWheel α) : Nat := w.buckets.size

theorem size_pos (w : TimingWheel α) : 0 < w.size := Nat.lt_of_le_of_lt (Nat.zero_le _) w.cursor_lt

/-- How the number of tasks changes with one bucket. -/
theorem total_modify_buckets (w : TimingWheel α) (f : OrderedMap Nat α → OrderedMap Nat α)
    {i : Nat} {b : OrderedMap Nat α} (hb : w.buckets[i]? = some b) :
    total (w.buckets.modify i f).toList + b.size = w.taskCount + (f b).size := by
  rw [Array.toList_modify, total_modify f (Array.getElem?_toList.trans hb), w.taskCount_eq]

/-- Whether no task is waiting. -/
def isEmpty (w : TimingWheel α) : Bool := w.taskCount == 0

/-- Schedule a task `delay` advances after the next one. -/
def schedule (w : TimingWheel α) (task : α) (delay : Nat) :
    Except DelayTooLong (Ticket × TimingWheel α) :=
  if delay < w.size then
    let bucket := (w.cursor + delay) % w.size
    .ok (⟨bucket, w.nextId⟩,
      { w with
        buckets := w.buckets.modify bucket fun b => b.insert w.nextId task
        nextId := w.nextId + 1
        taskCount := w.taskCount + 1
        cursor_lt := by rw [Array.size_modify]; exact w.cursor_lt
        fresh := by
          intro b hb id hid
          rcases mem_of_mem_modify hb with hb | ⟨c, hc, rfl⟩
          · exact Nat.lt_succ_of_lt (w.fresh b hb id hid)
          · rw [OrderedMap.keys_insert] at hid
            split at hid
            · exact Nat.lt_succ_of_lt (w.fresh c hc id hid)
            · rcases List.mem_append.1 hid with hid | hid
              · exact Nat.lt_succ_of_lt (w.fresh c hc id hid)
              · rw [List.mem_singleton.1 hid]
                exact Nat.lt_succ_self _
        taskCount_eq := by
          have hlt : bucket < w.buckets.size := Nat.mod_lt _ w.size_pos
          have hnew : w.nextId ∉ w.buckets[bucket].keys := fun h =>
            Nat.lt_irrefl _ (w.fresh _ (Array.getElem_mem hlt) _ h)
          have htotal := w.total_modify_buckets (fun b => b.insert w.nextId task)
            (Array.getElem?_eq_getElem hlt)
          rw [OrderedMap.size_insert hnew] at htotal
          omega })
  else .error ⟨delay, w.size⟩

/-- Take a task off the wheel; the answer says whether it was still waiting. -/
def cancel (w : TimingWheel α) (ticket : Ticket) : Bool × TimingWheel α :=
  match hb : w.buckets[ticket.bucket]? with
  | none => (false, w)
  | some b =>
    if hc : b.contains ticket.id then
      (true,
        { w with
          buckets := w.buckets.modify ticket.bucket fun b => b.swapRemove ticket.id
          taskCount := w.taskCount - 1
          cursor_lt := by rw [Array.size_modify]; exact w.cursor_lt
          fresh := by
            intro b hb id hid
            rcases mem_of_mem_modify hb with hb | ⟨c, hc, rfl⟩
            · exact w.fresh b hb id hid
            · exact w.fresh c hc id (OrderedMap.mem_keys_of_swapRemove hid)
          taskCount_eq := by
            have htotal := w.total_modify_buckets (fun b => b.swapRemove ticket.id) hb
            have hsize := OrderedMap.size_swapRemove (OrderedMap.contains_iff_mem_keys.1 hc)
            omega })
    else (false, w)

/-- The tasks of the bucket under the cursor, in order, and the wheel after the cursor moved on. -/
def advance (w : TimingWheel α) : List α × TimingWheel α :=
  have := w.cursor_lt
  (w.buckets[w.cursor].values,
    { w with
      buckets := w.buckets.modify w.cursor fun _ => OrderedMap.empty
      cursor := (w.cursor + 1) % w.size
      taskCount := w.taskCount - w.buckets[w.cursor].size
      cursor_lt := by
        rw [Array.size_modify]
        exact Nat.mod_lt _ w.size_pos
      fresh := by
        intro b hb id hid
        rcases mem_of_mem_modify hb with hb | ⟨c, hc, rfl⟩
        · exact w.fresh b hb id hid
        · cases hid
      taskCount_eq := by
        have htotal := w.total_modify_buckets (fun _ => OrderedMap.empty)
          (Array.getElem?_eq_getElem w.cursor_lt)
        have hempty : (OrderedMap.empty : OrderedMap Nat α).size = 0 := rfl
        omega })

/-- All waiting tasks with the number of advances before the one that would fire them, and the wheel
    without them. -/
def drain (w : TimingWheel α) : List (Nat × α) × TimingWheel α :=
  ((List.range w.size).flatMap fun step =>
      match w.buckets[(w.cursor + step) % w.size]? with
      | some b => b.values.map fun task => (step, task)
      | none => [],
    { w with
      buckets := w.buckets.map fun _ => OrderedMap.empty
      taskCount := 0
      cursor_lt := by rw [Array.size_map]; exact w.cursor_lt
      fresh := by
        intro b hb id hid
        obtain ⟨c, hc, rfl⟩ := Array.mem_map.1 hb
        cases hid
      taskCount_eq := by
        refine (total_eq_zero_iff.2 fun b hb => ?_).symm
        obtain ⟨c, -, rfl⟩ := Array.mem_map.1 (Array.mem_toList_iff.1 hb)
        rfl })

end TimingWheel

end BlockAutomata.Engine
