/-
  The timing wheel as a list of tasks with the time that each has left.

  1. **The list.**  An agenda says of every waiting task how many advances it still has to sit out,
     and gives it a number.  Advancing takes off what has nothing left and lowers all else by one;
     cancelling takes off the task with the given number.  There are no buckets and no cursor.

  2. **The wheel** is used through the tickets that it gives out, the n-th ticket standing for the
     n-th task that it accepted (`Ticketed`).

  3. **The relation.**  The bucket of each delay holds, up to order, what the agenda has for that
     delay, and the ticket of a waiting task leads to the bucket in which it is (`Keeps`).  Every
     instruction keeps the relation and gets the same reply, so any sequence of instructions does
     (`Keeps.follow`).  As long as nothing is cancelled, the order within the buckets is that of
     the agenda (`InOrder`).

  4. On the agenda it is plain when a task fires: with each advance it has one less left, unless it
     is cancelled or drained before (`Agenda.mem_waiting_follow`).  The relation carries this over
     to the wheel (`wheel_keeps_agenda`).
-/
import Mathlib.Data.List.Nodup
import Mathlib.Data.List.Forall2
import Mathlib.Data.List.Perm.Basic
import BlockAutomata.Proofs.Engine.Wheel

namespace BlockAutomata.Engine

variable {α : Type}

/-! ## Instructions and replies -/

/-- What a user asks of a wheel.  Tasks are cancelled by the place of their ticket among those given
    out. -/
inductive Instruction (α : Type) where
  | schedule (task : α) (delay : Nat)
  | cancel (number : Nat)
  | advance
  | drain

/-- What the user gets for it. -/
inductive Reply (α : Type) where
  /-- accepted; the ticket has this place among those given out -/
  | ticket (number : Nat)
  | refused (error : DelayTooLong)
  | cancelled (waiting : Bool)
  | fired (tasks : List α)
  | drained (tasks : List (Nat × α))

/-- The same reply, tasks in any order. -/
inductive Reply.Agrees : Reply α → Reply α → Prop where
  | refl (r : Reply α) : Agrees r r
  | fired {l l' : List α} (h : l.Perm l') : Agrees (.fired l) (.fired l')
  | drained {l l' : List (Nat × α)} (h : l.Perm l') : Agrees (.drained l) (.drained l')

/-- How a count of the waiting tasks goes on that is kept by hand. -/
def Reply.tally (count : Nat) : Reply α → Nat
  | .ticket _ => count + 1
  | .refused _ => count
  | .cancelled waiting => if waiting then count - 1 else count
  | .fired tasks => count - tasks.length
  | .drained _ => 0

theorem Reply.Agrees.tally_eq {r r' : Reply α} (h : r.Agrees r') (count : Nat) :
    r.tally count = r'.tally count := by
  cases h with
  | refl => rfl
  | fired h => exact congrArg (count - ·) h.length_eq
  | drained => rfl

section

variable {σ : Type} (obey : σ → Instruction α → Reply α × σ)

/-- The state after instructions have been followed in order. -/
def follow (s : σ) (instructions : List (Instruction α)) : σ :=
  instructions.foldl (fun s i => (obey s i).2) s

/-- The replies to the instructions. -/
def replies : σ → List (Instruction α) → List (Reply α)
  | _, [] => []
  | s, i :: rest => (obey s i).1 :: replies (obey s i).2 rest

end

/-- How often the wheel is advanced. -/
def advances (instructions : List (Instruction α)) : Nat :=
  instructions.countP fun i => match i with
    | .advance => true
    | _ => false

/-- Whether an instruction leaves the task with this number on the wheel, unless its time has
    come. -/
def Instruction.Spares (number : Nat) : Instruction α → Prop
  | .cancel n => n ≠ number
  | .drain => False
  | _ => True

/-! ## The agenda -/

/-- A waiting task: the advances that it has left to sit out, and its number. -/
structure Waiting (α : Type) where
  remaining : Nat
  number : Nat
  task : α

/-- The task after one advance; none is left of one that fires. -/
def Waiting.closer? (e : Waiting α) : Option (Waiting α) :=
  if e.remaining = 0 then none else some { e with remaining := e.remaining - 1 }

/-- The waiting tasks in the order in which they were scheduled. -/
structure Agenda (α : Type) where
  /-- delays must be smaller -/
  size : Nat
  waiting : List (Waiting α)
  /-- how many tasks have ever been accepted -/
  accepted : Nat

namespace Agenda

/-- Nothing waits yet. -/
def ofSize (size : Nat) : Agenda α := ⟨max size 1, [], 0⟩

/-- The tasks that have so many advances left, with their numbers. -/
def dueIn (a : Agenda α) (d : Nat) : List (Nat × α) :=
  (a.waiting.filter fun e => e.remaining = d).map fun e => (e.number, e.task)

/-- Follow an instruction. -/
def obey (a : Agenda α) : Instruction α → Reply α × Agenda α
  | .schedule task delay =>
    if delay < a.size then
      (.ticket a.accepted,
        { a with
          waiting := a.waiting ++ [⟨delay, a.accepted, task⟩]
          accepted := a.accepted + 1 })
    else (.refused ⟨delay, a.size⟩, a)
  | .cancel number =>
    (.cancelled (a.waiting.any fun e => e.number = number),
      { a with waiting := a.waiting.filter fun e => e.number ≠ number })
  | .advance =>
    (.fired ((a.waiting.filter fun e => e.remaining = 0).map Waiting.task),
      { a with waiting := a.waiting.filterMap Waiting.closer? })
  | .drain => (.drained (a.waiting.map fun e => (e.remaining, e.task)), { a with waiting := [] })

/-- Numbers ascend and have all been given out, and every task has less left than the size. -/
structure Orderly (a : Agenda α) : Prop where
  ascending : (a.waiting.map Waiting.number).Pairwise (· < ·)
  number_lt : ∀ e ∈ a.waiting, e.number < a.accepted
  remaining_lt : ∀ e ∈ a.waiting, e.remaining < a.size

variable {a : Agenda α}

theorem Orderly.nodup (h : a.Orderly) : (a.waiting.map Waiting.number).Nodup :=
  h.ascending.imp Nat.ne_of_lt

theorem Orderly.eq_of_number_eq (h : a.Orderly) {e f : Waiting α} (he : e ∈ a.waiting)
    (hf : f ∈ a.waiting) (hn : e.number = f.number) : e = f :=
  List.inj_on_of_nodup_map h.nodup he hf hn

theorem mem_dueIn {d number : Nat} {task : α} :
    (number, task) ∈ a.dueIn d ↔ (⟨d, number, task⟩ : Waiting α) ∈ a.waiting := by
  rw [dueIn, List.mem_map]
  constructor
  · rintro ⟨e, he, heq⟩
    obtain ⟨hmem, hd⟩ := List.mem_filter.1 he
    obtain ⟨rfl, rfl⟩ := Prod.mk.inj heq
    rw [← of_decide_eq_true hd]
    exact hmem
  · intro h
    exact ⟨_, List.mem_filter.2 ⟨h, decide_eq_true rfl⟩, rfl⟩

theorem mem_filterMap_closer? {l : List (Waiting α)} {e : Waiting α} :
    e ∈ l.filterMap Waiting.closer? ↔ { e with remaining := e.remaining + 1 } ∈ l := by
  rw [List.mem_filterMap]
  constructor
  · rintro ⟨f, hf, hcloser⟩
    unfold Waiting.closer? at hcloser
    split at hcloser
    · cases hcloser
    · rename_i hne
      obtain rfl := Option.some.inj hcloser
      rw [show f.remaining - 1 + 1 = f.remaining by omega]
      exact hf
  · exact fun h => ⟨_, h, if_neg (Nat.succ_ne_zero _)⟩

/-! ### What an instruction does to it -/

theorem obey_schedule_of_lt (task : α) {delay : Nat} (h : delay < a.size) :
    a.obey (.schedule task delay) =
      (.ticket a.accepted,
        { a with
          waiting := a.waiting ++ [⟨delay, a.accepted, task⟩]
          accepted := a.accepted + 1 }) :=
  if_pos h

theorem obey_schedule_of_le (task : α) {delay : Nat} (h : a.size ≤ delay) :
    a.obey (.schedule task delay) = (.refused ⟨delay, a.size⟩, a) :=
  if_neg (Nat.not_lt.2 h)

theorem obey_cancel_of_mem {e : Waiting α} (he : e ∈ a.waiting) :
    a.obey (.cancel e.number) = (.cancelled true, (a.obey (.cancel e.number)).2) := by
  have hany : a.waiting.any (fun f => f.number = e.number) = true :=
    List.any_eq_true.2 ⟨e, he, decide_eq_true rfl⟩
  exact congrArg (fun b => (Reply.cancelled b, _)) hany

theorem obey_cancel_of_not_mem {number : Nat} (hgone : ∀ e ∈ a.waiting, e.number ≠ number) :
    a.obey (.cancel number) = (.cancelled false, a) := by
  have hany : a.waiting.any (fun f => f.number = number) = false :=
    List.any_eq_false.2 fun e he => by simpa using hgone e he
  have hfilter : a.waiting.filter (fun f => f.number ≠ number) = a.waiting :=
    List.filter_eq_self.2 fun e he => by simpa using hgone e he
  rw [obey, hany, hfilter]

theorem dueIn_schedule (task : α) {delay : Nat} (h : delay < a.size) (d : Nat) :
    (a.obey (.schedule task delay)).2.dueIn d =
      a.dueIn d ++ if d = delay then [(a.accepted, task)] else [] := by
  rw [obey_schedule_of_lt task h, dueIn, List.filter_append, List.map_append, dueIn]
  by_cases hd : d = delay
  · simp [hd]
  · simp [hd, Ne.symm hd]

theorem dueIn_cancel (number d : Nat) :
    (a.obey (.cancel number)).2.dueIn d = (a.dueIn d).filter fun e => e.1 ≠ number := by
  rw [dueIn, dueIn, List.filter_map, List.filter_filter]
  show ((a.waiting.filter _).filter _).map _ = _
  rw [List.filter_filter]
  congr 2
  funext e
  exact Bool.and_comm _ _

theorem dueIn_advance (d : Nat) : (a.obey .advance).2.dueIn d = a.dueIn (d + 1) := by
  rw [dueIn, dueIn]
  show ((a.waiting.filterMap Waiting.closer?).filter _).map _ = _
  induction a.waiting with
  | nil => rfl
  | cons e rest ih =>
    rw [List.filterMap_cons, Waiting.closer?]
    by_cases he : e.remaining = 0
    · rw [if_pos he, List.filter_cons_of_neg (by simp [he])]
      exact ih
    · rw [if_neg he]
      by_cases hd : e.remaining = d + 1
      · rw [List.filter_cons_of_pos (by simp [hd]), List.filter_cons_of_pos (by simp [hd]),
          List.map_cons, List.map_cons, ih]
      · have hd' : ¬ e.remaining - 1 = d := by omega
        rw [List.filter_cons_of_neg (by simpa using hd'),
          List.filter_cons_of_neg (by simpa using hd)]
        exact ih

/-- No task has as much left as the size. -/
theorem Orderly.dueIn_size (h : a.Orderly) : a.dueIn a.size = [] := by
  rw [dueIn, List.filter_eq_nil_iff.2, List.map_nil]
  intro e he
  simpa using Nat.ne_of_lt (h.remaining_lt e he)

/-- The others are those that have at least one advance left. -/
theorem length_waiting_advance (a : Agenda α) :
    (a.obey .advance).2.waiting.length + (a.dueIn 0).length = a.waiting.length := by
  rw [dueIn, List.length_map]
  show (a.waiting.filterMap Waiting.closer?).length + _ = _
  induction a.waiting with
  | nil => rfl
  | cons e rest ih =>
    rw [List.filterMap_cons, Waiting.closer?]
    by_cases he : e.remaining = 0
    · rw [if_pos he, List.filter_cons_of_pos (by simpa using he), List.length_cons,
        List.length_cons]
      dsimp only
      omega
    · rw [if_neg he, List.filter_cons_of_neg (by simpa using he)]
      simp only [List.length_cons]
      omega

/-- One task goes when it is cancelled. -/
theorem Orderly.length_waiting_cancel (h : a.Orderly) {e : Waiting α} (he : e ∈ a.waiting) :
    (a.obey (.cancel e.number)).2.waiting.length + 1 = a.waiting.length := by
  -- numbers are distinct, so no other task has this one
  have hone : a.waiting.countP (fun f => f.number = e.number) = 1 := by
    have hcount := List.count_eq_one_of_mem h.nodup (List.mem_map.2 ⟨e, he, rfl⟩)
    rw [List.count, List.countP_map] at hcount
    rw [← hcount]
    refine List.countP_congr fun f _ => ?_
    simp
  have hall := List.length_eq_countP_add_countP (l := a.waiting) fun f => f.number = e.number
  rw [hone, List.countP_eq_length_filter] at hall
  rw [hall, Nat.add_comm]
  show 1 + (a.waiting.filter _).length = _
  congr 3
  funext f
  simp

/-- The replies tell how many tasks are left. -/
theorem Orderly.tally_obey (h : a.Orderly) (i : Instruction α) :
    (a.obey i).1.tally a.waiting.length = (a.obey i).2.waiting.length := by
  cases i with
  | schedule task delay =>
    rcases Nat.lt_or_ge delay a.size with hdelay | hdelay
    · rw [obey_schedule_of_lt task hdelay]
      show a.waiting.length + 1 = (a.waiting ++ [_]).length
      rw [List.length_append, List.length_singleton]
    · rw [obey_schedule_of_le task hdelay]
      rfl
  | cancel number =>
    by_cases hwaits : ∃ e ∈ a.waiting, e.number = number
    · obtain ⟨e, he, rfl⟩ := hwaits
      have hlength := h.length_waiting_cancel he
      rw [obey_cancel_of_mem he]
      show a.waiting.length - 1 = (a.obey (.cancel e.number)).2.waiting.length
      omega
    · rw [obey_cancel_of_not_mem fun e he hen => hwaits ⟨e, he, hen⟩]
      rfl
  | advance =>
    have hlength := a.length_waiting_advance
    have hfired : (a.dueIn 0).length = ((a.waiting.filter fun e => e.remaining = 0).map
        Waiting.task).length := by rw [dueIn, List.length_map, List.length_map]
    show a.waiting.length - List.length _ = _
    rw [← hfired]
    omega
  | drain => rfl

theorem Orderly.obey (h : a.Orderly) (i : Instruction α) : (a.obey i).2.Orderly := by
  cases i with
  | schedule task delay =>
    rcases Nat.lt_or_ge delay a.size with hdelay | hdelay
    · rw [obey_schedule_of_lt task hdelay]
      refine ⟨?_, ?_, ?_⟩
      · show ((a.waiting ++ [_]).map Waiting.number).Pairwise _
        rw [List.map_append, List.pairwise_append]
        refine ⟨h.ascending, List.pairwise_singleton _ _, ?_⟩
        intro n hn m hm
        obtain ⟨e, he, rfl⟩ := List.mem_map.1 hn
        rw [List.mem_singleton.1 hm]
        exact h.number_lt e he
      · intro e he
        rcases List.mem_append.1 he with he | he
        · exact Nat.lt_succ_of_lt (h.number_lt e he)
        · rw [List.mem_singleton.1 he]
          exact Nat.lt_succ_self _
      · intro e he
        rcases List.mem_append.1 he with he | he
        · exact h.remaining_lt e he
        · rw [List.mem_singleton.1 he]
          exact hdelay
    · rw [obey_schedule_of_le task hdelay]
      exact h
  | cancel number =>
    refine ⟨?_, ?_, ?_⟩
    · exact h.ascending.sublist (List.filter_sublist.map Waiting.number)
    · exact fun e he => h.number_lt e (List.mem_filter.1 he).1
    · exact fun e he => h.remaining_lt e (List.mem_filter.1 he).1
  | advance =>
    refine ⟨?_, ?_, ?_⟩
    · -- numbers do not change, so those that are left ascend as they did
      have hsub : ((a.waiting.filterMap Waiting.closer?).map Waiting.number).Sublist
          (a.waiting.map Waiting.number) := by
        induction a.waiting with
        | nil => exact List.Sublist.refl _
        | cons e rest ih =>
          rw [List.filterMap_cons, Waiting.closer?]
          by_cases he : e.remaining = 0
          · rw [if_pos he]
            exact ih.cons _
          · rw [if_neg he]
            exact ih.cons_cons _
      exact h.ascending.sublist hsub
    · intro e he
      exact h.number_lt { e with remaining := e.remaining + 1 } (mem_filterMap_closer?.1 he)
    · exact fun e he => Nat.lt_of_succ_lt (h.remaining_lt _ (mem_filterMap_closer?.1 he))
  | drain =>
    exact ⟨List.Pairwise.nil, fun e he => absurd he List.not_mem_nil,
      fun e he => absurd he List.not_mem_nil⟩

/-- A task that was accepted before waits after an instruction if the instruction spares it, and it
    waited before with an advance more left in case of an advance. -/
theorem mem_waiting_obey {e : Waiting α} (he : e.number < a.accepted) (i : Instruction α) :
    e ∈ (a.obey i).2.waiting ↔
      i.Spares e.number ∧ { e with remaining := e.remaining + advances [i] } ∈ a.waiting := by
  cases i with
  | schedule task delay =>
    have hnew : e ≠ ⟨delay, a.accepted, task⟩ := fun h => by
      rw [h] at he
      exact Nat.lt_irrefl _ he
    rcases Nat.lt_or_ge delay a.size with hdelay | hdelay
    · rw [obey_schedule_of_lt task hdelay]
      show e ∈ a.waiting ++ [_] ↔ True ∧ e ∈ a.waiting
      simp [hnew]
    · rw [obey_schedule_of_le task hdelay]
      show e ∈ a.waiting ↔ True ∧ e ∈ a.waiting
      simp
  | cancel number =>
    show e ∈ a.waiting.filter _ ↔ number ≠ e.number ∧ e ∈ a.waiting
    rw [List.mem_filter, and_comm, decide_eq_true_iff, ne_comm]
  | advance =>
    show e ∈ a.waiting.filterMap Waiting.closer? ↔ True ∧ _
    rw [mem_filterMap_closer?, true_and]
    rfl
  | drain =>
    show e ∈ [] ↔ False ∧ _
    simp

theorem accepted_le_obey (a : Agenda α) (i : Instruction α) :
    a.accepted ≤ (a.obey i).2.accepted := by
  cases i with
  | schedule task delay =>
    rcases Nat.lt_or_ge delay a.size with hdelay | hdelay
    · rw [obey_schedule_of_lt task hdelay]
      exact Nat.le_succ _
    · exact Nat.le_of_eq (by rw [obey_schedule_of_le task hdelay])
  | cancel number => exact Nat.le_refl _
  | advance => exact Nat.le_refl _
  | drain => exact Nat.le_refl _

theorem size_obey (a : Agenda α) (i : Instruction α) : (a.obey i).2.size = a.size := by
  cases i with
  | schedule task delay =>
    rcases Nat.lt_or_ge delay a.size with hdelay | hdelay
    · rw [obey_schedule_of_lt task hdelay]
    · rw [obey_schedule_of_le task hdelay]
  | cancel number => rfl
  | advance => rfl
  | drain => rfl

theorem size_follow (a : Agenda α) (instructions : List (Instruction α)) :
    (follow obey a instructions).size = a.size := by
  induction instructions generalizing a with
  | nil => rfl
  | cons i rest ih => exact (ih (a.obey i).2).trans (a.size_obey i)

/-- When a task fires: with every advance it has one less left, as long as no instruction takes it
    off before. -/
theorem mem_waiting_follow {e : Waiting α} (he : e.number < a.accepted)
    (instructions : List (Instruction α)) :
    e ∈ (follow obey a instructions).waiting ↔
      (∀ i ∈ instructions, i.Spares e.number) ∧
        { e with remaining := e.remaining + advances instructions } ∈ a.waiting := by
  induction instructions generalizing a with
  | nil =>
    show e ∈ a.waiting ↔ (∀ i ∈ [], _) ∧ e ∈ a.waiting
    simp
  | cons i rest ih =>
    have hrest := ih (a := (a.obey i).2) (Nat.lt_of_lt_of_le he (accepted_le_obey a i))
    have hfirst := mem_waiting_obey (a := a)
      (e := { e with remaining := e.remaining + advances rest }) he i
    have hcount : advances (i :: rest) = advances rest + advances [i] := by
      rw [Nat.add_comm]
      exact @List.countP_append _ _ [i] rest
    show e ∈ (follow Agenda.obey (a.obey i).2 rest).waiting ↔ _
    rw [hrest, hfirst, List.forall_mem_cons, hcount, ← Nat.add_assoc, and_left_comm, and_assoc]

end Agenda

/-! ## The wheel with its tickets -/

/-- A wheel with the tickets that it has given out, in order. -/
structure Ticketed (α : Type) where
  wheel : TimingWheel α
  tickets : List Ticket

/-- The tasks under the cursor with their numbers: those that the next advance fires. -/
def TimingWheel.due (w : TimingWheel α) : List (Nat × α) := (w.bucketAt 0).entries

theorem TimingWheel.advance_fst_eq_due (w : TimingWheel α) : w.advance.1 = w.due.map Prod.snd := by
  rw [advance_fst, pending_eq_values]
  rfl

namespace Ticketed

/-- A new wheel. -/
def ofSize (size : Nat) : Ticketed α := ⟨TimingWheel.ofSize size, []⟩

/-- Follow an instruction. -/
def obey (s : Ticketed α) : Instruction α → Reply α × Ticketed α
  | .schedule task delay =>
    match s.wheel.schedule task delay with
    | .ok (ticket, wheel) => (.ticket s.tickets.length, ⟨wheel, s.tickets ++ [ticket]⟩)
    | .error e => (.refused e, s)
  | .cancel number =>
    match s.tickets[number]? with
    | some ticket => (.cancelled (s.wheel.cancel ticket).1, ⟨(s.wheel.cancel ticket).2, s.tickets⟩)
    | none => (.cancelled false, s)
  | .advance => (.fired s.wheel.advance.1, ⟨s.wheel.advance.2, s.tickets⟩)
  | .drain => (.drained s.wheel.drain.1, ⟨s.wheel.drain.2, s.tickets⟩)

/-- The wheel does what the agenda says. -/
structure Keeps (s : Ticketed α) (a : Agenda α) : Prop where
  orderly : a.Orderly
  size_eq : s.wheel.size = a.size
  nextId_eq : s.wheel.nextId = a.accepted
  length_eq : s.tickets.length = a.accepted
  /-- the place of a ticket is its number -/
  numbered : ∀ (number : Nat) (ticket : Ticket),
    s.tickets[number]? = some ticket → ticket.id = number
  /-- the ticket of a waiting task leads to its bucket -/
  bucket_eq : ∀ e ∈ a.waiting, ∀ ticket : Ticket, s.tickets[e.number]? = some ticket →
    ticket.bucket = (s.wheel.cursor + e.remaining) % s.wheel.size
  /-- the buckets hold what waits -/
  entries_perm : ∀ d < a.size, (s.wheel.bucketAt d).entries.Perm (a.dueIn d)
  /-- the wheel counts what waits -/
  taskCount_eq : s.wheel.taskCount = a.waiting.length

variable {s : Ticketed α} {a : Agenda α}

theorem keeps_ofSize (size : Nat) : (ofSize size : Ticketed α).Keeps (Agenda.ofSize size) where
  orderly := ⟨List.Pairwise.nil, fun e he => absurd he List.not_mem_nil,
    fun e he => absurd he List.not_mem_nil⟩
  size_eq := TimingWheel.size_ofSize size
  nextId_eq := rfl
  length_eq := rfl
  numbered := fun number ticket h => by cases h
  bucket_eq := fun e he => absurd he List.not_mem_nil
  entries_perm := fun d _ => by
    show ((TimingWheel.ofSize size).bucketAt d).entries.Perm []
    rw [TimingWheel.bucketAt_ofSize]
    exact List.Perm.nil
  taskCount_eq := (TimingWheel.taskCount_eq_zero_iff _).2 fun d _ =>
    TimingWheel.pending_ofSize size d

theorem Keeps.mem_keys_iff (h : s.Keeps a) {d number : Nat} (hd : d < a.size) :
    number ∈ (s.wheel.bucketAt d).keys ↔ ∃ e ∈ a.waiting, e.number = number ∧ e.remaining = d := by
  rw [OrderedMap.keys, ((h.entries_perm d hd).map Prod.fst).mem_iff, List.mem_map]
  constructor
  · rintro ⟨⟨n, task⟩, hmem, rfl⟩
    exact ⟨_, Agenda.mem_dueIn.1 hmem, rfl, rfl⟩
  · rintro ⟨e, he, rfl, rfl⟩
    exact ⟨(e.number, e.task), Agenda.mem_dueIn.2 he, rfl⟩

/-- A waiting task has a ticket, which leads to it. -/
theorem Keeps.getElem?_tickets (h : s.Keeps a) {e : Waiting α} (he : e ∈ a.waiting) :
    s.tickets[e.number]? =
      some ⟨(s.wheel.cursor + e.remaining) % s.wheel.size, e.number⟩ := by
  have hlt : e.number < s.tickets.length := by
    rw [h.length_eq]
    exact h.orderly.number_lt e he
  obtain ⟨ticket, ht⟩ : ∃ ticket, s.tickets[e.number]? = some ticket :=
    ⟨_, List.getElem?_eq_getElem hlt⟩
  rw [ht, ← h.bucket_eq e he ticket ht]
  exact congrArg (fun id => some (⟨ticket.bucket, id⟩ : Ticket)) (h.numbered _ _ ht)

/-! ### Every instruction keeps the relation -/

theorem Keeps.schedule (h : s.Keeps a) (task : α) (delay : Nat) :
    Reply.Agrees (s.obey (.schedule task delay)).1 (a.obey (.schedule task delay)).1 ∧
      (s.obey (.schedule task delay)).2.Keeps (a.obey (.schedule task delay)).2 := by
  have horderly := h.orderly.obey (.schedule task delay)
  rcases Nat.lt_or_ge delay a.size with hdelay | hdelay
  · obtain ⟨w, hw, hnextId, hchanged⟩ :=
      s.wheel.schedule_changes task (by rw [h.size_eq]; exact hdelay)
    have hobey : s.obey (.schedule task delay) =
        (.ticket s.tickets.length,
          ⟨w, s.tickets ++ [⟨(s.wheel.cursor + delay) % s.wheel.size, s.wheel.nextId⟩]⟩) := by
      rw [obey, hw]
    have hdue := Agenda.dueIn_schedule task hdelay
    rw [Agenda.obey_schedule_of_lt task hdelay] at horderly hdue ⊢
    rw [hobey, h.length_eq]
    refine ⟨.refl _, horderly, ?_, ?_, ?_, ?_, ?_, ?_, ?_⟩
    · exact hchanged.size_eq.trans h.size_eq
    · exact hnextId.trans (congrArg (· + 1) h.nextId_eq)
    · rw [List.length_append, h.length_eq]
      rfl
    · intro number ticket ht
      rcases Nat.lt_or_ge number s.tickets.length with hlt | hge
      · rw [List.getElem?_append_left hlt] at ht
        exact h.numbered number ticket ht
      · rw [List.getElem?_append_right hge, List.getElem?_singleton] at ht
        split at ht
        · obtain rfl := Option.some.inj ht
          show s.wheel.nextId = number
          rw [h.nextId_eq, ← h.length_eq]
          omega
        · cases ht
    · intro e he ticket ht
      rw [hchanged.size_eq, hchanged.cursor_eq]
      rcases List.mem_append.1 he with he | he
      · have hlt : e.number < s.tickets.length := by
          rw [h.length_eq]
          exact h.orderly.number_lt e he
        rw [List.getElem?_append_left hlt] at ht
        exact h.bucket_eq e he ticket ht
      · obtain rfl := List.mem_singleton.1 he
        have ht : (s.tickets ++ [_])[a.accepted]? = some ticket := ht
        rw [← h.length_eq, List.getElem?_concat_length] at ht
        rw [← Option.some.inj ht]
    · intro d hd
      have hd' : d < s.wheel.size := by rw [h.size_eq]; exact hd
      rw [hdue, hchanged.entries_insert hd', h.nextId_eq]
      exact (h.entries_perm d hd).append_right _
    · rw [TimingWheel.taskCount_schedule hw, h.taskCount_eq, List.length_append]
      rfl
  · have hle : s.wheel.size ≤ delay := by rw [h.size_eq]; exact hdelay
    have hw := s.wheel.schedule_of_le task hle
    have hobey : s.obey (.schedule task delay) = (.refused ⟨delay, s.wheel.size⟩, s) := by
      rw [obey, hw]
    rw [hobey, Agenda.obey_schedule_of_le task hdelay, h.size_eq]
    exact ⟨.refl _, h⟩

/-- A task that waits is cancelled by its own ticket. -/
theorem Keeps.cancel_of_waiting (h : s.Keeps a) {e : Waiting α} (he : e ∈ a.waiting) :
    Reply.Agrees (s.obey (.cancel e.number)).1 (a.obey (.cancel e.number)).1 ∧
      (s.obey (.cancel e.number)).2.Keeps (a.obey (.cancel e.number)).2 := by
  have hd : e.remaining < s.wheel.size := by
    rw [h.size_eq]
    exact h.orderly.remaining_lt e he
  have hmem : e.number ∈ (s.wheel.bucketAt e.remaining).keys :=
    (h.mem_keys_iff (h.orderly.remaining_lt e he)).2 ⟨e, he, rfl, rfl⟩
  obtain ⟨w, hw, hnextId, hchanged⟩ := s.wheel.cancel_of_mem hd hmem
  have hobey : s.obey (.cancel e.number) = (.cancelled true, ⟨w, s.tickets⟩) := by
    simp only [obey, h.getElem?_tickets he, hw]
  rw [hobey, Agenda.obey_cancel_of_mem he]
  refine ⟨.refl _, h.orderly.obey _, hchanged.size_eq.trans h.size_eq, hnextId.trans h.nextId_eq,
    h.length_eq, h.numbered, ?_, ?_, ?_⟩
  · intro f hf ticket ht
    rw [hchanged.size_eq, hchanged.cursor_eq]
    exact h.bucket_eq f (List.mem_filter.1 hf).1 ticket ht
  · intro d hd'
    rw [Agenda.dueIn_cancel, hchanged.bucketAt_eq (by rw [h.size_eq]; exact hd')]
    split
    · exact (OrderedMap.entries_swapRemove_perm _ _).trans ((h.entries_perm d hd').filter _)
    · -- the number is in no other bucket
      rename_i hne
      rw [List.filter_eq_self.2]
      · exact h.entries_perm d hd'
      · rintro ⟨n, task⟩ hn
        rw [decide_eq_true_iff]
        intro heq
        have hsame := h.orderly.eq_of_number_eq (Agenda.mem_dueIn.1 hn) he heq
        exact hne (congrArg Waiting.remaining hsame)
  · have hcount := hchanged.taskCount_eq
    have hlength := h.orderly.length_waiting_cancel he
    have hbucket := OrderedMap.size_swapRemove hmem
    rw [h.taskCount_eq] at hcount
    show w.taskCount = (a.obey (.cancel e.number)).2.waiting.length
    omega

/-- A ticket whose task does not wait any more has no effect. -/
theorem Keeps.cancel_of_gone (h : s.Keeps a) {number : Nat}
    (hgone : ∀ e ∈ a.waiting, e.number ≠ number) :
    Reply.Agrees (s.obey (.cancel number)).1 (a.obey (.cancel number)).1 ∧
      (s.obey (.cancel number)).2.Keeps (a.obey (.cancel number)).2 := by
  have hobey : s.obey (.cancel number) = (.cancelled false, s) := by
    rw [obey]
    split
    · rename_i ticket ht
      rw [TimingWheel.cancel_of_not_mem]
      intro d hd hmem
      rw [h.numbered _ _ ht, h.mem_keys_iff (by rw [← h.size_eq]; exact hd)] at hmem
      obtain ⟨e, he, hen, -⟩ := hmem
      exact hgone e he hen
    · rfl
  rw [hobey, Agenda.obey_cancel_of_not_mem hgone]
  exact ⟨.refl _, h⟩

theorem Keeps.advance (h : s.Keeps a) :
    Reply.Agrees (s.obey .advance).1 (a.obey .advance).1 ∧
      (s.obey .advance).2.Keeps (a.obey .advance).2 := by
  have hpos : 0 < a.size := by
    rw [← h.size_eq]
    exact s.wheel.size_pos
  -- the cursor moves on, and what is left shrinks, so tickets lead where they led before
  refine ⟨.fired ?_, h.orderly.obey _, ?_, h.nextId_eq, h.length_eq, h.numbered, ?_, ?_, ?_⟩
  · have hdue := (h.entries_perm 0 hpos).map Prod.snd
    rw [Agenda.dueIn, List.map_map] at hdue
    rw [TimingWheel.advance_fst_eq_due]
    exact hdue
  · exact (s.wheel.size_advance).trans h.size_eq
  · intro e he ticket ht
    rw [h.bucket_eq _ (Agenda.mem_filterMap_closer?.1 he) ticket ht]
    show _ = ((s.wheel.cursor + 1) % s.wheel.size + e.remaining) % s.wheel.advance.2.size
    rw [s.wheel.size_advance, Nat.mod_add_mod, Nat.add_assoc, Nat.add_comm 1]
  · intro d hd
    have hd' : d < s.wheel.size := by rw [h.size_eq]; exact hd
    rw [Agenda.dueIn_advance]
    show (s.wheel.advance.2.bucketAt d).entries.Perm _
    rw [s.wheel.bucketAt_advance hd']
    split
    · rename_i hlast
      rw [hlast, h.size_eq, h.orderly.dueIn_size]
      exact List.Perm.nil
    · exact h.entries_perm (d + 1) (by rw [← h.size_eq]; omega)
  · have hwheel := s.wheel.taskCount_advance
    have hagenda := a.length_waiting_advance
    have hdue := (h.entries_perm 0 hpos).length_eq
    rw [TimingWheel.advance_fst_eq_due, List.length_map, h.taskCount_eq] at hwheel
    show s.wheel.advance.2.taskCount = _
    have hfired : s.wheel.due.length = (a.dueIn 0).length := hdue
    omega

/-- Sorting by a number below a bound, and putting together again. -/
theorem flatMap_filter_perm {β : Type} (f : β → Nat) (l : List β) (n : Nat) :
    ((List.range n).flatMap fun d => l.filter fun e => f e = d).Perm
      (l.filter fun e => f e < n) := by
  induction n with
  | zero => simp
  | succ n ih =>
    -- what is below the next bound is below this one, or is this one
    have hsplit := List.filter_append_perm (fun e => f e < n) (l.filter fun e => f e < n + 1)
    rw [List.filter_filter, List.filter_filter] at hsplit
    have hbelow : (l.filter fun e => decide (f e < n) && decide (f e < n + 1)) =
        l.filter fun e => f e < n := by
      congr 1
      funext e
      rw [← Bool.decide_and, decide_eq_decide]
      omega
    have hlast : (l.filter fun e => !decide (f e < n) && decide (f e < n + 1)) =
        l.filter fun e => f e = n := by
      congr 1
      funext e
      rw [← decide_not, ← Bool.decide_and, decide_eq_decide]
      omega
    rw [hbelow, hlast] at hsplit
    rw [List.range_succ, List.flatMap_append, List.flatMap_singleton]
    exact (ih.append_right _).trans hsplit

theorem Keeps.drain (h : s.Keeps a) :
    Reply.Agrees (s.obey .drain).1 (a.obey .drain).1 ∧
      (s.obey .drain).2.Keeps (a.obey .drain).2 := by
  refine ⟨.drained ?_, h.orderly.obey _, (s.wheel.size_drain).trans h.size_eq, h.nextId_eq,
    h.length_eq, h.numbered, fun e he => absurd he List.not_mem_nil, ?_, ?_⟩
  · have hall : a.waiting.filter (fun e => e.remaining < a.size) = a.waiting :=
      List.filter_eq_self.2 fun e he => decide_eq_true (h.orderly.remaining_lt e he)
    -- the agenda sorted by what is left, to be compared with the buckets one by one
    have hsorted := flatMap_filter_perm Waiting.remaining a.waiting a.size
    rw [hall] at hsorted
    have htasks := hsorted.map fun e => (e.remaining, e.task)
    rw [List.map_flatMap] at htasks
    rw [TimingWheel.drain_fst, h.size_eq]
    refine (List.Perm.flatMap_left _ fun d hd => ?_).trans htasks
    have hdue := (h.entries_perm d (List.mem_range.1 hd)).map fun e => (d, e.2)
    rw [Agenda.dueIn, List.map_map] at hdue
    rw [TimingWheel.pending_eq_values, OrderedMap.values, List.map_map]
    refine hdue.trans (List.Perm.of_eq (List.map_congr_left fun e he => ?_))
    rw [← of_decide_eq_true (List.mem_filter.1 he).2]
    rfl
  · intro d _
    show (s.wheel.drain.2.bucketAt d).entries.Perm []
    rw [TimingWheel.bucketAt_drain]
    exact List.Perm.nil
  · exact (TimingWheel.taskCount_eq_zero_iff _).2 fun d _ => s.wheel.pending_drain d

/-- Every instruction gets the reply that the agenda gives, and keeps the relation. -/
theorem Keeps.obey (h : s.Keeps a) (i : Instruction α) :
    Reply.Agrees (s.obey i).1 (a.obey i).1 ∧ (s.obey i).2.Keeps (a.obey i).2 := by
  cases i with
  | schedule task delay => exact h.schedule task delay
  | cancel number =>
    by_cases hwaits : ∃ e ∈ a.waiting, e.number = number
    · obtain ⟨e, he, rfl⟩ := hwaits
      exact h.cancel_of_waiting he
    · exact h.cancel_of_gone fun e he hen => hwaits ⟨e, he, hen⟩
  | advance => exact h.advance
  | drain => exact h.drain

/-- So does every sequence of instructions. -/
theorem Keeps.follow (h : s.Keeps a) (instructions : List (Instruction α)) :
    List.Forall₂ Reply.Agrees (replies Ticketed.obey s instructions)
        (replies Agenda.obey a instructions) ∧
      (follow Ticketed.obey s instructions).Keeps (follow Agenda.obey a instructions) := by
  induction instructions generalizing s a with
  | nil => exact ⟨.nil, h⟩
  | cons i rest ih =>
    obtain ⟨hreply, hnext⟩ := h.obey i
    obtain ⟨hreplies, hlast⟩ := ih hnext
    exact ⟨.cons hreply hreplies, hlast⟩

/-- The count that is kept by hand is the number of tasks. -/
theorem Keeps.tally_follow (h : s.Keeps a) (instructions : List (Instruction α)) :
    (replies Ticketed.obey s instructions).foldl Reply.tally s.wheel.taskCount =
      (Engine.follow Ticketed.obey s instructions).wheel.taskCount := by
  induction instructions generalizing s a with
  | nil => rfl
  | cons i rest ih =>
    obtain ⟨hreply, hnext⟩ := h.obey i
    have hone : (s.obey i).1.tally s.wheel.taskCount = (s.obey i).2.wheel.taskCount := by
      rw [hreply.tally_eq, h.taskCount_eq, h.orderly.tally_obey, hnext.taskCount_eq]
    show List.foldl _ ((s.obey i).1.tally s.wheel.taskCount) _ = _
    rw [hone]
    exact ih hnext

/-! ### Order -/

/-- The tasks of a bucket stand in the order in which they were scheduled. -/
def InOrder (s : Ticketed α) (a : Agenda α) : Prop :=
  ∀ d < a.size, (s.wheel.bucketAt d).entries = a.dueIn d

/-- Only cancelling disturbs the order. -/
theorem InOrder.obey (ho : s.InOrder a) (h : s.Keeps a) {i : Instruction α}
    (hi : ∀ number, i ≠ .cancel number) : (s.obey i).2.InOrder (a.obey i).2 := by
  intro d hd
  cases i with
  | schedule task delay =>
    rcases Nat.lt_or_ge delay a.size with hdelay | hdelay
    · obtain ⟨w, hw, -, hchanged⟩ :=
        s.wheel.schedule_changes task (by rw [h.size_eq]; exact hdelay)
      rw [Agenda.obey_schedule_of_lt task hdelay] at hd
      have hobey : (s.obey (.schedule task delay)).2.wheel = w := by rw [Ticketed.obey, hw]
      rw [hobey, Agenda.dueIn_schedule task hdelay,
        hchanged.entries_insert (by rw [h.size_eq]; exact hd), h.nextId_eq, ho d hd]
    · have hle : s.wheel.size ≤ delay := by rw [h.size_eq]; exact hdelay
      have hw := s.wheel.schedule_of_le task hle
      rw [Agenda.obey_schedule_of_le task hdelay] at hd ⊢
      rw [Ticketed.obey, hw]
      exact ho d hd
  | cancel number => exact absurd rfl (hi number)
  | advance =>
    have hd' : d < s.wheel.size := by rw [h.size_eq]; exact hd
    rw [Agenda.dueIn_advance]
    show (s.wheel.advance.2.bucketAt d).entries = _
    rw [s.wheel.bucketAt_advance hd']
    split
    · rename_i hlast
      rw [hlast, h.size_eq, h.orderly.dueIn_size]
      rfl
    · exact ho (d + 1) (by rw [← h.size_eq]; omega)
  | drain =>
    show (s.wheel.drain.2.bucketAt d).entries = []
    rw [TimingWheel.bucketAt_drain]
    rfl

theorem InOrder.follow (ho : s.InOrder a) (h : s.Keeps a) {instructions : List (Instruction α)}
    (hi : ∀ number, .cancel number ∉ instructions) :
    (follow Ticketed.obey s instructions).InOrder (follow Agenda.obey a instructions) := by
  induction instructions generalizing s a with
  | nil => exact ho
  | cons i rest ih =>
    have hfirst : ∀ number, i ≠ .cancel number := fun number hc =>
      hi number (List.mem_cons.2 (.inl hc.symm))
    exact ih (ho.obey h hfirst) (h.obey i).2 fun number hmem =>
      hi number (List.mem_cons_of_mem _ hmem)

theorem inOrder_ofSize (size : Nat) : (ofSize size : Ticketed α).InOrder (Agenda.ofSize size) := by
  intro d _
  show ((TimingWheel.ofSize size).bucketAt d).entries = []
  rw [TimingWheel.bucketAt_ofSize]
  rfl

/-! ### When a task fires -/

/-- An accepted task has the number of its ticket.  From then on it is in the bucket of the delay
    that the advances have left of its own, until it is taken off. -/
theorem Keeps.mem_entries_follow (h : s.Keeps a) (task : α) {delay : Nat} (hdelay : delay < a.size)
    (after : List (Instruction α)) {d : Nat} (hd : d < a.size) (task' : α) :
    (s.tickets.length, task') ∈
        ((Engine.follow Ticketed.obey s (.schedule task delay :: after)).wheel.bucketAt d).entries ↔
      task' = task ∧ d + advances after = delay ∧ ∀ i ∈ after, i.Spares s.tickets.length := by
  obtain ⟨-, hlast⟩ := h.follow (.schedule task delay :: after)
  have hsize := Agenda.size_follow a (.schedule task delay :: after)
  rw [(hlast.entries_perm d (hsize.symm ▸ hd)).mem_iff, Agenda.mem_dueIn, h.length_eq]
  have hnew : a.accepted < (a.obey (.schedule task delay)).2.accepted := by
    rw [Agenda.obey_schedule_of_lt task hdelay]
    exact Nat.lt_succ_self _
  show _ ∈ (Engine.follow Agenda.obey (a.obey (.schedule task delay)).2 after).waiting ↔ _
  rw [Agenda.mem_waiting_follow hnew, Agenda.obey_schedule_of_lt task hdelay]
  show _ ∧ _ ∈ a.waiting ++ [_] ↔ _
  rw [List.mem_append, List.mem_singleton]
  constructor
  · rintro ⟨hspares, hold | hself⟩
    · exact absurd (h.orderly.number_lt _ hold) (Nat.lt_irrefl _)
    · obtain ⟨hd, -, ht⟩ := (Waiting.mk.injEq ..).mp hself
      exact ⟨ht, hd, hspares⟩
  · rintro ⟨rfl, hd, hspares⟩
    exact ⟨hspares, .inr (by rw [← hd])⟩

end Ticketed

/-- The wheel is an agenda.  Whatever it is told, it replies what the agenda replies, up to the
    order of the tasks in a reply, and holds what the agenda holds; the count kept by hand is right.
    Without cancelling, tasks that are due together come in the order in which they were scheduled.
    An accepted task is among those that the next advance fires if as many advances have passed as
    its delay says, and nothing has taken it off. -/
theorem wheel_keeps_agenda (size : Nat) (instructions : List (Instruction α)) :
    let new := Ticketed.ofSize size
    let last := follow Ticketed.obey new instructions
    let agenda := follow Agenda.obey (Agenda.ofSize size) instructions
    List.Forall₂ Reply.Agrees (replies Ticketed.obey new instructions)
        (replies Agenda.obey (Agenda.ofSize size) instructions) ∧
      last.Keeps agenda ∧
      (replies Ticketed.obey new instructions).foldl Reply.tally 0 = last.wheel.taskCount ∧
      last.wheel.advance.1 = last.wheel.due.map Prod.snd ∧
      ((∀ number, .cancel number ∉ instructions) → last.wheel.due = agenda.dueIn 0) ∧
      ∀ before task delay after, instructions = before ++ .schedule task delay :: after →
        delay < max size 1 → ∀ task',
          ((follow Ticketed.obey new before).tickets.length, task') ∈ last.wheel.due ↔
            task' = task ∧ advances after = delay ∧
              ∀ i ∈ after, i.Spares (follow Ticketed.obey new before).tickets.length := by
  intro new last agenda
  have hnew : new.Keeps (Agenda.ofSize size) := Ticketed.keeps_ofSize size
  obtain ⟨hreplies, hlast⟩ := hnew.follow instructions
  have hsize : agenda.size = max size 1 := Agenda.size_follow _ instructions
  have hpos : 0 < agenda.size := hsize ▸ Nat.lt_of_lt_of_le Nat.zero_lt_one (Nat.le_max_right _ _)
  have hzero : new.wheel.taskCount = 0 := hnew.taskCount_eq
  refine ⟨hreplies, hlast, ?_, TimingWheel.advance_fst_eq_due _, ?_, ?_⟩
  · rw [← hzero]
    exact hnew.tally_follow instructions
  · exact fun hi => (Ticketed.inOrder_ofSize size).follow hnew hi 0 hpos
  · intro before task delay after hsplit hdelay task'
    have hbefore : (follow Ticketed.obey new before).Keeps _ := (hnew.follow before).2
    have hsize' : (follow Agenda.obey (Agenda.ofSize size : Agenda α) before).size = max size 1 :=
      Agenda.size_follow _ before
    have hfires := hbefore.mem_entries_follow task (hsize'.symm ▸ hdelay) after
      ((hsize'.trans hsize.symm).symm ▸ hpos) task'
    rw [Nat.zero_add] at hfires
    show _ ∈ ((follow Ticketed.obey new instructions).wheel.bucketAt 0).entries ↔ _
    rw [hsplit, follow, List.foldl_append]
    exact hfires

/-- On a wheel of size 3 a task with delay 2 fires on the third advance, although the ticket of
    another was cancelled in between. -/
theorem wheel_keeps_agenda_third_advance :
    (1, 20) ∈ (follow Ticketed.obey (Ticketed.ofSize 3)
      [.schedule 10 2, .schedule 20 2, .advance, .cancel 0, .advance]).wheel.due := by
  have hfires := (wheel_keeps_agenda 3
    [.schedule 10 2, .schedule 20 2, .advance, .cancel 0, .advance]).2.2.2.2.2
    [.schedule 10 2] 20 2 [.advance, .cancel 0, .advance] rfl (by decide) 20
  refine hfires.2 ⟨rfl, rfl, ?_⟩
  intro i hi
  simp only [List.mem_cons, List.not_mem_nil, or_false] at hi
  rcases hi with rfl | rfl | rfl
  · exact True.intro
  · exact Nat.zero_ne_one
  · exact True.intro

end BlockAutomata.Engine
