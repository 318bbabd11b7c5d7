/-
  What an interpreter does to the channels of a cell.

  1. `get?_perform` says what one effect demands of a slot: a write demands one slot, a copy all
     slots that the rules know of, an event none.

  2. An interpreter answers with at most one action, and that action writes exactly the demanded
     values that differ from what is there (`writes_of_mem_actions`).

  3. Dropping the others changes nothing, so applying the outcome leaves in each slot the demanded
     value, or the old one where nothing is demanded (`outcome_applied`).  The events of the outcome
     are the demanded ones (`events_outcome`).
-/
import BlockAutomata.Proofs.Actions
import BlockAutomata.Proofs.Tables
import BlockAutomata.Script.Interpreter

namespace BlockAutomata

namespace Script.Interpreter

/-! ## Demands -/

/-- Writing a value for every slot below `n`. -/
theorem get?_foldl_insert_range (n : Nat) (g : Nat → Int64) (m : SlotMap) (slot : Nat) :
    ((List.range n).foldl (fun w s => w.insert s (g s)) m).get? slot =
      if slot < n then some (g slot) else m.get? slot := by
  induction n with
  | zero => simp
  | succ n ih =>
    rw [List.range_succ, List.foldl_append, List.foldl_cons, List.foldl_nil, SlotMap.get?_insert,
      ih]
    by_cases h : slot = n
    · subst h; simp
    · by_cases hlt : slot < n
      · simp [h, hlt, Nat.lt_succ_of_lt hlt]
      · have hge : ¬ slot < n + 1 := by omega
        simp [h, hlt, hge]

/-- What one effect demands of a slot. -/
theorem get?_perform (channels : Nat) (v : View) (d : Demand) (e : Effect) (slot : Nat) :
    (perform channels v d e).writes.get? slot =
      match e with
      | .set s e => if slot = s then some (e.eval v) else d.writes.get? slot
      | .copy o => if slot < channels then some (v.read o slot) else d.writes.get? slot
      | .raise _ _ => d.writes.get? slot := by
  cases e with
  | set s e => exact SlotMap.get?_insert d.writes s slot (e.eval v)
  | copy o => exact get?_foldl_insert_range channels (v.read o) d.writes slot
  | raise name e => rfl

/-! ## Outcomes -/

/-- The demanded values that differ from those of the cell. -/
def changes (i : Interpreter) (v : View) : SlotMap :=
  (i.demand v).writes.filter fun s value => v.own s != value

theorem outcome_eq (i : Interpreter) (v : View) :
    i.outcome v =
      if !(i.changes v).isEmpty then
        .one { Action.write (i.changes v) with events := (i.demand v).events }
      else if !(i.demand v).events.isEmpty then .one (Action.announce (i.demand v).events)
      else .idle := rfl

/-- The answer: a write of what changes, or events alone, or nothing. -/
theorem outcome_cases (i : Interpreter) (v : View) :
    ((i.changes v).isEmpty = false ∧
        i.outcome v = .one { Action.write (i.changes v) with events := (i.demand v).events }) ∨
      ((i.changes v).isEmpty = true ∧ i.outcome v = .one (Action.announce (i.demand v).events)) ∨
      ((i.changes v).isEmpty = true ∧ i.outcome v = .idle ∧ (i.demand v).events = []) := by
  rw [outcome_eq]
  cases hc : (i.changes v).isEmpty with
  | false => exact Or.inl ⟨rfl, rfl⟩
  | true =>
    cases he : (i.demand v).events.isEmpty with
    | false => exact Or.inr (Or.inl ⟨rfl, rfl⟩)
    | true => exact Or.inr (Or.inr ⟨rfl, rfl, List.isEmpty_iff.1 he⟩)

/-- Every action of the outcome writes what changes, at once and unguarded, and wakes the cube
    around the cell when it writes anything. -/
theorem writes_of_mem_actions {i : Interpreter} {v : View} {a : Action}
    (h : a ∈ (i.outcome v).actions) :
    (∀ slot, a.writes.get? slot = (i.changes v).get? slot) ∧ a.reset = false ∧ a.guard = none ∧
      a.delay = 0 ∧ (a.writes.isEmpty = false → a.wake = Neighborhood.moore3dSelf) := by
  rcases outcome_cases i v with ⟨_, ho⟩ | ⟨hc, ho⟩ | ⟨_, ho, -⟩
  · rw [ho] at h
    rw [List.mem_singleton.1 h]
    exact ⟨fun _ => rfl, rfl, rfl, rfl, fun _ => rfl⟩
  · rw [ho] at h
    rw [List.mem_singleton.1 h]
    exact ⟨fun slot => (SlotMap.isEmpty_iff.1 hc slot).symm, rfl, rfl, rfl, fun hw => by cases hw⟩
  · rw [ho] at h
    cases h

/-- What changes is the demanded value, where it differs from the old one. -/
theorem getD_changes (i : Interpreter) (v : View) (slot : Nat) :
    ((i.changes v).get? slot).getD (v.own slot) =
      ((i.demand v).writes.get? slot).getD (v.own slot) := by
  rw [changes, SlotMap.get?_filter]
  cases h : (i.demand v).writes.get? slot with
  | none => rfl
  | some value =>
    by_cases hv : v.own slot = value
    · simp [hv, Option.filter]
    · simp [hv, Option.filter]

/-- Applying the outcome, to whatever channels, writes what changes and leaves the rest. -/
theorem outcome_applied_to (i : Interpreter) (v : View) (own : Nat → Int64) (slot : Nat) :
    (i.outcome v).applied own slot = ((i.changes v).get? slot).getD (own slot) := by
  rcases outcome_cases i v with ⟨_, ho⟩ | ⟨hc, ho⟩ | ⟨hc, ho, -⟩
  · rw [ho]
    rfl
  · rw [ho, SlotMap.isEmpty_iff.1 hc slot]
    rfl
  · rw [ho, SlotMap.isEmpty_iff.1 hc slot]
    rfl

/-- Applying the outcome leaves in each slot what is demanded, or else what was there. -/
theorem outcome_applied (i : Interpreter) (v : View) (slot : Nat) :
    (i.outcome v).applied v.own slot = ((i.demand v).writes.get? slot).getD (v.own slot) := by
  rw [outcome_applied_to, getD_changes]

/-- The outcome raises the demanded events. -/
theorem events_outcome (i : Interpreter) (v : View) :
    (i.outcome v).events = (i.demand v).events := by
  rcases outcome_cases i v with ⟨_, ho⟩ | ⟨_, ho⟩ | ⟨_, ho, he⟩
  · rw [ho]
    exact List.append_nil _
  · rw [ho]
    exact List.append_nil _
  · rw [ho, he]
    rfl

end Script.Interpreter

end BlockAutomata
