/-
  What an action does to the channels of one cell.

  1. `Action.applied` and `Outcome.applied` say what the channels of a cell are once an action, or
     all actions of an outcome in turn, have been written into it.  Guards, delays and the number of
     channels that a cell has are not their concern.

  2. `Action.attempt` takes guard and number of channels into account: where the guard holds, the
     action is applied in the channels that the cell has; where it does not, nothing happens.

  3. `Action.modifies` tells whether applying the action counts as a modification.  This is more
     than a change of the channels: a reset of a cell that is not empty counts even if the action
     then writes what was there before (`modifies_iff`).
-/
import BlockAutomata.Action
import BlockAutomata.Proofs.Tables

namespace BlockAutomata

/-- The channels of a cell after the action has been written into it. -/
def Action.applied (a : Action) (own : Nat → Int64) : Nat → Int64 := fun slot =>
  (a.writes.get? slot).getD (if a.reset then 0 else own slot)

/-- The channels of a cell after all actions of the outcome, one after the other. -/
def Outcome.applied (o : Outcome) (own : Nat → Int64) : Nat → Int64 :=
  o.actions.foldl (fun own a => a.applied own) own

/-- The events of all actions in order. -/
def Outcome.events (o : Outcome) : List Event := o.actions.flatMap Action.events

theorem Outcome.applied_append (a b : Outcome) (own : Nat → Int64) :
    (a ++ b).applied own = b.applied (a.applied own) := by
  rw [applied, actions_append, List.foldl_append]
  rfl

theorem Outcome.events_append (a b : Outcome) : (a ++ b).events = a.events ++ b.events := by
  rw [events, actions_append, List.flatMap_append]
  rfl

theorem Action.applied_of_isEmpty {a : Action} (hw : a.writes.isEmpty = true)
    (hr : a.reset = false) (own : Nat → Int64) : a.applied own = own := by
  funext slot
  rw [applied, SlotMap.isEmpty_iff.1 hw slot, hr]
  rfl

/-- The channels of a cell with this many of them, after the action has been attempted on it. -/
def Action.attempt (channels : Nat) (own : Nat → Int64) (a : Action) : Nat → Int64 :=
  if a.guardHolds own then fun slot => if slot < channels then a.applied own slot else own slot
  else own

/-- A channel after an attempt was either applied to or left alone. -/
theorem Action.attempt_eq_or (channels : Nat) (own : Nat → Int64) (a : Action) (slot : Nat) :
    a.attempt channels own slot = a.applied own slot ∨ a.attempt channels own slot = own slot := by
  unfold attempt
  split
  · dsimp only
    split
    · exact Or.inl rfl
    · exact Or.inr rfl
  · exact Or.inr rfl

/-- Whether the action resets a channel that is not 0, or writes one that then holds another
    value. -/
def Action.modifies (channels : Nat) (own : Nat → Int64) (a : Action) : Bool :=
  (a.reset && (List.range channels).any fun slot => own slot != 0) ||
    a.writes.entries.any fun e =>
      decide (e.1 < channels) && (if a.reset then 0 else own e.1) != e.2

/-- An action whose guard holds counts as a modification if it changes a channel, or if it resets a
    cell with a channel that is not 0. -/
theorem Action.modifies_iff {channels : Nat} {own : Nat → Int64} {a : Action}
    (hguard : a.guardHolds own = true) (hown : ∀ slot, channels ≤ slot → own slot = 0) :
    a.modifies channels own = true ↔
      (∃ slot, a.attempt channels own slot ≠ own slot) ∨
        (a.reset = true ∧ ∃ slot, own slot ≠ 0) := by
  have hattempt : ∀ slot, a.attempt channels own slot =
      if slot < channels then a.applied own slot else own slot := by
    intro slot
    rw [attempt, if_pos hguard]
  have hmodifies : a.modifies channels own = true ↔
      (a.reset = true ∧ ∃ slot < channels, own slot ≠ 0) ∨
        ∃ slot value, a.writes.get? slot = some value ∧ slot < channels ∧
          (if a.reset then 0 else own slot) ≠ value := by
    simp [modifies, SlotMap.get?_eq_some_iff]
  by_cases hemptied : a.reset = true ∧ ∃ slot, own slot ≠ 0
  · obtain ⟨hreset, slot, hne⟩ := hemptied
    have hslot : slot < channels := Nat.lt_of_not_le fun hle => hne (hown slot hle)
    rw [hmodifies]
    exact iff_of_true (Or.inl ⟨hreset, slot, hslot, hne⟩) (Or.inr ⟨hreset, slot, hne⟩)
  · -- the reset makes no difference, so all depends on what is written
    have hkept : ∀ slot, (if a.reset then 0 else own slot) = own slot := by
      intro slot
      split
      · rename_i hreset
        exact Decidable.not_not.1 fun hne => hemptied ⟨hreset, slot, Ne.symm hne⟩
      · rfl
    have hnone : ¬ (a.reset = true ∧ ∃ slot < channels, own slot ≠ 0) :=
      fun ⟨hreset, slot, _, hne⟩ => hemptied ⟨hreset, slot, hne⟩
    rw [hmodifies, or_iff_right hnone, or_iff_left hemptied]
    refine exists_congr fun slot => ?_
    rw [hattempt, applied, hkept]
    cases a.writes.get? slot with
    | none => simp
    | some value => by_cases hslot : slot < channels <;> simp [hslot, eq_comm]

end BlockAutomata
