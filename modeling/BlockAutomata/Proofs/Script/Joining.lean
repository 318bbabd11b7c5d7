/-
  Two rule lists side by side, and one after the other.

  1. Combined rules answer with the outcomes of the parts in turn (`outcome_combined`).  Each part
     has dropped the writes that would not change the cell before it answers.

  2. Rules in one list ask for what the first rules ask for, and what the later ones ask for takes
     precedence (`demand_append`); this holds because each effect asks for the same whatever was
     asked for before (`Continues.perform`).

  3. So both raise the same events in the same order, and they leave the same in each channel but
     for one case (`combined_outcome`): the later rules ask for the value that the channel has, and
     the first ones for another.  In one list the channel keeps its value; side by side, this part
     of the answer has been dropped, and the first rules have their way.
-/
import BlockAutomata.Proofs.Combination
import BlockAutomata.Proofs.Script.Footprint

namespace BlockAutomata.Script

/-! ## One demand after another -/

/-- The last demand is what the second one adds to the first. -/
structure Demand.Continues (first second both : Demand) : Prop where
  writes : ∀ slot, both.writes.get? slot = (second.writes.get? slot).or (first.writes.get? slot)
  events : both.events = first.events ++ second.events

namespace Demand.Continues

variable {first second both : Demand} (channels : Nat) (v : View)

theorem refl (first : Demand) : Continues first ⟨SlotMap.empty, []⟩ first :=
  ⟨fun _ => rfl, (List.append_nil _).symm⟩

/-- An effect asks for the same, whatever was asked for before. -/
theorem perform (h : Continues first second both) (e : Effect) :
    Continues first (Interpreter.perform channels v second e)
      (Interpreter.perform channels v both e) := by
  constructor
  · intro slot
    rw [Interpreter.get?_perform, Interpreter.get?_perform]
    cases e with
    | set s e =>
      dsimp only
      split
      · rfl
      · exact h.writes slot
    | copy o =>
      dsimp only
      split
      · rfl
      · exact h.writes slot
    | raise name e => exact h.writes slot
  · cases e with
    | set s e => exact h.events
    | copy o => exact h.events
    | raise name e =>
      show both.events ++ _ = first.events ++ (second.events ++ _)
      rw [h.events, List.append_assoc]

theorem foldl_perform (h : Continues first second both) (effects : List Effect) :
    Continues first (effects.foldl (Interpreter.perform channels v) second)
      (effects.foldl (Interpreter.perform channels v) both) := by
  induction effects generalizing second both with
  | nil => exact h
  | cons e effects ih => exact ih (h.perform channels v e)

/-- A rule asks for the same, whatever was asked for before. -/
theorem fire (h : Continues first second both) (r : Rule) :
    Continues first (Interpreter.fire channels v second r)
      (Interpreter.fire channels v both r) := by
  rw [Interpreter.fire, Interpreter.fire]
  split
  · exact h.foldl_perform channels v r.effects
  · exact h

theorem foldl_fire (h : Continues first second both) (rules : List Rule) :
    Continues first (rules.foldl (Interpreter.fire channels v) second)
      (rules.foldl (Interpreter.fire channels v) both) := by
  induction rules generalizing second both with
  | nil => exact h
  | cons r rules ih => exact ih (h.fire channels v r)

end Demand.Continues

namespace Interpreter

variable {P Q : List Rule} {slots : SlotTable}

/-- Rules in one list ask for what the first ones ask for and then for what the later ones do. -/
theorem demand_append (hslots : ∀ r ∈ P ++ Q, ∀ s ∈ r.slots, s ≤ slots.size) (v : View) :
    ((ofRules P slots).demand v).Continues ((ofRules Q slots).demand v)
      ((ofRules (P ++ Q) slots).demand v) := by
  have hP := channels_ofRules fun r hr => hslots r (List.mem_append_left Q hr)
  have hQ := channels_ofRules fun r hr => hslots r (List.mem_append_right P hr)
  have hdemand : ∀ rules, (ofRules rules slots).demand v =
      rules.foldl (fire (ofRules rules slots).channels v) ⟨SlotMap.empty, []⟩ := fun _ => rfl
  rw [hdemand P, hdemand Q, hdemand (P ++ Q), hP, hQ, channels_ofRules hslots, List.foldl_append]
  exact (Demand.Continues.refl _).foldl_fire _ v Q

/-! ## Side by side -/

/-- Rules with one slot table can be combined. -/
theorem exists_combined (P Q : List Rule) (slots : SlotTable) :
    ∃ c, CombinedRule.ofParts [(ofRules P slots).localRule, (ofRules Q slots).localRule] = .ok c ∧
      c.parts = [(ofRules P slots).localRule, (ofRules Q slots).localRule] := by
  have hsame : ∀ names, CombinedRule.mergeNames 1 names names = .ok names := fun names =>
    CombinedRule.mergeNames_eq_ok_iff.2 (.inl ⟨List.prefix_refl names, rfl⟩)
  have hnames : CombinedRule.mergedNames
      [(ofRules P slots).localRule, (ofRules Q slots).localRule] = .ok slots.namesBySlot := by
    rw [CombinedRule.mergedNames, List.foldlM_cons]
    show (CombinedRule.mergeNames 1 slots.namesBySlot slots.namesBySlot >>= pure) = _
    rw [hsame, bind_pure]
  rw [CombinedRule.ofParts, hnames]
  exact ⟨_, rfl, rfl⟩

theorem outcome_combined {c : CombinedRule}
    (hc : c.parts = [(ofRules P slots).localRule, (ofRules Q slots).localRule]) (v : View) :
    c.outcome v = .idle ++ (ofRules P slots).outcome v ++ (ofRules Q slots).outcome v := by
  rw [CombinedRule.outcome, hc]
  rfl

/-- The rules ask for the value that the channel has. -/
def Restores (i : Interpreter) (v : View) (slot : Nat) : Prop :=
  (i.demand v).writes.get? slot = some (v.own slot)

/-- A demand for the value that is there has been dropped from what changes. -/
theorem get?_changes (i : Interpreter) (v : View) (slot : Nat) :
    (¬ i.Restores v slot → (i.changes v).get? slot = (i.demand v).writes.get? slot) ∧
      (i.Restores v slot → (i.changes v).get? slot = none) := by
  rw [changes, SlotMap.get?_filter, Restores]
  cases hd : (i.demand v).writes.get? slot with
  | none => exact ⟨fun _ => rfl, fun _ => rfl⟩
  | some value =>
    refine ⟨fun hne => ?_, fun heq => ?_⟩
    · have hvalue : v.own slot ≠ value := fun h => hne (congrArg some h.symm)
      rw [Option.filter_some, if_pos (bne_iff_ne.2 hvalue)]
    · rw [Option.some.inj heq, Option.filter_some, bne_self_eq_false]
      rfl

/-- Two rule lists with one slot table, combined, raise the same events as all the rules in one
    list.  They leave the same in a channel unless the later rules restore it and the first ones
    change it; a restored channel is what the first rules make of it, where one list leaves it as it
    was. -/
theorem combined_outcome (hslots : ∀ r ∈ P ++ Q, ∀ s ∈ r.slots, s ≤ slots.size) :
    ∃ c, CombinedRule.ofParts [(ofRules P slots).localRule, (ofRules Q slots).localRule] = .ok c ∧
      ∀ v, (c.outcome v).events = ((ofRules (P ++ Q) slots).outcome v).events ∧
        ∀ slot,
          ((c.outcome v).applied v.own slot =
              ((ofRules (P ++ Q) slots).outcome v).applied v.own slot ↔
            ¬ ((ofRules Q slots).Restores v slot ∧
              ((ofRules P slots).outcome v).applied v.own slot ≠ v.own slot)) ∧
          ((ofRules Q slots).Restores v slot →
            (c.outcome v).applied v.own slot =
                ((ofRules P slots).outcome v).applied v.own slot ∧
              ((ofRules (P ++ Q) slots).outcome v).applied v.own slot = v.own slot) := by
  obtain ⟨c, hc, hparts⟩ := exists_combined P Q slots
  refine ⟨c, hc, fun v => ?_⟩
  have hdemand := demand_append hslots v
  have hout := outcome_combined hparts v
  constructor
  · rw [hout, Outcome.events_append, Outcome.events_append, events_outcome, events_outcome,
      events_outcome, hdemand.events]
    rfl
  · intro slot
    have hcombined : (c.outcome v).applied v.own slot =
        (((ofRules Q slots).changes v).get? slot).getD
          (((ofRules P slots).outcome v).applied v.own slot) := by
      rw [hout, Outcome.applied_append, Outcome.applied_append, outcome_applied_to]
      rfl
    have hlist : ((ofRules (P ++ Q) slots).outcome v).applied v.own slot =
        (((ofRules Q slots).demand v).writes.get? slot).getD
          (((ofRules P slots).outcome v).applied v.own slot) := by
      rw [outcome_applied, outcome_applied, hdemand.writes]
      cases ((ofRules Q slots).demand v).writes.get? slot <;> rfl
    obtain ⟨hkeeps, hdrops⟩ := get?_changes (ofRules Q slots) v slot
    by_cases hr : (ofRules Q slots).Restores v slot
    · rw [hdrops hr] at hcombined
      rw [hr] at hlist
      rw [hcombined, hlist]
      exact ⟨⟨fun h hn => hn.2 h, fun h => not_not.1 fun hne => h ⟨hr, hne⟩⟩,
        fun _ => ⟨rfl, rfl⟩⟩
    · rw [hkeeps hr] at hcombined
      rw [hcombined, hlist]
      exact ⟨⟨fun _ hn => hr hn.1, fun _ => rfl⟩, fun h => absurd h hr⟩

/-- Block 3 becomes 1 and is heated. -/
def meltingRules : List Rule :=
  [⟨.isBlock 3, [.set 0 (.literal 1), .set 1 (.literal 5), .raise "melted" none]⟩]

/-- Block 3 stays what it is. -/
def lastingRules : List Rule := [⟨.isBlock 3, [.set 0 (.literal 3), .raise "kept" none]⟩]

/-- The slot table with one name. -/
def heatSlots : SlotTable := (SlotTable.allocate OrderedMap.empty "heat").2

/-- Block 3 in every cell, with the kept channels 0. -/
def meltingView : View := ⟨fun _ slot => if slot = 0 then 3 else 0, 2⟩

/-- The heat and the events are the same both ways; the block, which the later rules restore, is
    what the first ones make of it. -/
theorem combined_outcome_melting :
    (∀ r ∈ meltingRules ++ lastingRules, ∀ s ∈ r.slots, s ≤ heatSlots.size) ∧
      ∃ c, CombinedRule.ofParts [(ofRules meltingRules heatSlots).localRule,
          (ofRules lastingRules heatSlots).localRule] = .ok c ∧
        (c.outcome meltingView).events = [⟨"melted", none⟩, ⟨"kept", none⟩] ∧
        (c.outcome meltingView).applied meltingView.own 1 = 5 ∧
        (c.outcome meltingView).applied meltingView.own 0 = 1 := by
  have hslots : ∀ r ∈ meltingRules ++ lastingRules, ∀ s ∈ r.slots, s ≤ heatSlots.size := by decide
  obtain ⟨c, hc, hsame⟩ := combined_outcome hslots
  obtain ⟨hevents, hchannels⟩ := hsame meltingView
  refine ⟨hslots, c, hc, hevents.trans (by decide), ?_, ?_⟩
  · have hkept : ¬ (ofRules lastingRules heatSlots).Restores meltingView 1 := by
      unfold Restores; decide
    rw [(hchannels 1).1.2 fun h => hkept h.1]
    decide
  · have hrestored : (ofRules lastingRules heatSlots).Restores meltingView 0 := by
      unfold Restores; decide
    rw [((hchannels 0).2 hrestored).1]
    decide

/-- Side by side the rules turn the block into 1, and in one list they leave it as it was. -/
theorem exists_combined_differs :
    ∃ c, CombinedRule.ofParts [(ofRules meltingRules heatSlots).localRule,
        (ofRules lastingRules heatSlots).localRule] = .ok c ∧
      (c.outcome meltingView).applied meltingView.own 0 = 1 ∧
      ((ofRules (meltingRules ++ lastingRules) heatSlots).outcome meltingView).applied
        meltingView.own 0 = 3 := by
  obtain ⟨c, hc, hparts⟩ := exists_combined meltingRules lastingRules heatSlots
  refine ⟨c, hc, ?_, by decide⟩
  rw [outcome_combined hparts]
  decide

end Interpreter

end BlockAutomata.Script
