/-
  How much of a neighbour a copy takes over.

  1. Where the last write is a copy, what was demanded before it no longer counts, in the channels
     that the rules know of; in others the rules never demand anything (`get?_demand_of_copy`).

  2. So the cell becomes like the neighbour in the channels that the rules know of, and stays as it
     was in all others (`applied_of_copy`).

  3. A world may have further channels, for the other rules that run in it.  Hence a copy takes over
     all channels of the world just if cell and neighbour agree in the further ones beforehand
     (`copies_known_channels`).
-/
import BlockAutomata.Proofs.Script.Joining
import BlockAutomata.Proofs.Script.LastWrites
import BlockAutomata.Proofs.Script.SlotTables

namespace BlockAutomata.Script

/-- Whether the effect writes channels. -/
def Effect.isWrite : Effect → Bool
  | .raise _ _ => false
  | _ => true

namespace Interpreter

/-- The last of the effects that are due to write channels. -/
def lastWriting? (i : Interpreter) (v : View) : Option Effect :=
  (i.effectsDue v).reverse.find? Effect.isWrite

variable {i : Interpreter} {v : View} {o : Offset}

/-- Events do not change what is to be written. -/
theorem writes_foldl_perform (channels : Nat) (d : Demand) {effects : List Effect}
    (h : ∀ e ∈ effects, e.isWrite = false) :
    (effects.foldl (perform channels v) d).writes = d.writes := by
  induction effects generalizing d with
  | nil => rfl
  | cons e effects ih =>
    rw [List.forall_mem_cons] at h
    rw [List.foldl_cons, ih _ h.2]
    cases e with
    | raise name value => rfl
    | set s value => cases h.1
    | copy o => cases h.1

/-- Where the last write is a copy, just the channels of the neighbour that the rules know of are
    demanded. -/
theorem get?_demand_of_copy (hcovers : i.Covers) (h : i.lastWriting? v = some (.copy o))
    (slot : Nat) :
    (i.demand v).writes.get? slot = if slot < i.channels then some (v.read o slot) else none := by
  split
  · rename_i hslot
    obtain ⟨-, after, before, hdue, hafter⟩ := List.find?_eq_some_iff_append.1 h
    have hsplit : i.effectsDue v = before.reverse ++ .copy o :: after.reverse := by
      rw [← List.reverse_reverse (i.effectsDue v), hdue]
      simp
    -- what comes after the copy writes nothing
    rw [demand, foldl_fire_eq]
    change ((i.effectsDue v).foldl (perform i.channels v) _).writes.get? slot = _
    rw [hsplit, List.foldl_append, List.foldl_cons, writes_foldl_perform, get?_perform]
    · exact if_pos hslot
    · intro e he
      simpa using hafter e (List.mem_reverse.1 he)
  · rename_i hslot
    -- the rules write no channel that they do not know of
    exact Option.not_isSome_iff_eq_none.1 fun hsome => hslot (within_demand hcovers v slot hsome)

/-- The cell becomes like the neighbour in the channels that the rules know of, and stays as it was
    in all others. -/
theorem applied_of_copy (hcovers : i.Covers) (h : i.lastWriting? v = some (.copy o)) (slot : Nat) :
    (i.outcome v).applied v.own slot = if slot < i.channels then v.read o slot else v.own slot := by
  rw [outcome_applied, get?_demand_of_copy hcovers h]
  split <;> rfl

/-- Where the last write is a copy, the cell becomes like the neighbour in the channels that the
    rules know of, and stays as it was in all others.  So it becomes like the neighbour in all
    channels of the world just if the two agree beforehand in those that the rules do not know
    of. -/
theorem copies_known_channels (rules : List Rule) (slots : SlotTable)
    (h : (ofRules rules slots).lastWriting? v = some (.copy o)) :
    (∀ slot, ((ofRules rules slots).outcome v).applied v.own slot =
        if slot < (ofRules rules slots).channels then v.read o slot else v.own slot) ∧
      ((∀ slot < v.channels,
          ((ofRules rules slots).outcome v).applied v.own slot = v.read o slot) ↔
        ∀ slot < v.channels, (ofRules rules slots).channels ≤ slot →
          v.own slot = v.read o slot) := by
  have happlied := applied_of_copy (covers_ofRules rules slots) h
  refine ⟨happlied, forall₂_congr fun slot _ => ?_⟩
  rw [happlied]
  split
  · rename_i hknown
    exact ⟨fun _ hle => absurd hknown (Nat.not_lt.2 hle), fun _ => rfl⟩
  · rename_i hknown
    exact ⟨fun heq _ => heq, fun hagree => hagree (Nat.le_of_not_lt hknown)⟩

/-- Air turns to stone, but then takes over what is above it. -/
def fallingRules : List Rule :=
  [⟨.isBlock 0, [.set 0 (.literal 1), .copy ⟨0, 1, 0⟩, .raise "fallen" none]⟩]

/-- Stone is heated; this takes a channel beside the block. -/
def heatingRules : List Rule := [⟨.isBlock 1, [.set 1 (.literal 9)]⟩]

/-- Air, with sand above it in which the kept channel holds 6. -/
def sandAbove : View where
  read := fun o slot => if o = ⟨0, 1, 0⟩ then if slot = 0 then 5 else 6 else 0
  channels := 2

/-- These rules know of no channel but the block. -/
theorem channels_falling : (ofRules fallingRules OrderedMap.empty).channels = 1 :=
  channels_ofRules (by decide)

/-- The copy comes after the other write. -/
theorem lastWriting?_falling :
    (ofRules fallingRules OrderedMap.empty).lastWriting? sandAbove = some (.copy ⟨0, 1, 0⟩) :=
  rfl

/-- The air becomes sand and keeps what it has in the second channel, so it does not become like
    the cell above. -/
theorem copies_known_channels_sand :
    (ofRules fallingRules OrderedMap.empty).lastWriting? sandAbove = some (.copy ⟨0, 1, 0⟩) ∧
      ((ofRules fallingRules OrderedMap.empty).outcome sandAbove).applied sandAbove.own 0 = 5 ∧
      ((ofRules fallingRules OrderedMap.empty).outcome sandAbove).applied sandAbove.own 1 = 0 ∧
      ¬ ∀ slot < sandAbove.channels,
        ((ofRules fallingRules OrderedMap.empty).outcome sandAbove).applied sandAbove.own slot =
          sandAbove.read ⟨0, 1, 0⟩ slot := by
  obtain ⟨happlied, hall⟩ :=
    copies_known_channels fallingRules OrderedMap.empty lastWriting?_falling
  rw [channels_falling] at happlied hall
  refine ⟨lastWriting?_falling, happlied 0, happlied 1, fun hlike => ?_⟩
  exact absurd (hall.1 hlike 1 (by decide) (Nat.le_refl 1)) (by decide)

/-- The two rule lists can be combined, to a rule for cells with two channels. -/
theorem exists_falling_and_heating :
    ∃ c, CombinedRule.ofParts [(ofRules fallingRules OrderedMap.empty).localRule,
        (ofRules heatingRules heatSlots).localRule] = .ok c ∧
      c.parts = [(ofRules fallingRules OrderedMap.empty).localRule,
        (ofRules heatingRules heatSlots).localRule] ∧
      c.localRule.channels = 2 := by
  have hfirst : (ofRules fallingRules OrderedMap.empty).localRule.names = [] :=
    SlotTable.numbered_empty.namesBySlot_eq
  have hnames : CombinedRule.mergedNames [(ofRules fallingRules OrderedMap.empty).localRule,
      (ofRules heatingRules heatSlots).localRule] = .ok heatSlots.namesBySlot := by
    rw [CombinedRule.mergedNames, List.foldlM_cons, hfirst]
    rfl
  have hlength : heatSlots.namesBySlot.length = 1 := by
    rw [SlotTable.namesBySlot, List.length_map, List.length_mergeSort]
    rfl
  rw [CombinedRule.ofParts, hnames]
  exact ⟨_, rfl, rfl, congrArg (· + 1) hlength⟩

/-- In a world with two channels, where these rules run beside others, the second channel is left
    behind. -/
theorem exists_channel_left_behind :
    ∃ c, CombinedRule.ofParts [(ofRules fallingRules OrderedMap.empty).localRule,
        (ofRules heatingRules heatSlots).localRule] = .ok c ∧
      c.localRule.channels = sandAbove.channels ∧
      (ofRules fallingRules OrderedMap.empty).lastWriting? sandAbove = some (.copy ⟨0, 1, 0⟩) ∧
      1 < sandAbove.channels ∧ sandAbove.read ⟨0, 1, 0⟩ 1 = 6 ∧
      ((ofRules fallingRules OrderedMap.empty).outcome sandAbove).applied sandAbove.own 1 = 0 ∧
      (c.outcome sandAbove).applied sandAbove.own 1 = 0 := by
  obtain ⟨c, hc, hparts, hchannels⟩ := exists_falling_and_heating
  have hleft := applied_of_copy (covers_ofRules _ _) lastWriting?_falling 1
  rw [channels_falling] at hleft
  refine ⟨c, hc, hchannels, lastWriting?_falling, by decide, by decide, hleft, ?_⟩
  -- stone is not concerned, so the other rules do nothing
  have hidle : (ofRules heatingRules heatSlots).outcome sandAbove = .idle := by decide
  rw [CombinedRule.outcome, hparts]
  show Outcome.applied (.idle ++ (ofRules fallingRules OrderedMap.empty).outcome sandAbove ++
    (ofRules heatingRules heatSlots).outcome sandAbove) _ 1 = 0
  rw [hidle, Outcome.applied_append, Outcome.applied_append]
  exact hleft

end Interpreter

end BlockAutomata.Script
