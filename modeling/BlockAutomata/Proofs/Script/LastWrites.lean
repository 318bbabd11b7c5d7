/-
  What remains of many writes.

  1. The rules whose conditions hold, taken in order, come to one list of effects, and these to one
     list of writes.  Every value in it is read from the view as it was given.

  2. Of several writes to a slot the last one counts (`lastWrite`).  Performing effects one after
     the other keeps just these (`writes_demand`, `get?_foldl_insert`).

  3. The outcome writes the last values that differ from what is there, and nothing else
     (`outcome_keeps_last_writes`).  So a write that a later rule takes back wakes nobody, while the
     events that were raised along with it stay.
-/
import BlockAutomata.Proofs.Script.Changes

namespace BlockAutomata

/-- The value of the last write to the slot. -/
def lastWrite (writes : List (Nat × Int64)) (slot : Nat) : Option Int64 :=
  ((writes.filter fun w => w.1 = slot).getLast?).map Prod.snd

theorem lastWrite_cons (w : Nat × Int64) (writes : List (Nat × Int64)) (slot : Nat) :
    lastWrite (w :: writes) slot =
      (lastWrite writes slot).or (if slot = w.1 then some w.2 else none) := by
  unfold lastWrite
  by_cases h : slot = w.1
  · rw [List.filter_cons, if_pos (decide_eq_true h.symm), List.getLast?_cons, if_pos h]
    cases (writes.filter fun w => w.1 = slot).getLast? <;> rfl
  · rw [List.filter_cons, if_neg (by simpa using Ne.symm h), if_neg h, Option.or_none]

/-- Inserting one after the other keeps the last write to each slot. -/
theorem SlotMap.get?_foldl_insert (writes : List (Nat × Int64)) (m : SlotMap) (slot : Nat) :
    (writes.foldl (fun m w => m.insert w.1 w.2) m).get? slot =
      (lastWrite writes slot).or (m.get? slot) := by
  induction writes generalizing m with
  | nil => rfl
  | cons w writes ih =>
    rw [List.foldl_cons, ih, SlotMap.get?_insert, lastWrite_cons, Option.or_assoc]
    split <;> rfl

theorem SlotMap.eq_empty_of_isEmpty {m : SlotMap} (h : m.isEmpty = true) : m = SlotMap.empty := by
  obtain ⟨entries, ascending⟩ := m
  obtain rfl := List.isEmpty_iff.1 h
  rfl

namespace Script

/-! ## Effects that are due -/

/-- The writes that the effect comes to, in order.  A copy writes every channel. -/
def Effect.writes (channels : Nat) (v : View) : Effect → List (Nat × Int64)
  | .set s e => [(s, e.eval v)]
  | .copy o => (List.range channels).map fun s => (s, v.read o s)
  | .raise _ _ => []

/-- The event that the effect raises. -/
def Effect.event? (v : View) : Effect → Option Event
  | .raise name e => some ⟨name, e.map fun e => e.eval v⟩
  | _ => none

namespace Interpreter

/-- The effects of the rules whose conditions hold, in order. -/
def effectsDue (i : Interpreter) (v : View) : List Effect :=
  (i.rules.filter fun r => r.condition.holds v).flatMap Rule.effects

/-- The writes of these effects, in order. -/
def writesDue (i : Interpreter) (v : View) : List (Nat × Int64) :=
  (i.effectsDue v).flatMap (Effect.writes i.channels v)

/-- The events of these effects, in order. -/
def eventsDue (i : Interpreter) (v : View) : List Event :=
  (i.effectsDue v).filterMap (Effect.event? v)

/-! ## What is demanded -/

section

variable (channels : Nat) (v : View) (d : Demand)

/-- An effect adds its writes and its event to what has been demanded. -/
theorem perform_eq (e : Effect) :
    perform channels v d e =
      ⟨(e.writes channels v).foldl (fun m w => m.insert w.1 w.2) d.writes,
        d.events ++ (e.event? v).toList⟩ := by
  cases e with
  | set s e => simp [perform, Effect.writes, Effect.event?]
  | copy o => simp [perform, Effect.writes, Effect.event?, List.foldl_map]
  | raise name e => rfl

theorem foldl_perform_eq (effects : List Effect) :
    effects.foldl (perform channels v) d =
      ⟨(effects.flatMap (Effect.writes channels v)).foldl (fun m w => m.insert w.1 w.2) d.writes,
        d.events ++ effects.filterMap (Effect.event? v)⟩ := by
  induction effects generalizing d with
  | nil => simp
  | cons e effects ih =>
    rw [List.foldl_cons, ih, perform_eq, List.flatMap_cons, List.foldl_append]
    cases h : e.event? v <;> simp [h]

theorem foldl_fire_eq (rules : List Rule) :
    rules.foldl (fire channels v) d =
      ((rules.filter fun r => r.condition.holds v).flatMap Rule.effects).foldl
        (perform channels v) d := by
  induction rules generalizing d with
  | nil => rfl
  | cons r rules ih =>
    rw [List.foldl_cons, ih, fire, List.filter_cons]
    cases r.condition.holds v with
    | false => rfl
    | true => rw [if_pos rfl, if_pos rfl, List.flatMap_cons, List.foldl_append]

end

/-- The rules demand the writes and the events of the effects that are due. -/
theorem demand_eq (i : Interpreter) (v : View) :
    i.demand v = ⟨(i.writesDue v).foldl (fun m w => m.insert w.1 w.2) SlotMap.empty,
      i.eventsDue v⟩ := by
  rw [demand, foldl_fire_eq, foldl_perform_eq]
  rfl

/-- A slot changes if the last write to it has another value than the cell. -/
theorem get?_changes_eq_some_iff {i : Interpreter} {v : View} {slot : Nat} {value : Int64} :
    (i.changes v).get? slot = some value ↔
      lastWrite (i.writesDue v) slot = some value ∧ v.own slot ≠ value := by
  have hdemand : (i.demand v).writes.get? slot = lastWrite (i.writesDue v) slot := by
    rw [demand_eq, SlotMap.get?_foldl_insert, SlotMap.get?_empty, Option.or_none]
  rw [changes, SlotMap.get?_filter, hdemand, Option.filter_eq_some_iff, bne_iff_ne]

/-! ## The outcome -/

/-- The outcome writes exactly the slots whose last write differs from the cell, raises the events
    that are due, and wakes the cube around the cell if it writes anything.  It is idle just if it
    would neither write nor raise anything. -/
theorem outcome_keeps_last_writes (i : Interpreter) (v : View) :
    ∃ updated : SlotMap,
      (∀ slot value, updated.get? slot = some value ↔
        lastWrite (i.writesDue v) slot = some value ∧ v.own slot ≠ value) ∧
      i.outcome v =
        if updated.isEmpty = true ∧ i.eventsDue v = [] then .idle
        else .one {
          writes := updated
          reset := false
          wake := if updated.isEmpty then [] else Neighborhood.moore3dSelf
          guard := none
          delay := 0
          events := i.eventsDue v } := by
  refine ⟨i.changes v, fun slot value => get?_changes_eq_some_iff, ?_⟩
  have hevents : (i.demand v).events = i.eventsDue v := by rw [demand_eq]
  rw [outcome_eq, hevents]
  cases hchanges : (i.changes v).isEmpty with
  | false => rfl
  | true =>
    cases hdue : i.eventsDue v with
    | nil => rfl
    | cons e events => rw [SlotMap.eq_empty_of_isEmpty hchanges]; rfl

/-- A block that one rule changes and the next one restores is not written, and wakes nobody; the
    event is raised all the same. -/
example :
    (Interpreter.ofRules
        [⟨.isBlock 3, [.set 0 (.literal 1), .raise "melted" none]⟩,
          ⟨.isBlock 3, [.set 0 (.literal 3)]⟩] OrderedMap.empty).outcome ⟨fun _ _ => 3, 1⟩ =
      .one (Action.announce [⟨"melted", none⟩]) := by
  decide

end Interpreter

end Script

end BlockAutomata
