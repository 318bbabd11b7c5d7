/-
  What an interpreter reads and writes.

  1. `reads` lists every read that evaluating a tree at a view comes to: conditions after one that
     fails are not read, nor are the effects of a rule that does not fire.  Counting reads its
     condition from each of the offsets.

  2. These are all reads: views that agree on them give the same value (`eval_of_agreeOn`), and the
     same outcome (`outcome_of_agreeOn`).

  3. A tree reads only slots that it refers to.  The channels that rules need reach up to the
     highest of these slots, so ready rules neither read nor write a slot beyond their channels
     (`lt_channels_of_mem_reads`, `lt_channels_of_write`).
-/
import BlockAutomata.Proofs.Script.Changes
import Mathlib.Data.List.Basic

namespace BlockAutomata

/-- The views show the same at each of the reads. -/
def View.AgreeOn (reads : List (Offset × Nat)) (v₁ v₂ : View) : Prop :=
  ∀ r ∈ reads, v₁.read r.1 r.2 = v₂.read r.1 r.2

section AgreeOn

variable {reads more : List (Offset × Nat)} {v₁ v₂ : View}

theorem View.AgreeOn.left (h : v₁.AgreeOn (reads ++ more) v₂) : v₁.AgreeOn reads v₂ :=
  fun r hr => h r (List.mem_append_left _ hr)

theorem View.AgreeOn.right (h : v₁.AgreeOn (reads ++ more) v₂) : v₁.AgreeOn more v₂ :=
  fun r hr => h r (List.mem_append_right _ hr)

theorem View.AgreeOn.of_mem_flatMap {α : Type} {f : α → List (Offset × Nat)} {l : List α} {a : α}
    (h : v₁.AgreeOn (l.flatMap f) v₂) (ha : a ∈ l) : v₁.AgreeOn (f a) v₂ :=
  fun r hr => h r (List.mem_flatMap.2 ⟨a, ha, hr⟩)

end AgreeOn

namespace Script

/-! ## Reads -/

mutual

/-- The reads that evaluating the expression comes to. -/
def Expr.reads : Expr → View → List (Offset × Nat)
  | .literal _, _ => []
  | .channel s, _ => [(Offset.zero, s)]
  | .neighbor o s, _ => [(o, s)]
  | .count os c, v => os.flatMap fun o => (c.reads (v.shift o)).map fun r => (o + r.1, r.2)
  | .sign l r, v => l.reads v ++ r.reads v
  | .arith l r _, v => l.reads v ++ r.reads v

/-- The reads that evaluating the condition comes to. -/
def Cond.reads : Cond → View → List (Offset × Nat)
  | .all cs, v => Cond.readsAll cs v
  | .not c, v => c.reads v
  | .equal l r, v => l.reads v ++ r.reads v

/-- The reads that evaluating the conditions comes to, up to the first that fails. -/
def Cond.readsAll : List Cond → View → List (Offset × Nat)
  | [], _ => []
  | c :: cs, v => c.reads v ++ if c.holds v then Cond.readsAll cs v else []

end

/-- The reads that performing the effect comes to. -/
def Effect.reads (channels : Nat) : Effect → View → List (Offset × Nat)
  | .set _ e, v => e.reads v
  | .copy o, _ => (List.range channels).map fun s => (o, s)
  | .raise _ none, _ => []
  | .raise _ (some e), v => e.reads v

/-- The reads that trying the rule comes to. -/
def Rule.reads (channels : Nat) (r : Rule) (v : View) : List (Offset × Nat) :=
  r.condition.reads v ++
    if r.condition.holds v then r.effects.flatMap fun e => e.reads channels v else []

/-- The reads that an outcome comes to: those of the rules, and the channels of the cell that are to
    be written, in order to drop what changes nothing. -/
def Interpreter.reads (i : Interpreter) (v : View) : List (Offset × Nat) :=
  (i.rules.flatMap fun r => r.reads i.channels v) ++
    (i.demand v).writes.entries.map fun e => (Offset.zero, e.1)

/-! ## These are all reads -/

mutual

/-- An expression cannot tell views apart that agree on its reads. -/
theorem Expr.eval_of_agreeOn : ∀ (e : Expr) {v₁ v₂ : View}, v₁.AgreeOn (e.reads v₁) v₂ →
    e.eval v₁ = e.eval v₂
  | .literal _, _, _, _ => rfl
  | .channel _, _, _, h => h _ List.mem_cons_self
  | .neighbor _ _, _, _, h => h _ List.mem_cons_self
  | .count os c, v₁, v₂, h => by
    have hc : ∀ o ∈ os, c.holds (v₁.shift o) = c.holds (v₂.shift o) := fun o ho =>
      c.holds_of_agreeOn fun r hr => h.of_mem_flatMap ho _ (List.mem_map.2 ⟨r, hr, rfl⟩)
    show Int64.ofNat (os.countP _) = Int64.ofNat (os.countP _)
    rw [List.countP_congr fun o ho => by rw [hc o ho]]
  | .sign l r, v₁, v₂, h => by
    rw [Expr.eval, Expr.eval, l.eval_of_agreeOn h.left, r.eval_of_agreeOn h.right]
  | .arith l r op, v₁, v₂, h => by
    rw [Expr.eval, Expr.eval, l.eval_of_agreeOn h.left, r.eval_of_agreeOn h.right]

theorem Cond.holds_of_agreeOn : ∀ (c : Cond) {v₁ v₂ : View}, v₁.AgreeOn (c.reads v₁) v₂ →
    c.holds v₁ = c.holds v₂
  | .all cs, _, _, h => Cond.allHold_of_agreeOn cs h
  | .not c, v₁, v₂, h => by rw [Cond.holds, Cond.holds, c.holds_of_agreeOn h]
  | .equal l r, v₁, v₂, h => by
    rw [Cond.holds, Cond.holds, l.eval_of_agreeOn h.left, r.eval_of_agreeOn h.right]

theorem Cond.allHold_of_agreeOn : ∀ (cs : List Cond) {v₁ v₂ : View},
    v₁.AgreeOn (Cond.readsAll cs v₁) v₂ → Cond.allHold cs v₁ = Cond.allHold cs v₂
  | [], _, _, _ => rfl
  | c :: cs, v₁, v₂, h => by
    rw [Cond.readsAll] at h
    rw [Cond.allHold, Cond.allHold, ← c.holds_of_agreeOn h.left]
    cases hc : c.holds v₁ with
    | false => rfl
    | true =>
      rw [hc, if_pos rfl] at h
      rw [Cond.allHold_of_agreeOn cs h.right]

end

namespace Interpreter

variable {i : Interpreter} {channels : Nat} {v v₁ v₂ : View}

theorem perform_of_agreeOn (d : Demand) (e : Effect) (h : v₁.AgreeOn (e.reads channels v₁) v₂) :
    perform channels v₁ d e = perform channels v₂ d e := by
  match e, h with
  | .set s e, h => rw [perform, perform, e.eval_of_agreeOn h]
  | .copy o, h =>
    have hread : ∀ s ∈ List.range channels, v₁.read o s = v₂.read o s := fun s hs =>
      h (o, s) (List.mem_map.2 ⟨s, hs, rfl⟩)
    rw [perform, perform, List.foldl_ext _ _ _ fun w s hs => by rw [hread s hs]]
  | .raise name none, _ => rfl
  | .raise name (some e), h =>
    rw [perform, perform, Option.map_some, Option.map_some, e.eval_of_agreeOn h]

theorem fire_of_agreeOn (d : Demand) (r : Rule) (h : v₁.AgreeOn (r.reads channels v₁) v₂) :
    fire channels v₁ d r = fire channels v₂ d r := by
  rw [Rule.reads] at h
  rw [fire, fire, ← r.condition.holds_of_agreeOn h.left]
  cases hc : r.condition.holds v₁ with
  | false => rfl
  | true =>
    rw [hc, if_pos rfl] at h
    rw [if_pos rfl, if_pos rfl,
      List.foldl_ext _ _ _ fun d e he => perform_of_agreeOn d e (h.right.of_mem_flatMap he)]

/-- Views that agree on the reads of an interpreter have the same outcome. -/
theorem outcome_of_agreeOn (h : v₁.AgreeOn (i.reads v₁) v₂) : i.outcome v₁ = i.outcome v₂ := by
  have hdemand : i.demand v₁ = i.demand v₂ := by
    rw [demand, demand,
      List.foldl_ext _ _ _ fun d r hr => fire_of_agreeOn d r (h.left.of_mem_flatMap hr)]
  -- a value is dropped when the cell has it already, so the written slots are read too
  have hfilter : (i.demand v₁).writes.entries.filter (fun e => v₁.own e.1 != e.2) =
      (i.demand v₁).writes.entries.filter fun e => v₂.own e.1 != e.2 :=
    List.filter_congr fun e he => by
      rw [View.own, View.own, h.right _ (List.mem_map.2 ⟨e, he, rfl⟩)]
  have hchanges : i.changes v₁ = i.changes v₂ := by
    simp only [changes, SlotMap.filter, ← hdemand, hfilter]
  rw [outcome_eq, outcome_eq, hdemand, hchanges]

end Interpreter

/-! ## Slots -/

mutual

/-- An expression reads only slots that are in it. -/
theorem Expr.slot_of_mem_reads : ∀ (e : Expr) {v : View} {r : Offset × Nat}, r ∈ e.reads v →
    ∃ x ∈ e.subterms, x.slot? = some r.2
  | .literal _, _, _, h => absurd h List.not_mem_nil
  | .channel s, _, _, h => ⟨.channel s, List.mem_cons_self, by rw [List.mem_singleton.1 h]; rfl⟩
  | .neighbor o s, _, _, h =>
    ⟨.neighbor o s, List.mem_cons_self, by rw [List.mem_singleton.1 h]; rfl⟩
  | .count os c, _, _, h => by
    obtain ⟨o, _, h⟩ := List.mem_flatMap.1 h
    obtain ⟨r, hr, rfl⟩ := List.mem_map.1 h
    obtain ⟨x, hx, hslot⟩ := c.slot_of_mem_reads hr
    exact ⟨x, List.mem_cons_of_mem _ hx, hslot⟩
  | .sign l r, _, _, h => by
    rcases List.mem_append.1 h with h | h
    · obtain ⟨x, hx, hslot⟩ := l.slot_of_mem_reads h
      exact ⟨x, List.mem_cons_of_mem _ (List.mem_append_left _ hx), hslot⟩
    · obtain ⟨x, hx, hslot⟩ := r.slot_of_mem_reads h
      exact ⟨x, List.mem_cons_of_mem _ (List.mem_append_right _ hx), hslot⟩
  | .arith l r _, _, _, h => by
    rcases List.mem_append.1 h with h | h
    · obtain ⟨x, hx, hslot⟩ := l.slot_of_mem_reads h
      exact ⟨x, List.mem_cons_of_mem _ (List.mem_append_left _ hx), hslot⟩
    · obtain ⟨x, hx, hslot⟩ := r.slot_of_mem_reads h
      exact ⟨x, List.mem_cons_of_mem _ (List.mem_append_right _ hx), hslot⟩

theorem Cond.slot_of_mem_reads : ∀ (c : Cond) {v : View} {r : Offset × Nat}, r ∈ c.reads v →
    ∃ x ∈ c.subterms, x.slot? = some r.2
  | .all cs, _, _, h => Cond.slot_of_mem_readsAll cs h
  | .not c, _, _, h => c.slot_of_mem_reads h
  | .equal l r, _, _, h => by
    rcases List.mem_append.1 h with h | h
    · obtain ⟨x, hx, hslot⟩ := l.slot_of_mem_reads h
      exact ⟨x, List.mem_append_left _ hx, hslot⟩
    · obtain ⟨x, hx, hslot⟩ := r.slot_of_mem_reads h
      exact ⟨x, List.mem_append_right _ hx, hslot⟩

theorem Cond.slot_of_mem_readsAll : ∀ (cs : List Cond) {v : View} {r : Offset × Nat},
    r ∈ Cond.readsAll cs v → ∃ x ∈ Cond.subtermsAll cs, x.slot? = some r.2
  | [], _, _, h => absurd h List.not_mem_nil
  | c :: cs, v, _, h => by
    rcases List.mem_append.1 h with h | h
    · obtain ⟨x, hx, hslot⟩ := c.slot_of_mem_reads h
      exact ⟨x, List.mem_append_left _ hx, hslot⟩
    · split at h
      · obtain ⟨x, hx, hslot⟩ := Cond.slot_of_mem_readsAll cs h
        exact ⟨x, List.mem_append_right _ hx, hslot⟩
      · exact absurd h List.not_mem_nil

end

/-- An effect reads slots that are in it, or copies all channels. -/
theorem Effect.slot_of_mem_reads {channels : Nat} {e : Effect} {v : View} {r : Offset × Nat}
    (h : r ∈ e.reads channels v) :
    (∃ x ∈ e.subterms, x.slot? = some r.2) ∨ r.2 < channels := by
  match e, h with
  | .set s e, h => exact Or.inl (e.slot_of_mem_reads h)
  | .copy o, h =>
    obtain ⟨s, hs, rfl⟩ := List.mem_map.1 h
    exact Or.inr (List.mem_range.1 hs)
  | .raise name none, h => exact absurd h List.not_mem_nil
  | .raise name (some e), h => exact Or.inl (e.slot_of_mem_reads h)

theorem Rule.mem_slots_of_mem_reads {channels : Nat} {q : Rule} {v : View} {r : Offset × Nat}
    (h : r ∈ q.reads channels v) : r.2 ∈ q.slots ∨ r.2 < channels := by
  have hslots : ∀ x ∈ q.subterms, x.slot? = some r.2 → r.2 ∈ q.slots := fun x hx hslot =>
    List.mem_append_left _ (List.mem_filterMap.2 ⟨x, hx, hslot⟩)
  rcases List.mem_append.1 h with h | h
  · obtain ⟨x, hx, hslot⟩ := q.condition.slot_of_mem_reads h
    exact Or.inl (hslots x (List.mem_append_left _ hx) hslot)
  · split at h
    · obtain ⟨e, he, h⟩ := List.mem_flatMap.1 h
      refine (Effect.slot_of_mem_reads h).imp_left fun ⟨x, hx, hslot⟩ => ?_
      exact hslots x (List.mem_append_right _ (List.mem_flatMap.2 ⟨e, he, hx⟩)) hslot
    · exact absurd h List.not_mem_nil

/-! ## Channels -/

theorem foldl_max_le_iff (l : List Nat) (a n : Nat) :
    l.foldl max a ≤ n ↔ a ≤ n ∧ ∀ s ∈ l, s ≤ n := by
  induction l generalizing a with
  | nil => simp
  | cons b l ih => rw [List.foldl_cons, ih, List.forall_mem_cons, Nat.max_le, and_assoc]

/-- The channels that rules need reach up to their highest slot. -/
theorem channelsNeeded_le_iff {rules : List Rule} {n : Nat} :
    channelsNeeded rules ≤ n + 1 ↔ ∀ r ∈ rules, ∀ s ∈ r.slots, s ≤ n := by
  rw [channelsNeeded, Nat.add_le_add_iff_right, foldl_max_le_iff]
  constructor
  · intro h r hr s hs
    exact h.2 s (List.mem_flatMap.2 ⟨r, hr, hs⟩)
  · intro h
    refine ⟨Nat.zero_le n, fun s hs => ?_⟩
    obtain ⟨r, hr, hs⟩ := List.mem_flatMap.1 hs
    exact h r hr s hs

/-- Every slot of the rules is within the channels of the interpreter. -/
def Interpreter.Covers (i : Interpreter) : Prop := ∀ r ∈ i.rules, ∀ s ∈ r.slots, s < i.channels

/-- Rules that are made ready have enough channels. -/
theorem Interpreter.covers_ofRules (rules : List Rule) (slots : SlotTable) :
    (Interpreter.ofRules rules slots).Covers := by
  intro r hr s hs
  have h := channelsNeeded_le_iff.1 (Nat.le_refl (channelsNeeded rules)) r hr s hs
  exact Nat.lt_of_lt_of_le (Nat.lt_of_le_of_lt h (Nat.lt_succ_self _)) (Nat.le_max_left _ _)

/-- Rules whose slots do not exceed the size of the slot table have one channel more than that. -/
theorem Interpreter.channels_ofRules {rules : List Rule} {slots : SlotTable}
    (h : ∀ r ∈ rules, ∀ s ∈ r.slots, s ≤ slots.size) :
    (Interpreter.ofRules rules slots).channels = slots.size + 1 := by
  have hlength : slots.namesBySlot.length = slots.size := by
    rw [SlotTable.namesBySlot, List.length_map, List.length_mergeSort]
    rfl
  show max (channelsNeeded rules) (slots.namesBySlot.length + 1) = slots.size + 1
  rw [hlength]
  exact Nat.max_eq_right (channelsNeeded_le_iff.2 h)

/-- The demanded writes are within the channels. -/
def Demand.Within (d : Demand) (channels : Nat) : Prop :=
  ∀ s, (d.writes.get? s).isSome → s < channels

namespace Interpreter

variable {i : Interpreter} {v : View}

theorem within_perform {channels : Nat} {d : Demand} {e : Effect} (hd : d.Within channels)
    (he : ∀ s, e.slot? = some s → s < channels) : (perform channels v d e).Within channels := by
  intro s hs
  rw [get?_perform] at hs
  cases e with
  | set slot e =>
    by_cases h : s = slot
    · exact he s (by rw [h]; rfl)
    · exact hd s (by simpa [h] using hs)
  | copy o =>
    by_cases h : s < channels
    · exact h
    · exact hd s (by simpa [h] using hs)
  | raise name e => exact hd s hs

/-- What all rules together demand is within the channels. -/
theorem within_demand (h : i.Covers) (v : View) : (i.demand v).Within i.channels := by
  have hempty : Demand.Within ⟨SlotMap.empty, []⟩ i.channels := fun _ hs => by cases hs
  refine List.foldlRecOn (motive := (Demand.Within · i.channels)) i.rules _ hempty
    fun d hd r hr => ?_
  rw [fire]
  split
  · refine List.foldlRecOn (motive := (Demand.Within · i.channels)) r.effects _ hd
      fun d hd e he => within_perform hd fun s hs => ?_
    exact h r hr s (List.mem_append_right _ (List.mem_filterMap.2 ⟨e, he, hs⟩))
  · exact hd

/-- An interpreter reads no slot beyond its channels. -/
theorem lt_channels_of_mem_reads (h : i.Covers) {r : Offset × Nat} (hr : r ∈ i.reads v) :
    r.2 < i.channels := by
  rcases List.mem_append.1 hr with hr | hr
  · obtain ⟨q, hq, hr⟩ := List.mem_flatMap.1 hr
    exact (Rule.mem_slots_of_mem_reads hr).elim (h q hq r.2) id
  · obtain ⟨e, he, rfl⟩ := List.mem_map.1 hr
    exact within_demand h v e.1 (by rw [SlotMap.get?_eq_some_iff.2 he]; rfl)

/-- An interpreter writes no slot beyond its channels. -/
theorem lt_channels_of_write (h : i.Covers) {a : Action} (ha : a ∈ (i.outcome v).actions) {s : Nat}
    (hs : (a.writes.get? s).isSome) : s < i.channels := by
  rw [(writes_of_mem_actions ha).1, changes, SlotMap.get?_filter] at hs
  exact within_demand h v s (Option.isSome_of_isSome_filter _ _ hs)

end Interpreter

end Script

end BlockAutomata
