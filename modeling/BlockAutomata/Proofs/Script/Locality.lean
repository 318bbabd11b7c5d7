/-
  How far rules look.

  1. `distances` lists how far each read inside an expression or a condition may lie from the cell.
     Counting moves the reads of its condition away by each of its offsets, so there the distances
     add up.

  2. Two views that agree below a distance answer alike whatever reads stay below it
     (`eval_of_agreeBelow`, `holds_of_agreeBelow`).  Bounds are strict, so that a condition
     without reads may be counted anywhere.

  3. An outcome also looks at the cell itself, to drop what changes nothing
     (`outcome_of_agreeBelow`).
-/
import BlockAutomata.Proofs.Places
import BlockAutomata.Proofs.Script.Changes

namespace BlockAutomata

/-- The views show the same at every offset of a norm below the bound. -/
def View.AgreeBelow (n : Nat) (v₁ v₂ : View) : Prop :=
  ∀ o : Offset, o.norm < n → ∀ slot, v₁.read o slot = v₂.read o slot

theorem View.AgreeBelow.shift {n : Nat} {v₁ v₂ : View} (h : v₁.AgreeBelow n v₂) (o : Offset) :
    (v₁.shift o).AgreeBelow (n - o.norm) (v₂.shift o) := by
  intro d hd slot
  have hsum := o.norm_add_le d
  exact h (o + d) (by omega) slot

theorem View.AgreeBelow.own {n : Nat} {v₁ v₂ : View} (h : v₁.AgreeBelow n v₂) (hn : 0 < n)
    (slot : Nat) : v₁.own slot = v₂.own slot :=
  h Offset.zero hn slot

namespace Script

/-! ## Distances -/

mutual

/-- How far the reads inside the expression may lie from the cell. -/
def Expr.distances : Expr → List Nat
  | .literal _ => []
  | .channel _ => [0]
  | .neighbor o _ => [o.norm]
  | .count os c => os.flatMap fun o => c.distances.map (o.norm + ·)
  | .sign l r => l.distances ++ r.distances
  | .arith l r _ => l.distances ++ r.distances

/-- How far the reads inside the condition may lie from the cell. -/
def Cond.distances : Cond → List Nat
  | .all cs => Cond.distancesAll cs
  | .not c => c.distances
  | .equal l r => l.distances ++ r.distances

/-- How far the reads inside the conditions may lie from the cell. -/
def Cond.distancesAll : List Cond → List Nat
  | [] => []
  | c :: cs => c.distances ++ Cond.distancesAll cs

end

/-- How far the reads of the effect may lie from the cell. -/
def Effect.distances : Effect → List Nat
  | .set _ e => e.distances
  | .copy o => [o.norm]
  | .raise _ none => []
  | .raise _ (some e) => e.distances

/-- How far the reads of the rule may lie from the cell. -/
def Rule.distances (r : Rule) : List Nat :=
  r.condition.distances ++ r.effects.flatMap Effect.distances

/-- Whether every read of the rules lies within the distance. -/
def ReadsWithin (rules : List Rule) (radius : Nat) : Prop :=
  ∀ r ∈ rules, ∀ d ∈ r.distances, d ≤ radius

/-! ## Looking no further -/

mutual

/-- An expression whose reads stay below a distance cannot tell views apart that agree there. -/
theorem Expr.eval_of_agreeBelow : ∀ (e : Expr) {n : Nat} {v₁ v₂ : View},
    (∀ d ∈ e.distances, d < n) → v₁.AgreeBelow n v₂ → e.eval v₁ = e.eval v₂
  | .literal _, _, _, _, _, _ => rfl
  | .channel s, n, _, _, hd, h => h.own (hd 0 List.mem_cons_self) s
  | .neighbor o s, n, _, _, hd, h => h o (hd _ List.mem_cons_self) s
  | .count os c, n, v₁, v₂, hd, h => by
    have hc : ∀ o ∈ os, c.holds (v₁.shift o) = c.holds (v₂.shift o) := by
      intro o ho
      refine c.holds_of_agreeBelow (fun d hmem => ?_) (h.shift o)
      -- a read at distance `d` from the neighbour counts as one at the sum
      have hsum := hd (o.norm + d) (List.mem_flatMap.2 ⟨o, ho, List.mem_map.2 ⟨d, hmem, rfl⟩⟩)
      omega
    show Int64.ofNat (os.countP _) = Int64.ofNat (os.countP _)
    rw [List.countP_congr fun o ho => by rw [hc o ho]]
  | .sign l r, n, v₁, v₂, hd, h => by
    rw [Expr.eval, Expr.eval,
      l.eval_of_agreeBelow (fun d hm => hd d (List.mem_append_left _ hm)) h,
      r.eval_of_agreeBelow (fun d hm => hd d (List.mem_append_right _ hm)) h]
  | .arith l r op, n, v₁, v₂, hd, h => by
    rw [Expr.eval, Expr.eval,
      l.eval_of_agreeBelow (fun d hm => hd d (List.mem_append_left _ hm)) h,
      r.eval_of_agreeBelow (fun d hm => hd d (List.mem_append_right _ hm)) h]

theorem Cond.holds_of_agreeBelow : ∀ (c : Cond) {n : Nat} {v₁ v₂ : View},
    (∀ d ∈ c.distances, d < n) → v₁.AgreeBelow n v₂ → c.holds v₁ = c.holds v₂
  | .all cs, n, _, _, hd, h => Cond.allHold_of_agreeBelow cs hd h
  | .not c, n, v₁, v₂, hd, h => by
    rw [Cond.holds, Cond.holds, c.holds_of_agreeBelow hd h]
  | .equal l r, n, v₁, v₂, hd, h => by
    rw [Cond.holds, Cond.holds,
      l.eval_of_agreeBelow (fun d hm => hd d (List.mem_append_left _ hm)) h,
      r.eval_of_agreeBelow (fun d hm => hd d (List.mem_append_right _ hm)) h]

theorem Cond.allHold_of_agreeBelow : ∀ (cs : List Cond) {n : Nat} {v₁ v₂ : View},
    (∀ d ∈ Cond.distancesAll cs, d < n) → v₁.AgreeBelow n v₂ →
      Cond.allHold cs v₁ = Cond.allHold cs v₂
  | [], _, _, _, _, _ => rfl
  | c :: cs, n, v₁, v₂, hd, h => by
    rw [Cond.allHold, Cond.allHold,
      c.holds_of_agreeBelow (fun d hm => hd d (List.mem_append_left _ hm)) h,
      Cond.allHold_of_agreeBelow cs (fun d hm => hd d (List.mem_append_right _ hm)) h]

end

namespace Interpreter

variable {n channels : Nat} {v₁ v₂ : View}

theorem perform_of_agreeBelow (d : Demand) (e : Effect) (he : ∀ k ∈ e.distances, k < n)
    (h : v₁.AgreeBelow n v₂) : perform channels v₁ d e = perform channels v₂ d e := by
  match e, he with
  | .set s e, he => rw [perform, perform, e.eval_of_agreeBelow he h]
  | .copy o, he =>
    have ho : v₁.read o = v₂.read o := funext (h o (he _ List.mem_cons_self))
    rw [perform, perform, ho]
  | .raise name none, _ => rfl
  | .raise name (some e), he =>
    rw [perform, perform, Option.map_some, Option.map_some, e.eval_of_agreeBelow he h]

theorem fire_of_agreeBelow (d : Demand) (r : Rule) (hr : ∀ k ∈ r.distances, k < n)
    (h : v₁.AgreeBelow n v₂) : fire channels v₁ d r = fire channels v₂ d r := by
  have hcond := r.condition.holds_of_agreeBelow (fun k hk => hr k (List.mem_append_left _ hk)) h
  have heffects : ∀ e ∈ r.effects, ∀ k ∈ e.distances, k < n := fun e he k hk =>
    hr k (List.mem_append_right _ (List.mem_flatMap.2 ⟨e, he, hk⟩))
  have hfold : ∀ (l : List Effect) (d : Demand), (∀ e ∈ l, ∀ k ∈ e.distances, k < n) →
      l.foldl (perform channels v₁) d = l.foldl (perform channels v₂) d := by
    intro l
    induction l with
    | nil => intro _ _; rfl
    | cons e rest ih =>
      intro d hl
      rw [List.forall_mem_cons] at hl
      rw [List.foldl_cons, List.foldl_cons, perform_of_agreeBelow d e hl.1 h, ih _ hl.2]
  rw [fire, fire, hcond, hfold r.effects d heffects]

/-- Views that agree as far as the rules look have the same outcome. -/
theorem outcome_of_agreeBelow (i : Interpreter)
    (hreads : ∀ r ∈ i.rules, ∀ k ∈ r.distances, k < n) (hn : 0 < n) (h : v₁.AgreeBelow n v₂) :
    i.outcome v₁ = i.outcome v₂ := by
  have hfold : ∀ (l : List Rule) (d : Demand), (∀ r ∈ l, ∀ k ∈ r.distances, k < n) →
      l.foldl (fire i.channels v₁) d = l.foldl (fire i.channels v₂) d := by
    intro l
    induction l with
    | nil => intro _ _; rfl
    | cons r rest ih =>
      intro d hl
      rw [List.forall_mem_cons] at hl
      rw [List.foldl_cons, List.foldl_cons, fire_of_agreeBelow d r hl.1 h, ih _ hl.2]
  have hdemand : i.demand v₁ = i.demand v₂ := hfold i.rules _ hreads
  have hown : v₁.own = v₂.own := funext (h.own hn)
  rw [outcome, outcome, hdemand, hown]

end Interpreter

end Script

end BlockAutomata
