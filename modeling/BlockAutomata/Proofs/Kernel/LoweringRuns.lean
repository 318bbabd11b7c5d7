/-
  Runs of the lowering.

  1. `Gives x n a n'` — lowering, started with the free name `n`, succeeds with `a` and leaves `n'`
     free.  One equation for each way of lowering takes such a run apart.  `Refuses x n e n'` is the
     other way in which a run can end.

  2. Most trees are lowered in the same way: one part, then the other from the names that the first
     one has left, with the loops of both in this order (`gives_both`).  Only counting hands out a
     name (`gives_count`).

  3. A builder runs the lowering once for each list of rules, and goes on with the name that is
     left.

  No statement about lowered code needs to unfold the lowering monad beyond this.
-/
import BlockAutomata.Kernel.Shader

namespace BlockAutomata.Kernel

open Script (Expr Cond Effect Rule)

/-! ## Runs of the lowering -/

/-- Lowering from the free name `n` succeeds with `a` and leaves the name `n'` free. -/
def Lowering.Gives {α : Type} (x : Lowering α) (n : Nat) (a : α) (n' : Nat) : Prop :=
  x.run.run n = (.ok a, n')

/-- Lowering from the free name `n` refuses, and leaves the name `n'` free. -/
def Lowering.Refuses {α : Type} (x : Lowering α) (n : Nat) (e : Refusal) (n' : Nat) : Prop :=
  x.run.run n = (.error e, n')

namespace Lowering

variable {α β : Type}

theorem gives_or_refuses (x : Lowering α) (n : Nat) :
    (∃ a n', x.Gives n a n') ∨ ∃ e n', x.Refuses n e n' := by
  rcases h : x.run.run n with ⟨e | a, n'⟩
  · exact Or.inr ⟨e, n', h⟩
  · exact Or.inl ⟨a, n', h⟩

theorem gives_pure {a b : α} {n n' : Nat} :
    (pure a : Lowering α).Gives n b n' ↔ b = a ∧ n' = n := by
  show ((Except.ok a : Except Refusal α), n) = (.ok b, n') ↔ _
  rw [Prod.mk.injEq, Except.ok.injEq, eq_comm, eq_comm (a := n)]

theorem run_bind (x : Lowering α) (f : α → Lowering β) (n : Nat) :
    (x >>= f).run.run n =
      match x.run.run n with
      | (.ok a, m) => (f a).run.run m
      | (.error e, m) => (.error e, m) := by
  show (ExceptT.bindCont f (x.run.run n).1).run (x.run.run n).2 = _
  rcases x.run.run n with ⟨a | a, m⟩ <;> rfl

theorem gives_bind {x : Lowering α} {f : α → Lowering β} {n n' : Nat} {b : β} :
    (x >>= f).Gives n b n' ↔ ∃ a m, x.Gives n a m ∧ (f a).Gives m b n' := by
  unfold Gives
  rw [run_bind]
  rcases h : x.run.run n with ⟨e | a, m⟩
  · constructor
    · intro hb; cases hb
    · rintro ⟨a, k, ha, _⟩; cases ha
  · constructor
    · intro hb; exact ⟨a, m, rfl, hb⟩
    · rintro ⟨a', m', ha, hb⟩; cases ha; exact hb

theorem refuses_bind {x : Lowering α} {f : α → Lowering β} {n n' : Nat} {e : Refusal} :
    (x >>= f).Refuses n e n' ↔ x.Refuses n e n' ∨ ∃ a m, x.Gives n a m ∧ (f a).Refuses m e n' := by
  unfold Refuses Gives
  rw [run_bind]
  rcases h : x.run.run n with ⟨e' | a, m⟩
  · constructor
    · intro he; cases he; exact Or.inl rfl
    · rintro (he | ⟨a, k, ha, _⟩)
      · cases he; rfl
      · cases ha
  · constructor
    · intro he; exact Or.inr ⟨a, m, rfl, he⟩
    · rintro (he | ⟨a', m', ha, he⟩)
      · cases he
      · cases ha; exact he

theorem not_gives_throw {e : Refusal} {n n' : Nat} {a : α} :
    ¬ (throw e : Lowering α).Gives n a n' := by
  intro h
  cases h

theorem gives_fresh {n n' id : Nat} : fresh.Gives n id n' ↔ id = n ∧ n' = n + 1 := by
  show ((Except.ok n : Except Refusal Nat), n + 1) = (.ok id, n') ↔ _
  rw [Prod.mk.injEq, Except.ok.injEq, eq_comm, eq_comm (a := n + 1)]

theorem gives_inWindow {radius n n' : Nat} {o p : Offset} :
    (inWindow radius o).Gives n p n' ↔ o.norm ≤ radius ∧ p = o ∧ n' = n := by
  unfold inWindow
  split
  · rename_i h
    exact ⟨fun hg => absurd hg not_gives_throw, fun hg => by omega⟩
  · rename_i h
    rw [gives_pure]
    exact ⟨fun hg => ⟨by omega, hg⟩, fun hg => hg.2⟩

theorem gives_placeOf {radius n n' i : Nat} {o : Offset} :
    (placeOf radius o).Gives n i n' ↔ (windowOffsets radius).idxOf? o = some i ∧ n' = n := by
  unfold placeOf
  split
  · rename_i j h
    rw [gives_pure, h, Option.some.injEq, eq_comm]
  · rename_i h
    rw [h]
    exact ⟨fun hg => absurd hg not_gives_throw, fun hg => absurd hg.1 (by simp)⟩

theorem gives_word {v : Int64} {w : Int32} {n n' : Nat} :
    (word v).Gives n w n' ↔
      (-0x80000000 ≤ v.toInt ∧ v.toInt < 0x80000000) ∧ w = v.toInt32 ∧ n' = n := by
  unfold word
  split
  · rename_i h
    rw [gives_pure]
    exact ⟨fun hg => ⟨h, hg⟩, fun hg => hg.2⟩
  · rename_i h
    exact ⟨fun hg => absurd hg not_gives_throw, fun hg => absurd hg.1 h⟩

theorem gives_mapM_cons {f : α → Lowering β} {a : α} {as : List α} {bs : List β} {n n' : Nat} :
    ((a :: as).mapM f).Gives n bs n' ↔
      ∃ b m cs, (f a).Gives n b m ∧ (as.mapM f).Gives m cs n' ∧ bs = b :: cs := by
  simp only [List.mapM_cons, gives_bind, gives_pure]
  constructor
  · rintro ⟨b, m, hb, cs, k, hcs, rfl, rfl⟩
    exact ⟨b, m, cs, hb, hcs, rfl⟩
  · rintro ⟨b, m, cs, hb, hcs, rfl⟩
    exact ⟨b, m, hb, cs, n', hcs, rfl, rfl⟩

/-- The places found for a list of offsets lead back to these offsets. -/
theorem offsets_of_gives_mapM_placeOf {radius n n' : Nat} {os : List Offset} {is : List Nat}
    (h : (os.mapM (placeOf radius)).Gives n is n') :
    n' = n ∧ is.map (fun i => (windowOffsets radius)[i]?) = os.map some := by
  induction os generalizing n is with
  | nil =>
    rw [List.mapM_nil, gives_pure] at h
    obtain ⟨rfl, rfl⟩ := h
    exact ⟨rfl, rfl⟩
  | cons o os ih =>
    obtain ⟨i, m, js, hi, hjs, rfl⟩ := gives_mapM_cons.1 h
    obtain ⟨hfound, rfl⟩ := gives_placeOf.1 hi
    obtain ⟨rfl, hos⟩ := ih hjs
    obtain ⟨hlt, hget, _⟩ := List.idxOf?_eq_some_iff.1 hfound
    refine ⟨rfl, ?_⟩
    rw [List.map_cons, List.map_cons, hos, List.getElem?_eq_getElem hlt, hget]

/-! ### Trees -/

/-- One part, then the other. -/
theorem gives_both {γ : Type} {x : Lowering (List Loop × α)} {y : Lowering (List Loop × β)}
    {g : α → β → γ} {n n' : Nat} {out : List Loop × γ} :
    (do
      let (before, a) ← x
      let (after, b) ← y
      return (before ++ after, g a b) : Lowering (List Loop × γ)).Gives n out n' ↔
      ∃ before a m after b, x.Gives n (before, a) m ∧ y.Gives m (after, b) n' ∧
        out = (before ++ after, g a b) := by
  simp only [gives_bind, gives_pure, Prod.exists]
  constructor
  · rintro ⟨before, a, m, hx, after, b, _, hy, rfl, rfl⟩
    exact ⟨before, a, m, after, b, hx, hy, rfl⟩
  · rintro ⟨before, a, m, after, b, hx, hy, rfl⟩
    exact ⟨before, a, m, hx, after, b, n', hy, rfl, rfl⟩

/-- One part, whose loops are kept. -/
theorem gives_one {x : Lowering (List Loop × α)} {g : α → β} {n n' : Nat} {out : List Loop × β} :
    (do
      let (loops, a) ← x
      return (loops, g a) : Lowering (List Loop × β)).Gives n out n' ↔
      ∃ loops a, x.Gives n (loops, a) n' ∧ out = (loops, g a) := by
  simp only [gives_bind, gives_pure, Prod.exists]
  constructor
  · rintro ⟨loops, a, _, hx, rfl, rfl⟩
    exact ⟨loops, a, hx, rfl⟩
  · rintro ⟨loops, a, hx, rfl⟩
    exact ⟨loops, a, n', hx, rfl, rfl⟩

/-- A count becomes one loop.  It has the first free name, its indices lead to the offsets, and its
    body and test are the condition, read from where the loop stands. -/
theorem exists_of_gives_count {radius n n' : Nat} {anchor : Anchor} {os : List Offset} {c : Cond}
    {out : List Loop × Term} (h : (expr radius anchor (.count os c)).Gives n out n') :
    ∃ indices body test, indices.map (fun i => (windowOffsets radius)[i]?) = os.map some ∧
      (cond radius (.loop n) c).Gives (n + 1) (body, test) n' ∧
      out = ([.mk n anchor indices body test], .result n) := by
  simp only [expr, gives_bind, gives_fresh, gives_pure, Prod.exists] at h
  obtain ⟨is, _, his, _, _, ⟨rfl, rfl⟩, body, test, _, hc, rfl, rfl⟩ := h
  obtain ⟨rfl, hos⟩ := offsets_of_gives_mapM_placeOf his
  exact ⟨is, body, test, hos, hc, rfl⟩

end Lowering

/-! ## Builders -/

/-- The kernel with this code. -/
def Shader.ofCode (config : Config) (codes : List Code) : Shader where
  config := config
  offsets := windowOffsets config.radius
  rules := codes
  text := ShaderText.whole config (windowOffsets config.radius) codes

namespace Builder

variable {config : Config} {rules : List Rule} {n n' : Nat}

theorem build_of_gives {codes : List Code} (h : (lower config.radius rules).Gives n codes n') :
    build ⟨config, n⟩ rules = (.ok (Shader.ofCode config codes), ⟨config, n'⟩) := by
  unfold build
  rw [show (lower config.radius rules).run.run n = (.ok codes, n') from h]
  rfl

theorem build_of_refuses {e : Refusal} (h : (lower config.radius rules).Refuses n e n') :
    build ⟨config, n⟩ rules = (.error e, ⟨config, n'⟩) := by
  unfold build
  rw [show (lower config.radius rules).run.run n = (.error e, n') from h]
  rfl

/-- A kernel that has been built comes from a successful lowering. -/
theorem exists_of_build {shader : Shader} (h : (build ⟨config, n⟩ rules).1 = .ok shader) :
    ∃ codes n', (lower config.radius rules).Gives n codes n' ∧
      shader = Shader.ofCode config codes := by
  rcases Lowering.gives_or_refuses (lower config.radius rules) n with
    ⟨codes, n', hrun⟩ | ⟨e, n', hrun⟩
  · rw [build_of_gives hrun] at h
    cases h
    exact ⟨codes, n', hrun, rfl⟩
  · rw [build_of_refuses hrun] at h
    cases h

end Builder

end BlockAutomata.Kernel
