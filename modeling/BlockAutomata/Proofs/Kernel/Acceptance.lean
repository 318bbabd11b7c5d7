/-
  Which rules a kernel can be made of.

  1. A refusal names what it found.  `Refusal.Occurs` says that it is really there: anywhere in a
     condition, an effect or an offset, at any depth of counting.

  2. `Decides x causes` — lowering `x` refuses just when there is a cause to, and names one of the
     causes.  The lookup of an offset among those of the window and the comparison of its norm with
     the radius have the same cause, so both parts of the language that name offsets are treated
     alike.

  3. Causes of a part are causes of the whole, and nothing else is: this is the induction over
     expressions and conditions (`expr_decides`).  Names only ascend on the way, also where lowering
     refuses.
-/
import BlockAutomata.Proofs.Kernel.LoweringRuns
import BlockAutomata.Proofs.Script.Narrowing
import BlockAutomata.Proofs.Windows

namespace BlockAutomata

/-! ## What rules refer to -/

namespace Script

/-- The offsets at which the expression itself reads. -/
def Expr.offsets : Expr → List Offset
  | .neighbor o _ => [o]
  | .count os _ => os
  | _ => []

/-- The number, if the expression is one. -/
def Expr.literal? : Expr → Option Int64
  | .literal n => some n
  | _ => none

/-- The offset from which the effect copies. -/
def Effect.offset? : Effect → Option Offset
  | .copy o => some o
  | _ => none

/-- Whether the effect raises an event. -/
def Effect.raises : Effect → Bool
  | .raise _ _ => true
  | _ => false

/-- Every offset that the rule names. -/
def Rule.offsets (r : Rule) : List Offset :=
  r.subterms.flatMap Expr.offsets ++ r.effects.filterMap Effect.offset?

/-- Every number that the rule names. -/
def Rule.literals (r : Rule) : List Int64 := r.subterms.filterMap Expr.literal?

end Script

namespace Kernel

open Script (Expr Cond Effect Rule FitsWord)

/-! ## Refusals and their causes -/

/-- The rules keep to the part of the language that kernels have. -/
structure Supported (radius : Nat) (rules : List Rule) : Prop where
  /-- the block is the only channel that is read or written -/
  slots : ∀ r ∈ rules, ∀ s ∈ r.slots, s = 0
  events : ∀ r ∈ rules, ∀ e ∈ r.effects, e.raises = false
  literals : ∀ r ∈ rules, ∀ n ∈ r.literals, FitsWord n
  offsets : ∀ r ∈ rules, ∀ o ∈ r.offsets, o.norm ≤ radius

theorem all_iff_supported {radius : Nat} {rules : List Rule} :
    (rules.all fun r => r.slots.all (· == 0) && r.effects.all (!·.raises) &&
      r.literals.all (decide <| FitsWord ·) && r.offsets.all (·.norm ≤ radius)) = true ↔
      Supported radius rules := by
  simp only [List.all_eq_true, Bool.and_eq_true, beq_iff_eq, Bool.not_eq_true',
    decide_eq_true_eq, and_assoc]
  exact ⟨fun h => ⟨fun r hr => (h r hr).1, fun r hr => (h r hr).2.1, fun r hr => (h r hr).2.2.1,
      fun r hr => (h r hr).2.2.2⟩,
    fun h r hr => ⟨h.slots r hr, h.events r hr, h.literals r hr, h.offsets r hr⟩⟩

instance (radius : Nat) (rules : List Rule) : Decidable (Supported radius rules) :=
  decidable_of_iff _ all_iff_supported

/-- What the refusal complains about is there. -/
def Refusal.Occurs (radius : Nat) (rules : List Rule) : Refusal → Prop
  | .channel => ∃ r ∈ rules, ∃ s ∈ r.slots, s ≠ 0
  | .event => ∃ r ∈ rules, ∃ e ∈ r.effects, e.raises = true
  | .literalTooWide n => ¬ FitsWord n ∧ ∃ r ∈ rules, n ∈ r.literals
  | .outsideWindow o n => n = radius ∧ radius < o.norm ∧ ∃ r ∈ rules, o ∈ r.offsets

theorem supported_iff {radius : Nat} {rules : List Rule} :
    Supported radius rules ↔ ∀ refusal : Refusal, ¬ refusal.Occurs radius rules := by
  constructor
  · intro h refusal hoccurs
    cases refusal with
    | channel =>
      obtain ⟨r, hr, s, hs, hne⟩ := hoccurs
      exact hne (h.slots r hr s hs)
    | event =>
      obtain ⟨r, hr, e, he, hraises⟩ := hoccurs
      rw [h.events r hr e he] at hraises
      cases hraises
    | outsideWindow o n =>
      obtain ⟨_, hfar, r, hr, ho⟩ := hoccurs
      exact Nat.not_lt.2 (h.offsets r hr o ho) hfar
    | literalTooWide n =>
      obtain ⟨hwide, r, hr, hn⟩ := hoccurs
      exact hwide (h.literals r hr n hn)
  · intro h
    constructor
    · intro r hr s hs
      refine Decidable.byContradiction fun hne => ?_
      exact h .channel ⟨r, hr, s, hs, hne⟩
    · intro r hr e he
      cases hraises : e.raises with
      | false => rfl
      | true => exact absurd ⟨r, hr, e, he, hraises⟩ (h .event)
    · intro r hr n hn
      refine Decidable.byContradiction fun hwide => ?_
      exact h (.literalTooWide n) ⟨hwide, r, hr, hn⟩
    · intro r hr o ho
      refine Decidable.byContradiction fun hfar => ?_
      exact h (.outsideWindow o radius) ⟨rfl, Nat.lt_of_not_le hfar, r, hr, ho⟩

/-- The expression itself, without what is inside it, is a cause for the refusal. -/
def Causes (radius : Nat) : Expr → Refusal → Prop
  | .literal n, f => f = .literalTooWide n ∧ ¬ FitsWord n
  | .channel s, f => f = .channel ∧ s ≠ 0
  | .neighbor o s, f =>
    (f = .channel ∧ s ≠ 0) ∨ (f = .outsideWindow o radius ∧ radius < o.norm)
  | .count os _, f => ∃ o ∈ os, f = .outsideWindow o radius ∧ radius < o.norm
  | .sign _ _, _ => False
  | .arith _ _ _, _ => False

/-- The effect itself, without its expression, is a cause for the refusal. -/
def EffectCauses (radius : Nat) : Effect → Refusal → Prop
  | .set s _, f => f = .channel ∧ s ≠ 0
  | .copy o, f => f = .outsideWindow o radius ∧ radius < o.norm
  | .raise _ _, f => f = .event

/-- Something in the rule is a cause for the refusal. -/
def RuleCauses (radius : Nat) (r : Rule) (refusal : Refusal) : Prop :=
  (∃ x ∈ r.subterms, Causes radius x refusal) ∨ ∃ e ∈ r.effects, EffectCauses radius e refusal

/-- The causes by the kind of the refusal. -/
theorem causes_iff {radius : Nat} {x : Expr} {refusal : Refusal} :
    Causes radius x refusal ↔ match refusal with
      | .channel => ∃ s, x.slot? = some s ∧ s ≠ 0
      | .event => False
      | .literalTooWide n => ¬ FitsWord n ∧ x.literal? = some n
      | .outsideWindow o n => n = radius ∧ radius < o.norm ∧ o ∈ x.offsets := by
  cases refusal <;> cases x <;> simp [Causes, Expr.slot?, Expr.offsets, Expr.literal?] <;> grind

theorem effectCauses_iff {radius : Nat} {e : Effect} {refusal : Refusal} :
    EffectCauses radius e refusal ↔ match refusal with
      | .channel => ∃ s, e.slot? = some s ∧ s ≠ 0
      | .event => e.raises = true
      | .literalTooWide _ => False
      | .outsideWindow o n => n = radius ∧ radius < o.norm ∧ e.offset? = some o := by
  cases refusal <;> cases e <;> simp [EffectCauses, Effect.slot?, Effect.raises, Effect.offset?]
  -- a copy, and a refusal of an offset
  grind

/-- A refusal is about something in the rules just when one of them is a cause for it. -/
theorem exists_ruleCauses_iff {radius : Nat} {rules : List Rule} {refusal : Refusal} :
    (∃ r ∈ rules, RuleCauses radius r refusal) ↔ refusal.Occurs radius rules := by
  cases refusal with
  | channel =>
    refine exists_congr fun r => and_congr_right fun _ => ?_
    simp only [RuleCauses, causes_iff, effectCauses_iff, Rule.slots, List.mem_append,
      List.mem_filterMap]
    constructor
    · rintro (⟨x, hx, s, hs, hne⟩ | ⟨e, he, s, hs, hne⟩)
      · exact ⟨s, Or.inl ⟨x, hx, hs⟩, hne⟩
      · exact ⟨s, Or.inr ⟨e, he, hs⟩, hne⟩
    · rintro ⟨s, ⟨x, hx, hs⟩ | ⟨e, he, hs⟩, hne⟩
      · exact Or.inl ⟨x, hx, s, hs, hne⟩
      · exact Or.inr ⟨e, he, s, hs, hne⟩
  | event => simp [RuleCauses, causes_iff, effectCauses_iff, Refusal.Occurs]
  | literalTooWide n =>
    simp only [RuleCauses, causes_iff, effectCauses_iff, Refusal.Occurs, Rule.literals,
      List.mem_filterMap]
    grind
  | outsideWindow o n =>
    simp only [RuleCauses, causes_iff, effectCauses_iff, Refusal.Occurs, Rule.offsets,
      List.mem_append, List.mem_filterMap, List.mem_flatMap]
    grind

/-! ## Lowering decides -/

/-- The lowering refuses just when there is a cause to, and names one of the causes.  Names only
    ascend, also where it refuses. -/
structure Lowering.Decides {α : Type} (x : Lowering α) (causes : Refusal → Prop) : Prop where
  gives : ∀ {n a n'}, x.Gives n a n' → n ≤ n' ∧ ∀ refusal, ¬ causes refusal
  refuses : ∀ {n refusal n'}, x.Refuses n refusal n' → n ≤ n' ∧ causes refusal

namespace Lowering

namespace Decides

variable {α β : Type} {p q : Refusal → Prop}

theorem congr {x : Lowering α} (h : x.Decides p) (hpq : ∀ refusal, p refusal ↔ q refusal) :
    x.Decides q := by
  rwa [← funext fun refusal => propext (hpq refusal)]

theorem pure (a : α) : (Pure.pure a : Lowering α).Decides fun _ => False where
  gives h := ⟨Nat.le_of_eq (gives_pure.1 h).2.symm, fun _ => id⟩
  refuses h := by cases h

theorem throw {e : Refusal} (he : p e) : (MonadExcept.throw e : Lowering α).Decides p where
  gives h := absurd h not_gives_throw
  refuses h := by cases h; exact ⟨Nat.le_refl _, he⟩

theorem fresh : fresh.Decides fun _ => False where
  gives h := ⟨(gives_fresh.1 h).2 ▸ Nat.le_succ _, fun _ => id⟩
  refuses h := by cases h

theorem bind {x : Lowering α} {f : α → Lowering β} (hx : x.Decides p)
    (hf : ∀ a, (f a).Decides q) : (x >>= f).Decides fun refusal => p refusal ∨ q refusal where
  gives h := by
    obtain ⟨a, m, ha, hb⟩ := gives_bind.1 h
    obtain ⟨hm, hp⟩ := hx.gives ha
    obtain ⟨hn, hq⟩ := (hf a).gives hb
    exact ⟨Nat.le_trans hm hn, fun refusal => not_or.2 ⟨hp refusal, hq refusal⟩⟩
  refuses h := by
    rcases refuses_bind.1 h with he | ⟨a, m, ha, he⟩
    · exact ⟨(hx.refuses he).1, Or.inl (hx.refuses he).2⟩
    · exact ⟨Nat.le_trans (hx.gives ha).1 ((hf a).refuses he).1, Or.inr ((hf a).refuses he).2⟩

/-- What is done at the end changes nothing. -/
theorem map {x : Lowering α} (h : x.Decides p) (g : α → β) :
    (x >>= fun a => Pure.pure (g a)).Decides p :=
  (h.bind fun a => pure (g a)).congr fun _ => iff_of_eq (or_false _)

theorem both {γ : Type} {x : Lowering α} {y : Lowering β} (hx : x.Decides p)
    (hy : y.Decides q) (g : α → β → γ) :
    (x >>= fun a => y >>= fun b => Pure.pure (g a b)).Decides
      fun refusal => p refusal ∨ q refusal :=
  hx.bind fun a => hy.map (g a)

theorem mapM {f : α → Lowering β} {causes : α → Refusal → Prop}
    (hf : ∀ a, (f a).Decides (causes a)) (as : List α) :
    (as.mapM f).Decides fun refusal => ∃ a ∈ as, causes a refusal := by
  induction as with
  | nil =>
    rw [List.mapM_nil]
    exact (pure []).congr fun _ => by simp
  | cons a as ih =>
    rw [List.mapM_cons]
    exact ((hf a).both ih List.cons).congr fun _ => by simp

end Decides

/-! ### Expressions, conditions and effects -/

variable {radius : Nat}

theorem word_decides (n : Int64) :
    (word n).Decides fun f => f = .literalTooWide n ∧ ¬ FitsWord n := by
  unfold word
  split
  · rename_i h
    exact (Decides.pure _).congr fun f => iff_of_false id fun hf => hf.2 h
  · rename_i h
    exact Decides.throw ⟨rfl, h⟩

theorem inWindow_decides (o : Offset) :
    (inWindow radius o).Decides fun f => f = .outsideWindow o radius ∧ radius < o.norm := by
  unfold inWindow
  split
  · rename_i h
    exact Decides.throw ⟨rfl, h⟩
  · rename_i h
    exact (Decides.pure _).congr fun f => iff_of_false id fun hf => h hf.2

/-- Looking an offset up among those of the window is comparing its norm with the radius. -/
theorem placeOf_decides (hradius : radius < 0x40000000) (o : Offset) :
    (placeOf radius o).Decides fun f => f = .outsideWindow o radius ∧ radius < o.norm := by
  unfold placeOf
  rw [Window.idxOf?_windowOffsets hradius, Window.place?]
  by_cases h : o.norm ≤ radius
  · rw [if_pos h]
    exact (Decides.pure _).congr fun f => iff_of_false id fun hf => Nat.not_lt.2 h hf.2
  · rw [if_neg h]
    exact Decides.throw ⟨rfl, Nat.lt_of_not_le h⟩

mutual

/-- Causes of the parts of an expression are causes of the expression, and there are no others but
    the offsets, the slot or the number that it names itself. -/
theorem expr_decides (hradius : radius < 0x40000000) : ∀ (e : Expr) (anchor : Anchor),
    (expr radius anchor e).Decides fun f => ∃ x ∈ e.subterms, Causes radius x f
  | .literal n, anchor => by
    rw [expr]
    exact ((word_decides n).map _).congr fun f => by simp [Expr.subterms, Causes]
  | .channel 0, anchor => by
    rw [expr]
    exact (Decides.pure _).congr fun f => by simp [Expr.subterms, Causes]
  | .channel (s + 1), anchor => by
    rw [expr]
    exact Decides.throw (by simp [Expr.subterms, Causes])
  | .neighbor o 0, anchor => by
    rw [expr]
    exact ((inWindow_decides o).map _).congr fun f => by simp [Expr.subterms, Causes]
  | .neighbor o (s + 1), anchor => by
    rw [expr]
    exact Decides.throw (by simp [Expr.subterms, Causes])
  | .count os c, anchor => by
    rw [expr]
    have hos := Decides.mapM (placeOf_decides hradius) os
    refine (hos.bind fun is => Decides.fresh.bind fun id =>
      (cond_decides hradius c (.loop id)).map _).congr fun f => ?_
    simp [Expr.subterms, Causes]
  | .sign l r, anchor => by
    rw [expr]
    refine ((expr_decides hradius l anchor).both (expr_decides hradius r anchor) _).congr
      fun f => ?_
    simp [Expr.subterms, Causes, or_and_right, exists_or]
  | .arith l r op, anchor => by
    rw [expr]
    refine ((expr_decides hradius l anchor).both (expr_decides hradius r anchor) _).congr
      fun f => ?_
    simp [Expr.subterms, Causes, or_and_right, exists_or]

/-- The causes of a condition are those of its expressions. -/
theorem cond_decides (hradius : radius < 0x40000000) : ∀ (c : Cond) (anchor : Anchor),
    (cond radius anchor c).Decides fun f => ∃ x ∈ c.subterms, Causes radius x f
  | .all cs, anchor => by
    rw [cond, Cond.subterms]
    exact (conds_decides hradius cs anchor).map _
  | .not c, anchor => by
    rw [cond, Cond.subterms]
    exact (cond_decides hradius c anchor).map _
  | .equal l r, anchor => by
    rw [cond]
    refine ((expr_decides hradius l anchor).both (expr_decides hradius r anchor) _).congr
      fun f => ?_
    simp [Cond.subterms, or_and_right, exists_or]

/-- The causes of conditions are those of their expressions. -/
theorem conds_decides (hradius : radius < 0x40000000) : ∀ (cs : List Cond) (anchor : Anchor),
    (conds radius anchor cs).Decides fun f => ∃ x ∈ Cond.subtermsAll cs, Causes radius x f
  | [], anchor => by
    rw [conds]
    exact (Decides.pure _).congr fun f => by simp [Cond.subtermsAll]
  | c :: cs, anchor => by
    rw [conds]
    refine ((cond_decides hradius c anchor).both (conds_decides hradius cs anchor) _).congr
      fun f => ?_
    simp [Cond.subtermsAll, or_and_right, exists_or]

end

theorem effect_decides (hradius : radius < 0x40000000) (e : Effect) :
    (effect radius e).Decides fun f =>
      (∃ x ∈ e.subterms, Causes radius x f) ∨ EffectCauses radius e f := by
  match e with
  | .set 0 e =>
    rw [effect]
    refine (expr_decides hradius e .center).congr fun f => ?_
    cases f <;> grind [EffectCauses, Effect.slot?, Effect.raises, Effect.offset?, Effect.subterms]
  | .set (s + 1) e => exact Decides.throw (Or.inr ⟨rfl, Nat.succ_ne_zero s⟩)
  | .copy o =>
    rw [effect]
    refine ((inWindow_decides o).map _).congr fun f => ?_
    cases f <;> grind [EffectCauses, Effect.slot?, Effect.raises, Effect.offset?, Effect.subterms]
  | .raise name value => exact Decides.throw (Or.inr rfl)

theorem effects_decides (hradius : radius < 0x40000000) (es : List Effect) :
    (effects radius es).Decides fun f =>
      (∃ x ∈ es.flatMap Effect.subterms, Causes radius x f) ∨
        ∃ e ∈ es, EffectCauses radius e f := by
  induction es with
  | nil =>
    rw [effects]
    exact (Decides.pure _).congr fun f => by simp
  | cons e es ih =>
    rw [effects]
    refine ((effect_decides hradius e).both ih _).congr fun f => ?_
    simp only [List.flatMap_cons, List.mem_append, List.mem_cons, or_and_right, exists_or,
      exists_eq_left]
    exact or_or_or_comm

theorem rule_decides (hradius : radius < 0x40000000) (r : Rule) :
    (rule radius r).Decides (RuleCauses radius r) := by
  unfold rule
  refine ((cond_decides hradius r.condition .center).both (effects_decides hradius r.effects)
    _).congr fun f => ?_
  simp only [RuleCauses, Rule.subterms, List.mem_append, or_and_right, exists_or, or_assoc]

end Lowering

/-! ## Kernels -/

/-- In the window of a kernel no place wraps around. -/
theorem Config.volume_lt_of_check {c : Config} (h : c.check = .ok ()) :
    windowVolume c.radius < 0x80000000 := by
  obtain ⟨radius, ⟨wx, wy, wz⟩, entryPoint⟩ := c
  by_cases hr : radius = 0 ∨ maxRadius < radius
  · simp [check, hr] at h
  · unfold maxRadius at hr
    refine Window.volume_lt_iff.2 ?_
    show radius ≤ 644
    omega

theorem Config.radius_lt_of_check {c : Config} (h : c.check = .ok ()) : c.radius < 0x40000000 :=
  Window.radius_lt_of_volume_lt (volume_lt_of_check h)

theorem Builder.lower_decides {radius : Nat} (hradius : radius < 0x40000000) (rules : List Rule) :
    (lower radius rules).Decides fun f => f.Occurs radius rules :=
  (Lowering.Decides.mapM (Lowering.rule_decides hradius) rules).congr
    fun _ => exists_ruleCauses_iff

/-- Rules are made into a kernel just when they keep to the part of the language that kernels have;
    and where they are refused, what the refusal complains about is there. -/
theorem build_ok_iff_supported {config : Config} (hconfig : config.check = .ok ()) (nextId : Nat)
    (rules : List Rule) :
    ((∃ shader, (Builder.build ⟨config, nextId⟩ rules).1 = .ok shader) ↔
      Supported config.radius rules) ∧
    ∀ refusal, (Builder.build ⟨config, nextId⟩ rules).1 = .error refusal →
      refusal.Occurs config.radius rules := by
  have hdecides := Builder.lower_decides (Config.radius_lt_of_check hconfig) rules
  rcases Lowering.gives_or_refuses (Builder.lower config.radius rules) nextId with
    ⟨codes, n', hrun⟩ | ⟨e, n', hrun⟩
  · rw [Builder.build_of_gives hrun]
    refine ⟨iff_of_true ⟨_, rfl⟩ (supported_iff.2 (hdecides.gives hrun).2), fun refusal h => ?_⟩
    cases h
  · have hoccurs : e.Occurs config.radius rules := (hdecides.refuses hrun).2
    rw [Builder.build_of_refuses hrun]
    refine ⟨iff_of_false (fun ⟨_, h⟩ => by cases h) fun h => supported_iff.1 h e hoccurs,
      fun refusal h => ?_⟩
    cases h
    exact hoccurs

/-- A block 3 becomes 7 when the block above it has a block 5 at an offset. -/
def climbingRules (o : Offset) : List Rule := [
  ⟨.all [.isBlock 3, .equal (.count [⟨0, 1, 0⟩] (.equal (.count [o] (.isBlock 5)) (.literal 1)))
      (.literal 1)],
    [.set 0 (.literal 7)]⟩]

theorem build_climbingRules : Config.standard.check = .ok () ∧
    (∃ shader, (Builder.build ⟨.standard, 7⟩ (climbingRules ⟨0, 1, 0⟩)).1 = .ok shader) ∧
    ¬ Supported 1 (climbingRules ⟨0, 2, 0⟩) ∧
    (Refusal.outsideWindow ⟨0, 2, 0⟩ 1).Occurs 1 (climbingRules ⟨0, 2, 0⟩) := by
  have hconfig : Config.standard.check = .ok () := rfl
  have hnear := build_ok_iff_supported hconfig 7 (climbingRules ⟨0, 1, 0⟩)
  have hfar := build_ok_iff_supported hconfig 7 (climbingRules ⟨0, 2, 0⟩)
  refine ⟨hconfig, hnear.1.2 (by decide +kernel), fun h => ?_, hfar.2 _ rfl⟩
  obtain ⟨shader, hshader⟩ := hfar.1.2 h
  cases hshader

end Kernel

end BlockAutomata
