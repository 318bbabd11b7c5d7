/-
  Names of loops in lowered code.

  1. A scope knows the loops that have run and the loops that one is inside of.  Code is in scope
     when it reads only results of loops that stand earlier in the same list or in one around it,
     and is anchored only at loops around it (`Loop.InScope`, `Code.WellScoped`).

  2. `subloops` lists the loops of lowered code, each before those in its body.  Lowering from `n`
     on names them `n`, `n + 1`, ... in this order, and the indices of each lead to the offsets that
     the rules count over (`Numbered`).

  3. Both are carried through the trees by `Lowered`.  What is lowered first stays in scope when
     more loops stand before it, since a scope only grows.
-/
import BlockAutomata.Proofs.Kernel.LoweringRuns
import BlockAutomata.Script.Reads

namespace BlockAutomata

/-- The offsets that the expression itself counts over. -/
def Script.Expr.counted? : Script.Expr → Option (List Offset)
  | .count os _ => some os
  | _ => none

namespace Kernel

open Script (Expr Cond Effect Rule)

/-! ## Loops and the loops inside them -/

namespace Loop

/-- The name of the loop. -/
def id : Loop → Nat
  | .mk id _ _ _ _ => id

/-- The places of the offsets that the loop goes through. -/
def indices : Loop → List Nat
  | .mk _ _ indices _ _ => indices

mutual

/-- The loop and every loop inside it, outermost first. -/
def subloops : Loop → List Loop
  | .mk id anchor indices body test => .mk id anchor indices body test :: subloopsAll body

/-- The loops and every loop inside them, outermost first. -/
def subloopsAll : List Loop → List Loop
  | [] => []
  | c :: cs => c.subloops ++ subloopsAll cs

end

theorem subloopsAll_append (before after : List Loop) :
    subloopsAll (before ++ after) = subloopsAll before ++ subloopsAll after := by
  induction before with
  | nil => rfl
  | cons c cs ih => rw [List.cons_append, subloopsAll, subloopsAll, ih, List.append_assoc]

end Loop

/-- Every loop of the kernel, in the order of the text. -/
def Shader.loops (s : Shader) : List Loop := s.rules.flatMap fun c => Loop.subloopsAll c.loops

/-! ## Scopes -/

/-- Which names of loops mean something at some place in the code. -/
structure Scope where
  /-- the loops that have run: their results may be read -/
  counted : List Nat
  /-- the loops that the place is inside of: reads may be anchored there -/
  around : List Nat

namespace Scope

/-- Outside of all loops, before the first. -/
def empty : Scope := ⟨[], []⟩

/-- Behind the loops, in the same list. -/
def after (sc : Scope) (cs : List Loop) : Scope :=
  { sc with counted := sc.counted ++ cs.map Loop.id }

/-- Inside the loop with this name. -/
def inside (sc : Scope) (id : Nat) : Scope := { sc with around := id :: sc.around }

/-- The second scope knows at least as much. -/
def Le (sc sc' : Scope) : Prop := sc.counted ⊆ sc'.counted ∧ sc.around ⊆ sc'.around

theorem Le.refl (sc : Scope) : sc.Le sc := ⟨List.Subset.refl _, List.Subset.refl _⟩

theorem Le.trans {a b c : Scope} (h : a.Le b) (h' : b.Le c) : a.Le c :=
  ⟨fun _ hid => h'.1 (h.1 hid), fun _ hid => h'.2 (h.2 hid)⟩

theorem le_after (sc : Scope) (cs : List Loop) : sc.Le (sc.after cs) :=
  ⟨List.subset_append_left _ _, List.Subset.refl _⟩

theorem le_inside (sc : Scope) (id : Nat) : sc.Le (sc.inside id) :=
  ⟨List.Subset.refl _, List.subset_cons_self _ _⟩

theorem after_nil (sc : Scope) : sc.after [] = sc := by
  rw [after, List.map_nil, List.append_nil]

theorem after_append (sc : Scope) (before after : List Loop) :
    sc.after (before ++ after) = (sc.after before).after after := by
  rw [Scope.after, List.map_append, ← List.append_assoc]
  rfl

end Scope

/-- The anchor is the centre or a loop around the place. -/
def Anchor.InScope (sc : Scope) : Anchor → Prop
  | .center => True
  | .loop id => id ∈ sc.around

/-- The term reads only results of loops that have run, and is anchored at loops around it. -/
def Term.InScope (sc : Scope) : Term → Prop
  | .word _ => True
  | .block anchor _ => anchor.InScope sc
  | .result id => id ∈ sc.counted
  | .sign l r => l.InScope sc ∧ r.InScope sc
  | .arith _ l r => l.InScope sc ∧ r.InScope sc

mutual

/-- The terms of the test are in scope. -/
def Test.InScope (sc : Scope) : Test → Prop
  | .eq l r => l.InScope sc ∧ r.InScope sc
  | .all ts => Test.AllInScope sc ts
  | .not t => t.InScope sc

/-- The terms of the tests are in scope. -/
def Test.AllInScope (sc : Scope) : List Test → Prop
  | [] => True
  | t :: ts => t.InScope sc ∧ Test.AllInScope sc ts

end

mutual

/-- The loop is anchored at a loop around it, its body is in scope inside of it, and so is its test
    behind the body. -/
def Loop.InScope (sc : Scope) : Loop → Prop
  | .mk id anchor _ body test =>
    anchor.InScope sc ∧ Loop.AllInScope (sc.inside id) body ∧
      test.InScope ((sc.inside id).after body)

/-- Each loop is in scope behind the ones before it. -/
def Loop.AllInScope (sc : Scope) : List Loop → Prop
  | [] => True
  | c :: cs => c.InScope sc ∧ Loop.AllInScope (sc.after [c]) cs

end

/-- Loops, test and values of the rule are in scope, when nothing stands before it. -/
structure Code.WellScoped (c : Code) : Prop where
  loops : Loop.AllInScope Scope.empty c.loops
  test : c.test.InScope (Scope.empty.after c.loops)
  values : ∀ t ∈ c.values, t.InScope (Scope.empty.after c.loops)

theorem Anchor.InScope.mono {sc sc' : Scope} (hle : sc.Le sc') {a : Anchor} (h : a.InScope sc) :
    a.InScope sc' := by
  cases a with
  | center => trivial
  | loop id => exact hle.2 h

theorem Loop.allInScope_append {sc : Scope} {before after : List Loop} :
    Loop.AllInScope sc (before ++ after) ↔
      Loop.AllInScope sc before ∧ Loop.AllInScope (sc.after before) after := by
  induction before generalizing sc with
  | nil => rw [List.nil_append, Loop.AllInScope, true_and, Scope.after_nil]
  | cons c cs ih =>
    rw [List.cons_append, Loop.AllInScope, Loop.AllInScope, ih, and_assoc, ← Scope.after_append]
    rfl

/-! ## Numbering -/

/-- The loops have the names from `n` to `n' - 1` in order, and their indices lead to the
    offsets. -/
structure Numbered (radius n n' : Nat) (loops : List Loop) (sources : List (List Offset)) :
    Prop where
  next : n' = n + loops.length
  names : loops.map Loop.id = List.range' n loops.length
  offsets : loops.map (fun c => c.indices.map fun i => (windowOffsets radius)[i]?) =
    sources.map fun os => os.map some

namespace Numbered

variable {radius n m n' : Nat} {before after : List Loop} {sources sources' : List (List Offset)}

theorem nil : Numbered radius n n [] [] := ⟨rfl, rfl, rfl⟩

theorem append (h : Numbered radius n m before sources) (h' : Numbered radius m n' after sources') :
    Numbered radius n n' (before ++ after) (sources ++ sources') where
  next := by rw [h'.next, h.next, List.length_append, Nat.add_assoc]
  names := by
    rw [List.map_append, h.names, h'.names, h.next, List.length_append, List.range'_append_1]
  offsets := by rw [List.map_append, List.map_append, h.offsets, h'.offsets]

theorem cons {anchor : Anchor} {indices : List Nat} {body inner : List Loop} {test : Test}
    {os : List Offset} (hos : indices.map (fun i => (windowOffsets radius)[i]?) = os.map some)
    (h : Numbered radius (n + 1) n' inner sources) :
    Numbered radius n n' (.mk n anchor indices body test :: inner) (os :: sources) where
  next := by rw [h.next, List.length_cons, Nat.add_assoc, Nat.add_comm 1]
  names := by rw [List.map_cons, h.names, List.length_cons, List.range'_succ]; rfl
  offsets := by rw [List.map_cons, List.map_cons, h.offsets, ← hos]; rfl

theorem name_lt (h : Numbered radius n n' before sources) :
    ∀ id ∈ before.map Loop.id, n ≤ id ∧ id < n' := by
  intro id hid
  rw [h.names, List.mem_range'_1, ← h.next] at hid
  exact hid

theorem pairwise_names (h : Numbered radius n n' before sources) :
    (before.map Loop.id).Pairwise (· < ·) := by
  rw [h.names]
  exact List.pairwise_lt_range'

/-- Every index is a place in the list of window offsets, since some offset stands there. -/
theorem index_lt (h : Numbered radius n n' before sources) :
    ∀ c ∈ before, ∀ i ∈ c.indices, i < (windowOffsets radius).length := by
  intro c hc i hi
  obtain ⟨os, _, hos⟩ : ∃ os ∈ sources, os.map some =
      c.indices.map fun i => (windowOffsets radius)[i]? := by
    rw [← List.mem_map, ← h.offsets]
    exact List.mem_map_of_mem hc
  obtain ⟨o, _, ho⟩ : ∃ o ∈ os, some o = (windowOffsets radius)[i]? := by
    rw [← List.mem_map, hos]
    exact List.mem_map_of_mem hi
  exact (List.getElem?_eq_some_iff.1 ho.symm).1

end Numbered

/-! ## Lowered trees -/

/-- The loops are numbered from `n` on and in scope wherever the anchor is.  Behind them, and also
    when more has run since, what has been lowered is in scope. -/
structure Lowered (radius : Nat) (anchor : Anchor) (n n' : Nat) (sources : List (List Offset))
    (loops : List Loop) (inScope : Scope → Prop) : Prop where
  numbered : Numbered radius n n' (Loop.subloopsAll loops) sources
  loopsInScope : ∀ sc, anchor.InScope sc → Loop.AllInScope sc loops
  restInScope : ∀ sc sc', anchor.InScope sc → (sc.after loops).Le sc' → inScope sc'

namespace Lowered

variable {radius n m n' : Nat} {anchor : Anchor} {sources sources' : List (List Offset)}
  {before after : List Loop} {p q : Scope → Prop}

theorem of_no_loops (h : ∀ sc, anchor.InScope sc → p sc) :
    Lowered radius anchor n n [] [] p where
  numbered := Numbered.nil
  loopsInScope _ _ := trivial
  restInScope sc sc' ha hle := h sc' (ha.mono (sc.after_nil ▸ hle))

theorem both (h : Lowered radius anchor n m sources before p)
    (h' : Lowered radius anchor m n' sources' after q) :
    Lowered radius anchor n n' (sources ++ sources') (before ++ after) fun sc => p sc ∧ q sc where
  numbered := by
    rw [Loop.subloopsAll_append]
    exact h.numbered.append h'.numbered
  loopsInScope sc ha := by
    rw [Loop.allInScope_append]
    exact ⟨h.loopsInScope sc ha, h'.loopsInScope _ (ha.mono (sc.le_after before))⟩
  restInScope sc sc' ha hle := by
    rw [Scope.after_append] at hle
    exact ⟨h.restInScope sc sc' ha (((sc.after before).le_after after).trans hle),
      h'.restInScope _ sc' (ha.mono (sc.le_after before)) hle⟩

theorem imp (h : Lowered radius anchor n n' sources before p) (hpq : ∀ sc, p sc → q sc) :
    Lowered radius anchor n n' sources before q :=
  ⟨h.numbered, h.loopsInScope, fun sc sc' ha hle => hpq sc' (h.restInScope sc sc' ha hle)⟩

/-- A loop around what has been lowered from where it stands. -/
theorem loop {indices : List Nat} {os : List Offset} {test : Test}
    (hos : indices.map (fun i => (windowOffsets radius)[i]?) = os.map some)
    (h : Lowered radius (.loop n) (n + 1) n' sources before fun sc => test.InScope sc) :
    Lowered radius anchor n n' (os :: sources) [.mk n anchor indices before test]
      fun sc => n ∈ sc.counted where
  numbered := by
    rw [Loop.subloopsAll, Loop.subloopsAll, Loop.subloops, List.append_nil]
    exact h.numbered.cons hos
  loopsInScope sc ha := by
    have hn : (Anchor.loop n).InScope (sc.inside n) := List.mem_cons_self
    rw [Loop.AllInScope, Loop.AllInScope, Loop.InScope]
    exact ⟨⟨ha, h.loopsInScope _ hn, h.restInScope _ _ hn (Scope.Le.refl _)⟩, trivial⟩
  restInScope sc sc' _ hle := hle.1 (List.mem_append_right _ List.mem_cons_self)

end Lowered

mutual

/-- A lowered expression is in scope behind its loops, which are its counts. -/
theorem expr_lowered : ∀ (e : Expr) {radius : Nat} {anchor : Anchor} {n n' : Nat}
    {loops : List Loop} {t : Term}, (Lowering.expr radius anchor e).Gives n (loops, t) n' →
    Lowered radius anchor n n' (e.subterms.filterMap Expr.counted?) loops fun sc => t.InScope sc
  | .literal v, radius, anchor, n, n', loops, t, h => by
    simp only [Lowering.expr, Lowering.gives_bind, Lowering.gives_word, Lowering.gives_pure] at h
    obtain ⟨w, _, ⟨_, rfl, rfl⟩, ⟨rfl, rfl⟩, rfl⟩ := h
    exact Lowered.of_no_loops fun _ _ => trivial
  | .channel 0, radius, anchor, n, n', loops, t, h => by
    simp only [Lowering.expr, Lowering.gives_pure] at h
    obtain ⟨⟨rfl, rfl⟩, rfl⟩ := h
    exact Lowered.of_no_loops fun _ ha => ha
  | .channel (_ + 1), _, _, _, _, _, _, h => absurd h Lowering.not_gives_throw
  | .neighbor o 0, radius, anchor, n, n', loops, t, h => by
    simp only [Lowering.expr, Lowering.gives_bind, Lowering.gives_inWindow,
      Lowering.gives_pure] at h
    obtain ⟨p, _, ⟨_, rfl, rfl⟩, ⟨rfl, rfl⟩, rfl⟩ := h
    exact Lowered.of_no_loops fun _ ha => ha
  | .neighbor _ (_ + 1), _, _, _, _, _, _, h => absurd h Lowering.not_gives_throw
  | .count os c, radius, anchor, n, n', loops, t, h => by
    obtain ⟨is, body, test, hos, hc, hout⟩ := Lowering.exists_of_gives_count h
    obtain ⟨rfl, rfl⟩ := Prod.mk.inj hout
    have hcounted : (Expr.count os c).counted? = some os := rfl
    rw [Expr.subterms, List.filterMap_cons_some hcounted]
    exact (cond_lowered c hc).loop hos
  | .sign l r, radius, anchor, n, n', loops, t, h => by
    obtain ⟨before, left, m, after, right, hl, hr, hout⟩ := Lowering.gives_both.1 h
    obtain ⟨rfl, rfl⟩ := Prod.mk.inj hout
    rw [Expr.subterms, List.filterMap_cons_none rfl, List.filterMap_append]
    exact (expr_lowered l hl).both (expr_lowered r hr)
  | .arith l r op, radius, anchor, n, n', loops, t, h => by
    obtain ⟨before, left, m, after, right, hl, hr, hout⟩ := Lowering.gives_both.1 h
    obtain ⟨rfl, rfl⟩ := Prod.mk.inj hout
    rw [Expr.subterms, List.filterMap_cons_none rfl, List.filterMap_append]
    exact (expr_lowered l hl).both (expr_lowered r hr)

/-- A lowered condition is in scope behind its loops. -/
theorem cond_lowered : ∀ (c : Cond) {radius : Nat} {anchor : Anchor} {n n' : Nat}
    {loops : List Loop} {t : Test}, (Lowering.cond radius anchor c).Gives n (loops, t) n' →
    Lowered radius anchor n n' (c.subterms.filterMap Expr.counted?) loops fun sc => t.InScope sc
  | .all cs, radius, anchor, n, n', loops, t, h => by
    obtain ⟨loops, tests, hcs, hout⟩ := Lowering.gives_one.1 h
    obtain ⟨rfl, rfl⟩ := Prod.mk.inj hout
    rw [Cond.subterms]
    exact conds_lowered cs hcs
  | .not c, radius, anchor, n, n', loops, t, h => by
    obtain ⟨loops, test, hc, hout⟩ := Lowering.gives_one.1 h
    obtain ⟨rfl, rfl⟩ := Prod.mk.inj hout
    rw [Cond.subterms]
    exact (cond_lowered c hc).imp fun _ ht => ht
  | .equal l r, radius, anchor, n, n', loops, t, h => by
    obtain ⟨before, left, m, after, right, hl, hr, hout⟩ := Lowering.gives_both.1 h
    obtain ⟨rfl, rfl⟩ := Prod.mk.inj hout
    rw [Cond.subterms, List.filterMap_append]
    exact (expr_lowered l hl).both (expr_lowered r hr)

/-- Lowered conditions are in scope behind the loops of all of them. -/
theorem conds_lowered : ∀ (cs : List Cond) {radius : Nat} {anchor : Anchor} {n n' : Nat}
    {loops : List Loop} {ts : List Test},
    (Lowering.conds radius anchor cs).Gives n (loops, ts) n' →
    Lowered radius anchor n n' ((Cond.subtermsAll cs).filterMap Expr.counted?) loops
      fun sc => Test.AllInScope sc ts
  | [], radius, anchor, n, n', loops, ts, h => by
    simp only [Lowering.conds, Lowering.gives_pure] at h
    obtain ⟨⟨rfl, rfl⟩, rfl⟩ := h
    exact Lowered.of_no_loops fun _ _ => trivial
  | c :: cs, radius, anchor, n, n', loops, ts, h => by
    obtain ⟨before, test, m, after, tests, hc, hcs, hout⟩ := Lowering.gives_both.1 h
    obtain ⟨rfl, rfl⟩ := Prod.mk.inj hout
    rw [Cond.subtermsAll, List.filterMap_append]
    exact (cond_lowered c hc).both (conds_lowered cs hcs)

end

/-! ## Lowered rules -/

/-- A lowered effect is in scope behind its loops. -/
theorem effect_lowered {radius n n' : Nat} : ∀ {e : Effect} {loops : List Loop} {t : Term},
    (Lowering.effect radius e).Gives n (loops, t) n' →
    Lowered radius .center n n' (e.subterms.filterMap Expr.counted?) loops fun sc => t.InScope sc
  | .set 0 e, loops, t, h => expr_lowered e h
  | .set (_ + 1) _, loops, t, h => absurd h Lowering.not_gives_throw
  | .copy o, loops, t, h => by
    simp only [Lowering.effect, Lowering.gives_bind, Lowering.gives_inWindow,
      Lowering.gives_pure] at h
    obtain ⟨p, _, ⟨_, rfl, rfl⟩, ⟨rfl, rfl⟩, rfl⟩ := h
    exact Lowered.of_no_loops fun _ ha => ha
  | .raise _ _, loops, t, h => absurd h Lowering.not_gives_throw

/-- Lowered effects are in scope behind the loops of all of them. -/
theorem effects_lowered {radius n n' : Nat} {es : List Effect} {loops : List Loop}
    {values : List Term} (h : (Lowering.effects radius es).Gives n (loops, values) n') :
    Lowered radius .center n n' ((es.flatMap Effect.subterms).filterMap Expr.counted?) loops
      fun sc => ∀ t ∈ values, t.InScope sc := by
  induction es generalizing n loops values with
  | nil =>
    simp only [Lowering.effects, Lowering.gives_pure] at h
    obtain ⟨⟨rfl, rfl⟩, rfl⟩ := h
    exact Lowered.of_no_loops fun _ _ t ht => nomatch ht
  | cons e es ih =>
    obtain ⟨before, value, m, after, values, he, hes, hout⟩ := Lowering.gives_both.1 h
    obtain ⟨rfl, rfl⟩ := Prod.mk.inj hout
    rw [List.flatMap_cons, List.filterMap_append]
    exact ((effect_lowered he).both (ih hes)).imp fun sc hsc => List.forall_mem_cons.2 hsc

/-- A lowered rule is well scoped, and its loops are numbered. -/
theorem rule_lowered {radius n n' : Nat} {r : Rule} {c : Code}
    (h : (Lowering.rule radius r).Gives n c n') :
    c.WellScoped ∧
      Numbered radius n n' (Loop.subloopsAll c.loops) (r.subterms.filterMap Expr.counted?) := by
  simp only [Lowering.rule, Lowering.gives_bind, Lowering.gives_pure] at h
  obtain ⟨⟨before, test⟩, m, hc, ⟨after, values⟩, m', hes, rfl, rfl⟩ := h
  have hboth := (cond_lowered r.condition hc).both (effects_lowered hes)
  rw [← List.filterMap_append] at hboth
  obtain ⟨htest, hvalues⟩ := hboth.restInScope Scope.empty _ trivial (Scope.Le.refl _)
  exact ⟨⟨hboth.loopsInScope Scope.empty trivial, htest, hvalues⟩, hboth.numbered⟩

/-- Lowered rules are well scoped, and their loops are numbered through. -/
theorem lower_lowered {radius n n' : Nat} {rules : List Rule} {codes : List Code}
    (h : (Builder.lower radius rules).Gives n codes n') :
    (∀ c ∈ codes, c.WellScoped) ∧
      Numbered radius n n' (codes.flatMap fun c => Loop.subloopsAll c.loops)
        ((rules.flatMap Rule.subterms).filterMap Expr.counted?) := by
  unfold Builder.lower at h
  induction rules generalizing n codes with
  | nil =>
    rw [List.mapM_nil, Lowering.gives_pure] at h
    obtain ⟨rfl, rfl⟩ := h
    exact ⟨List.forall_mem_nil _, Numbered.nil⟩
  | cons r rules ih =>
    obtain ⟨c, m, cs, hr, hrest, rfl⟩ := Lowering.gives_mapM_cons.1 h
    obtain ⟨hscoped, hnumbered⟩ := rule_lowered hr
    obtain ⟨hrestScoped, hrestNumbered⟩ := ih hrest
    rw [List.flatMap_cons, List.flatMap_cons, List.filterMap_append]
    exact ⟨List.forall_mem_cons.2 ⟨hscoped, hrestScoped⟩, hnumbered.append hrestNumbered⟩

end Kernel

end BlockAutomata
