/-
  Lowered code computes what the rules mean.

  1. Names only grow, so code lowered from `n` on touches no name below `n`.  `AgreeBelow n` says
     that two memories are the same as far as those names can see.

  2. `Simulates` is the invariant: running the loops changes nothing below the first name, and every
     memory that later agrees with the result on the names handed out so far reads the meaning off
     the lowered term.  "Later" matters, since the loops of the next expression run before the term
     is looked at.

  3. The crux is a loop (`rounds_of_body`): each round starts from a memory that the round before
     has changed, but only at names that the body owns.
-/
import BlockAutomata.Proofs.Kernel.LoweringRuns
import BlockAutomata.Proofs.Kernel.WordMeaning
import BlockAutomata.Proofs.Tables
import BlockAutomata.Proofs.Windows

namespace BlockAutomata.Kernel

open Script (Expr Cond Effect Rule)

/-! ## Memories that agree below a name -/

/-- The memories agree on everything that the names below `n` stand for. -/
def Memory.AgreeBelow (n : Nat) (s s' : Memory) : Prop :=
  ∀ id < n, s.counts.find? id = s'.counts.find? id ∧ s.places.find? id = s'.places.find? id

namespace Memory

theorem AgreeBelow.refl (n : Nat) (s : Memory) : AgreeBelow n s s := fun _ _ => ⟨rfl, rfl⟩

theorem AgreeBelow.trans {n : Nat} {s t u : Memory} (h : AgreeBelow n s t)
    (h' : AgreeBelow n t u) : AgreeBelow n s u := fun id hid =>
  ⟨(h id hid).1.trans (h' id hid).1, (h id hid).2.trans (h' id hid).2⟩

theorem AgreeBelow.mono {n n' : Nat} {s t : Memory} (hn : n ≤ n') (h : AgreeBelow n' s t) :
    AgreeBelow n s t := fun id hid => h id (Nat.lt_of_lt_of_le hid hn)

theorem agreeBelow_places_insert (n : Nat) (s : Memory) (o : Offset) :
    AgreeBelow n s { s with places := s.places.insert n o } := fun id hid => by
  simp [OrderedMap.find?_insert, Nat.ne_of_lt hid]

theorem agreeBelow_counts_insert (n : Nat) (s : Memory) (c : Int32) :
    AgreeBelow n s { s with counts := s.counts.insert n c } := fun id hid => by
  simp [OrderedMap.find?_insert, Nat.ne_of_lt hid]

end Memory

/-- The anchor is the centre or a loop with a name below `n`. -/
def Anchor.Below (n : Nat) : Anchor → Prop
  | .center => True
  | .loop id => id < n

theorem Anchor.Below.mono {n n' : Nat} {a : Anchor} (hn : n ≤ n') (h : a.Below n) : a.Below n' := by
  cases a with
  | center => trivial
  | loop id => exact Nat.lt_of_lt_of_le h hn

theorem Machine.place_eq_of_agreeBelow {n : Nat} {s s' : Memory} {a : Anchor} (ha : a.Below n)
    (h : s.AgreeBelow n s') : place s a = place s' a := by
  cases a with
  | center => rfl
  | loop id => rw [place, place, (h id ha).2]

/-- What is seen from where the anchor stands. -/
def Machine.seenFrom (m : Machine) (s : Memory) (a : Anchor) : WordBlocks :=
  WordBlocks.recentre m.block (place s a)

theorem Machine.seenFrom_eq_of_agreeBelow {m : Machine} {n : Nat} {s s' : Memory} {a : Anchor}
    (ha : a.Below n) (h : s.AgreeBelow n s') : m.seenFrom s a = m.seenFrom s' a := by
  rw [seenFrom, seenFrom, place_eq_of_agreeBelow ha h]

theorem Machine.loops_append (m : Machine) (s : Memory) (before after : List Loop) :
    m.loops s (before ++ after) = m.loops (m.loops s before) after := by
  induction before generalizing s with
  | nil => rw [List.nil_append, Machine.loops]
  | cons c cs ih => rw [List.cons_append, Machine.loops, ih, Machine.loops]

/-! ## The invariant -/

/-- Running the loops from `s` changes nothing below `n`; and whatever memory agrees with the result
    on the names below `n'`, `reads` finds `value` in it. -/
def Simulates {α : Type} (m : Machine) (n n' : Nat) (s : Memory) (loops : List Loop)
    (reads : Memory → α) (value : α) : Prop :=
  n ≤ n' ∧ s.AgreeBelow n (m.loops s loops) ∧
    ∀ s', (m.loops s loops).AgreeBelow n' s' → reads s' = value

namespace Simulates

variable {α β γ : Type} {m : Machine} {n n₁ n' : Nat} {s : Memory}

/-- Without loops, what is read must not depend on more than the names below `n`. -/
theorem of_no_loops {reads : Memory → α} {value : α}
    (h : ∀ s', s.AgreeBelow n s' → reads s' = value) : Simulates m n n s [] reads value := by
  refine ⟨Nat.le_refl n, ?_, ?_⟩
  · rw [Machine.loops]; exact Memory.AgreeBelow.refl n s
  · rw [Machine.loops]; exact h

/-- One reading after the other: the loops of the second leave the first undisturbed. -/
theorem both {before after : List Loop} {reads₁ : Memory → α} {reads₂ : Memory → β} {a : α} {b : β}
    (g : α → β → γ) (h₁ : Simulates m n n₁ s before reads₁ a)
    (h₂ : Simulates m n₁ n' (m.loops s before) after reads₂ b) :
    Simulates m n n' s (before ++ after) (fun s' => g (reads₁ s') (reads₂ s')) (g a b) := by
  obtain ⟨hn₁, hs₁, hv₁⟩ := h₁
  obtain ⟨hn₂, hs₂, hv₂⟩ := h₂
  refine ⟨Nat.le_trans hn₁ hn₂, ?_, fun s' hs' => ?_⟩
  · rw [Machine.loops_append]
    exact hs₁.trans (hs₂.mono hn₁)
  · rw [Machine.loops_append] at hs'
    -- the loops of the second change no name below `n₁`, and the first reading needs no others
    show g (reads₁ s') (reads₂ s') = g a b
    rw [hv₁ s' (hs₂.trans (hs'.mono hn₂)), hv₂ s' hs']

theorem map {loops : List Loop} {reads : Memory → α} {a : α} (g : α → β)
    (h : Simulates m n n' s loops reads a) :
    Simulates m n n' s loops (fun s' => g (reads s')) (g a) :=
  ⟨h.1, h.2.1, fun s' hs' => congrArg g (h.2.2 s' hs')⟩

end Simulates

/-! ## One loop -/

/-- One round: the loop moves on to an offset, its body runs, and its test tells whether to
    count. -/
def Machine.round (m : Machine) (id : Nat) (base : Offset) (body : List Loop) (test : Test)
    (acc : Memory × Int32) (i : Nat) : Memory × Int32 :=
  let here := base + (m.offsets[i]?.getD Offset.zero)
  let s := m.loops { acc.1 with places := acc.1.places.insert id here } body
  (s, if m.test s test then acc.2 + 1 else acc.2)

/-- A loop leaves the memory of its rounds, with the count under its own name. -/
theorem Machine.loop_eq_rounds (m : Machine) (s : Memory) (id : Nat) (anchor : Anchor)
    (indices : List Nat) (body : List Loop) (test : Test) :
    m.loop s (.mk id anchor indices body test) =
      let acc := indices.foldl (m.round id (place s anchor) body test) (s, 0)
      { acc.1 with counts := acc.1.counts.insert id acc.2 } := by
  rw [loop]
  rfl

/-- The rounds of a loop, given that its body and test, run where the loop stands, tell whether the
    condition holds there. -/
theorem Machine.rounds_of_body {m : Machine} {id n' : Nat} {body : List Loop} {test : Test}
    {base : Offset} {holds : Offset → Bool}
    (hbody : ∀ s : Memory, ∀ o, s.places.find? id = some (base + o) →
      Simulates m (id + 1) n' s body (fun s' => m.test s' test) (holds o))
    (s : Memory) (indices : List Nat) (n : Int32) :
    ∃ s', indices.foldl (m.round id base body test) (s, n) =
      (s', n + Int32.ofNat
        ((indices.map fun i => m.offsets[i]?.getD Offset.zero).countP holds)) ∧
      s.AgreeBelow id s' := by
  induction indices generalizing s n with
  | nil => exact ⟨s, by simp, Memory.AgreeBelow.refl id s⟩
  | cons i is ih =>
    obtain ⟨o, ho⟩ : ∃ o, m.offsets[i]?.getD Offset.zero = o := ⟨_, rfl⟩
    obtain ⟨_, hagree, hvalue⟩ := hbody { s with places := s.places.insert id (base + o) } o
      (by simp [OrderedMap.find?_insert])
    have htest : m.test (m.loops { s with places := s.places.insert id (base + o) } body) test =
        holds o := hvalue _ (Memory.AgreeBelow.refl n' _)
    -- the round starts with the loop's own place, which no earlier name can see
    have hround := (Memory.agreeBelow_places_insert id s (base + o)).trans
      (hagree.mono (Nat.le_succ id))
    simp only [List.foldl_cons, List.map_cons, round, ho]
    obtain ⟨s', hs', hagree'⟩ :=
      ih (m.loops { s with places := s.places.insert id (base + o) } body)
      (if m.test (m.loops { s with places := s.places.insert id (base + o) } body) test
        then n + 1 else n)
    refine ⟨s', ?_, hround.trans hagree'⟩
    rw [hs', htest, List.countP_cons]
    cases holds o with
    | true => simp [Int32.ofNat_add, Int32.add_assoc, Int32.add_comm]
    | false => simp

/-! ## Expressions and conditions -/

variable {m : Machine}

mutual

/-- Lowered expressions have the value of the tree, seen from the anchor. -/
theorem expr_simulates (hm : m.offsets = (windowOffsets m.radius).toArray) :
    ∀ (e : Expr) {anchor : Anchor} {n n' : Nat} {loops : List Loop} {t : Term},
    (Lowering.expr m.radius anchor e).Gives n (loops, t) n' → anchor.Below n →
    ∀ s : Memory, Simulates m n n' s loops (fun s' => m.term s' t)
      (e.word (m.seenFrom s anchor))
  | .literal v, anchor, n, n', loops, t, h, _, s => by
    simp only [Lowering.expr, Lowering.gives_bind, Lowering.gives_word, Lowering.gives_pure] at h
    obtain ⟨w, _, ⟨_, rfl, rfl⟩, ⟨rfl, rfl⟩, rfl⟩ := h
    exact Simulates.of_no_loops fun s' _ => by rw [Machine.term, Expr.word]
  | .channel 0, anchor, n, n', loops, t, h, ha, s => by
    simp only [Lowering.expr, Lowering.gives_pure] at h
    obtain ⟨⟨rfl, rfl⟩, rfl⟩ := h
    refine Simulates.of_no_loops fun s' hs' => ?_
    rw [Machine.term, Expr.word, Machine.seenFrom_eq_of_agreeBelow ha hs']
    rfl
  | .channel (_ + 1), anchor, n, n', loops, t, h, _, s => by
    exact absurd h Lowering.not_gives_throw
  | .neighbor o 0, anchor, n, n', loops, t, h, ha, s => by
    simp only [Lowering.expr, Lowering.gives_bind, Lowering.gives_inWindow,
      Lowering.gives_pure] at h
    obtain ⟨p, _, ⟨_, rfl, rfl⟩, ⟨rfl, rfl⟩, rfl⟩ := h
    refine Simulates.of_no_loops fun s' hs' => ?_
    rw [Machine.term, Expr.word, Machine.seenFrom_eq_of_agreeBelow ha hs']
    rfl
  | .neighbor _ (_ + 1), anchor, n, n', loops, t, h, _, s => by
    exact absurd h Lowering.not_gives_throw
  | .count os c, anchor, n, n', loops, t, h, ha, s => by
    obtain ⟨is, body, test, hos, hc, hout⟩ := Lowering.exists_of_gives_count h
    obtain ⟨rfl, rfl⟩ := Prod.mk.inj hout
    -- with the cursor of the loop on a neighbour, the body sees what the neighbour sees
    have hbody : ∀ (s₁ : Memory) (o : Offset),
        s₁.places.find? n = some (Machine.place s anchor + o) →
        Simulates m (n + 1) n' s₁ body (fun s' => m.test s' test)
          (c.holdsWord ((m.seenFrom s anchor).recentre o)) := by
      intro s₁ o hs₁
      have hcond := cond_simulates hm c hc (Nat.lt_succ_self n) s₁
      have hseen : m.seenFrom s₁ (.loop n) = (m.seenFrom s anchor).recentre o := by
        rw [Machine.seenFrom, Machine.seenFrom, Machine.place, hs₁, Option.getD_some,
          WordBlocks.recentre_recentre]
      rwa [hseen] at hcond
    obtain ⟨hn, _, _⟩ := cond_simulates hm c hc (Nat.lt_succ_self n) s
    obtain ⟨s', hrounds, hagree⟩ := Machine.rounds_of_body hbody s is 0
    have hsteps : is.map (fun i => (windowOffsets m.radius)[i]?.getD Offset.zero) = os := by
      simpa [Function.comp_def] using congrArg (List.map (Option.getD · Offset.zero)) hos
    have hrun : m.loops s [.mk n anchor is body test] =
        { s' with counts := s'.counts.insert n (Int32.ofNat
          (os.countP fun o => c.holdsWord ((m.seenFrom s anchor).recentre o))) } := by
      simp only [hm, List.getElem?_toArray, hsteps, Int32.zero_add] at hrounds
      rw [Machine.loops, Machine.loops, Machine.loop_eq_rounds, hrounds]
    refine ⟨Nat.le_of_succ_le hn, ?_, fun s'' hs'' => ?_⟩
    · rw [hrun]
      exact hagree.trans (Memory.agreeBelow_counts_insert n s' _)
    · rw [hrun] at hs''
      have hcount := (hs'' n (Nat.lt_of_succ_le hn)).1
      show m.term s'' (.result n) = _
      rw [Machine.term, ← hcount, OrderedMap.find?_insert, if_pos rfl, Option.getD_some, Expr.word]
  | .sign l r, anchor, n, n', loops, t, h, ha, s => by
    obtain ⟨before, left, k, after, right, hl, hr, hout⟩ := Lowering.gives_both.1 h
    obtain ⟨rfl, rfl⟩ := Prod.mk.inj hout
    have h₁ := expr_simulates hm l hl ha s
    have h₂ := expr_simulates hm r hr (ha.mono h₁.1) (m.loops s before)
    rw [← Machine.seenFrom_eq_of_agreeBelow ha h₁.2.1] at h₂
    simpa only [Machine.term, Expr.word] using h₁.both Script.sign32 h₂
  | .arith l r op, anchor, n, n', loops, t, h, ha, s => by
    obtain ⟨before, left, k, after, right, hl, hr, hout⟩ := Lowering.gives_both.1 h
    obtain ⟨rfl, rfl⟩ := Prod.mk.inj hout
    have h₁ := expr_simulates hm l hl ha s
    have h₂ := expr_simulates hm r hr (ha.mono h₁.1) (m.loops s before)
    rw [← Machine.seenFrom_eq_of_agreeBelow ha h₁.2.1] at h₂
    simpa only [Machine.term, Expr.word] using h₁.both op.on32 h₂

/-- Lowered conditions hold when the tree does, seen from the anchor. -/
theorem cond_simulates (hm : m.offsets = (windowOffsets m.radius).toArray) :
    ∀ (c : Cond) {anchor : Anchor} {n n' : Nat} {loops : List Loop} {test : Test},
    (Lowering.cond m.radius anchor c).Gives n (loops, test) n' → anchor.Below n →
    ∀ s : Memory, Simulates m n n' s loops (fun s' => m.test s' test)
      (c.holdsWord (m.seenFrom s anchor))
  | .all cs, anchor, n, n', loops, test, h, ha, s => by
    obtain ⟨before, tests, hcs, hout⟩ := Lowering.gives_one.1 h
    obtain ⟨rfl, rfl⟩ := Prod.mk.inj hout
    simpa only [Machine.test, Cond.holdsWord] using conds_simulates hm cs hcs ha s
  | .not c, anchor, n, n', loops, test, h, ha, s => by
    obtain ⟨before, inner, hc, hout⟩ := Lowering.gives_one.1 h
    obtain ⟨rfl, rfl⟩ := Prod.mk.inj hout
    simpa only [Machine.test, Cond.holdsWord] using (cond_simulates hm c hc ha s).map not
  | .equal l r, anchor, n, n', loops, test, h, ha, s => by
    obtain ⟨before, left, k, after, right, hl, hr, hout⟩ := Lowering.gives_both.1 h
    obtain ⟨rfl, rfl⟩ := Prod.mk.inj hout
    have h₁ := expr_simulates hm l hl ha s
    have h₂ := expr_simulates hm r hr (ha.mono h₁.1) (m.loops s before)
    rw [← Machine.seenFrom_eq_of_agreeBelow ha h₁.2.1] at h₂
    simpa only [Machine.test, Cond.holdsWord] using h₁.both (· == ·) h₂

/-- Lowered conditions all hold when the trees all do, seen from the anchor. -/
theorem conds_simulates (hm : m.offsets = (windowOffsets m.radius).toArray) :
    ∀ (cs : List Cond) {anchor : Anchor} {n n' : Nat} {loops : List Loop} {tests : List Test},
    (Lowering.conds m.radius anchor cs).Gives n (loops, tests) n' → anchor.Below n →
    ∀ s : Memory, Simulates m n n' s loops (fun s' => m.tests s' tests)
      (Cond.allHoldWord cs (m.seenFrom s anchor))
  | [], anchor, n, n', loops, tests, h, _, s => by
    simp only [Lowering.conds, Lowering.gives_pure] at h
    obtain ⟨⟨rfl, rfl⟩, rfl⟩ := h
    exact Simulates.of_no_loops fun s' _ => by rw [Machine.tests, Cond.allHoldWord]
  | c :: cs, anchor, n, n', loops, tests, h, ha, s => by
    obtain ⟨before, test, k, after, tests, hc, hcs, hout⟩ := Lowering.gives_both.1 h
    obtain ⟨rfl, rfl⟩ := Prod.mk.inj hout
    have h₁ := cond_simulates hm c hc ha s
    have h₂ := conds_simulates hm cs hcs (ha.mono h₁.1) (m.loops s before)
    rw [← Machine.seenFrom_eq_of_agreeBelow ha h₁.2.1] at h₂
    simpa only [Machine.tests, Cond.allHoldWord] using h₁.both (· && ·) h₂

end

/-! ## Rules -/

theorem Machine.seenFrom_center (s : Memory) : m.seenFrom s .center = m.block :=
  WordBlocks.recentre_zero m.block

/-- A lowered effect has the value that the effect writes. -/
theorem effect_simulates (hm : m.offsets = (windowOffsets m.radius).toArray) {e : Effect}
    {n n' : Nat} {loops : List Loop} {t : Term}
    (h : (Lowering.effect m.radius e).Gives n (loops, t) n') :
    ∃ w, e.word? m.block = some w ∧
      ∀ s : Memory, Simulates m n n' s loops (fun s' => m.term s' t) w := by
  match e, h with
  | .set 0 e, h =>
    refine ⟨e.word m.block, rfl, fun s => ?_⟩
    have he := expr_simulates hm e h trivial s
    rwa [Machine.seenFrom_center] at he
  | .set (_ + 1) _, h => exact absurd h Lowering.not_gives_throw
  | .copy o, h =>
    simp only [Lowering.effect, Lowering.gives_bind, Lowering.gives_inWindow,
      Lowering.gives_pure] at h
    obtain ⟨p, _, ⟨_, rfl, rfl⟩, ⟨rfl, rfl⟩, rfl⟩ := h
    refine ⟨m.block p, rfl, fun s => Simulates.of_no_loops fun s' _ => ?_⟩
    rw [Machine.term, Machine.place, Offset.zero_add]
  | .raise _ _, h => exact absurd h Lowering.not_gives_throw

/-- Lowered effects have the values that the effects write, in order. -/
theorem effects_simulate (hm : m.offsets = (windowOffsets m.radius).toArray) {es : List Effect}
    {n n' : Nat} {loops : List Loop} {values : List Term}
    (h : (Lowering.effects m.radius es).Gives n (loops, values) n') (s : Memory) :
    Simulates m n n' s loops (fun s' => values.map (m.term s'))
      (es.filterMap fun e => e.word? m.block) := by
  induction es generalizing n loops values s with
  | nil =>
    simp only [Lowering.effects, Lowering.gives_pure] at h
    obtain ⟨⟨rfl, rfl⟩, rfl⟩ := h
    exact Simulates.of_no_loops fun s' _ => rfl
  | cons e es ih =>
    obtain ⟨before, value, k, after, values, he, hes, hout⟩ := Lowering.gives_both.1 h
    obtain ⟨rfl, rfl⟩ := Prod.mk.inj hout
    obtain ⟨w, hw, hvalue⟩ := effect_simulates hm he
    have hcons : (e :: es).filterMap (fun e => e.word? m.block) =
        w :: es.filterMap fun e => e.word? m.block := by rw [List.filterMap_cons, hw]
    rw [hcons]
    exact (hvalue s).both List.cons (ih hes (m.loops s before))

theorem foldl_last {α β : Type} (g : α → β) (as : List α) (b : β) :
    as.foldl (fun _ a => g a) b = (as.map g).getLast?.getD b := by
  induction as generalizing b with
  | nil => rfl
  | cons a as ih => rw [List.foldl_cons, ih, List.map_cons, List.getLast?_cons, Option.getD_some]

/-- Lowered rules turn the block into the same block as the rules do. -/
theorem code_of_gives_rule (hm : m.offsets = (windowOffsets m.radius).toArray) {r : Rule}
    {n n' : Nat} {code : Code} (h : (Lowering.rule m.radius r).Gives n code n') (s : Memory)
    (current : Int32) : (m.code (s, current) code).2 = r.wordAfter m.block current := by
  simp only [Lowering.rule, Lowering.gives_bind, Lowering.gives_pure] at h
  obtain ⟨⟨before, test⟩, k, hc, ⟨after, values⟩, k', hes, rfl, rfl⟩ := h
  have hcond := cond_simulates hm r.condition hc trivial s
  rw [Machine.seenFrom_center] at hcond
  -- test and values are read when all loops have run
  have hboth := hcond.both Prod.mk (effects_simulate hm hes (m.loops s before))
  have hread := hboth.2.2 _ (Memory.AgreeBelow.refl n' _)
  obtain ⟨htest, hvalues⟩ := Prod.mk.inj hread
  simp only [Machine.code, Rule.wordAfter, foldl_last]
  rw [htest, hvalues]

/-- A machine runs lowered rules to the block that the rules mean. -/
theorem run_of_gives_lower (hm : m.offsets = (windowOffsets m.radius).toArray) {rules : List Rule}
    {n n' : Nat} {codes : List Code} (h : (Builder.lower m.radius rules).Gives n codes n') :
    m.run codes = Script.wordAfterRules rules m.block := by
  -- every rule may start from whatever memory the rules before it have left
  have hfold : ∀ (s : Memory) (current : Int32),
      (codes.foldl m.code (s, current)).2 = rules.foldl (Rule.wordAfter m.block) current := by
    unfold Builder.lower at h
    induction rules generalizing n codes with
    | nil =>
      rw [List.mapM_nil, Lowering.gives_pure] at h
      intro s current
      rw [h.1]
      rfl
    | cons r rules ih =>
      obtain ⟨code, k, rest, hr, hrest, rfl⟩ := Lowering.gives_mapM_cons.1 h
      intro s current
      have hcode := code_of_gives_rule hm hr s current
      rw [List.foldl_cons, List.foldl_cons, ← hcode]
      exact ih hrest (m.code (s, current) code).1 _
  exact hfold Memory.empty (m.block Offset.zero)

end BlockAutomata.Kernel
