/-
  The trees that the grammar has.

  1. **Shapes.**  Not every tree can be written down in a line.  The predicates below single out
     those that can: sums of products of operands, bound to the left; comparisons of a channel with
     a sum and tests of a count, where what is counted is again one condition; a rule's condition,
     which is one condition or several, and its effects, of which there is at least one.  All of
     them speak of slots that are `known`, and stay true when more slots become known.

  2. **Readers.**  Every reader yields trees of its shape whose slots are known to the table that it
     leaves behind.  The loops are handled by induction on the number of tokens that they carry.

  3. So the rules of a line have the shape of rules (`ensures_line`).
-/
import BlockAutomata.Proofs.Script.Readers

namespace BlockAutomata.Script

/-! ## Shapes -/

/-- The offsets of a named neighbourhood, or one offset. -/
def IsTarget (os : List Offset) : Prop :=
  (∃ name, Neighborhood.find? name = some os) ∨ ∃ o, os = [o]

/-- Whether the operator binds operands to a product. -/
def Operator.inProducts : Operator → Bool
  | mul | div | rem => true
  | add | sub => false

/-- Whether the operator binds products to a sum. -/
def Operator.inSums (op : Operator) : Bool := !op.inProducts

/-- A literal or a channel, of the cell or of a neighbour. -/
inductive Expr.IsOperand (known : Nat → Prop) : Expr → Prop where
  | literal (n : Int64) : IsOperand known (.literal n)
  | channel {s : Nat} (hs : known s) : IsOperand known (.channel s)
  | neighbor (o : Offset) {s : Nat} (hs : known s) : IsOperand known (.neighbor o s)

/-- One part, or several bound to the left by operators of one kind. -/
inductive Expr.IsChain (binds : Operator → Bool) (part : Expr → Prop) : Expr → Prop where
  | one {e : Expr} (he : part e) : IsChain binds part e
  | more {l r : Expr} {op : Operator} (hl : IsChain binds part l) (hop : binds op = true)
      (hr : part r) : IsChain binds part (.arith l r op)

/-- Operands multiplied and divided. -/
def Expr.IsProduct (known : Nat → Prop) : Expr → Prop :=
  Expr.IsChain Operator.inProducts (Expr.IsOperand known)

/-- Products added and subtracted. -/
def Expr.IsSum (known : Nat → Prop) : Expr → Prop :=
  Expr.IsChain Operator.inSums (Expr.IsProduct known)

/-- The four ways to compare a left side with a right side. -/
inductive Cond.Compares (l r : Expr) : Cond → Prop where
  | equal : Compares l r (.equal l r)
  | differ : Compares l r (.not (.equal l r))
  | greater : Compares l r (.equal (.sign l r) (.literal 1))
  | less : Compares l r (.equal (.sign l r) (.literal (-1)))

/-- A comparison of a channel with a sum, or of the number of neighbours at which a simple condition
    holds with a literal. -/
inductive Cond.IsSimple (known : Nat → Prop) : Cond → Prop where
  | own {s : Nat} {e : Expr} {c : Cond} (hs : known s) (he : e.IsSum known)
      (hc : Cond.Compares (.channel s) e c) : IsSimple known c
  | counted {os : List Offset} {inner : Cond} {n : Int64} {c : Cond} (hos : IsTarget os)
      (hinner : IsSimple known inner) (hc : Cond.Compares (.count os inner) (.literal n) c) :
      IsSimple known c

/-- A simple condition, or at least two of them. -/
inductive Cond.IsConjunction (known : Nat → Prop) : Cond → Prop where
  | one {c : Cond} (hc : c.IsSimple known) : IsConjunction known c
  | several {cs : List Cond} (htwo : 2 ≤ cs.length) (hcs : ∀ c ∈ cs, c.IsSimple known) :
      IsConjunction known (.all cs)

/-- An effect on a channel, on all channels, or an event. -/
inductive Effect.IsShaped (known : Nat → Prop) : Effect → Prop where
  | set {s : Nat} {e : Expr} (hs : known s) (he : e.IsSum known) : IsShaped known (.set s e)
  | copy (o : Offset) : IsShaped known (.copy o)
  | announce (name : String) : IsShaped known (.raise name none)
  | report (name : String) {e : Expr} (he : e.IsSum known) : IsShaped known (.raise name (some e))

/-- A rule as the grammar has it. -/
structure Rule.IsShaped (known : Nat → Prop) (r : Rule) : Prop where
  condition : r.condition.IsConjunction known
  effects : ∀ e ∈ r.effects, e.IsShaped known
  nonempty : r.effects ≠ []

/-! ### More known slots -/

section Mono

variable {known known' : Nat → Prop}

theorem Expr.IsOperand.mono (hk : ∀ s, known s → known' s) {e : Expr} (h : e.IsOperand known) :
    e.IsOperand known' := by
  cases h with
  | literal n => exact .literal n
  | channel hs => exact .channel (hk _ hs)
  | neighbor o hs => exact .neighbor o (hk _ hs)

theorem Expr.IsChain.mono {binds : Operator → Bool} {part part' : Expr → Prop}
    (hp : ∀ e, part e → part' e) {e : Expr} (h : e.IsChain binds part) : e.IsChain binds part' := by
  induction h with
  | one he => exact .one (hp _ he)
  | more _ hop hr ih => exact .more ih hop (hp _ hr)

theorem Expr.IsSum.mono (hk : ∀ s, known s → known' s) {e : Expr} (h : e.IsSum known) :
    e.IsSum known' :=
  IsChain.mono (fun _ hp => IsChain.mono (fun _ ho => ho.mono hk) hp) h

theorem Cond.IsSimple.mono (hk : ∀ s, known s → known' s) {c : Cond} (h : c.IsSimple known) :
    c.IsSimple known' := by
  induction h with
  | own hs he hc => exact .own (hk _ hs) (he.mono hk) hc
  | counted hos _ hc ih => exact .counted hos ih hc

theorem Cond.IsConjunction.mono (hk : ∀ s, known s → known' s) {c : Cond}
    (h : c.IsConjunction known) : c.IsConjunction known' := by
  cases h with
  | one hc => exact .one (hc.mono hk)
  | several htwo hcs => exact .several htwo fun c hc => (hcs c hc).mono hk

theorem Effect.IsShaped.mono (hk : ∀ s, known s → known' s) {e : Effect} (h : e.IsShaped known) :
    e.IsShaped known' := by
  cases h with
  | set hs he => exact .set (hk _ hs) (he.mono hk)
  | copy o => exact .copy o
  | announce name => exact .announce name
  | report name he => exact .report name (he.mono hk)

theorem Rule.IsShaped.mono (hk : ∀ s, known s → known' s) {r : Rule} (h : r.IsShaped known) :
    r.IsShaped known' :=
  ⟨h.condition.mono hk, fun e he => (h.effects e he).mono hk, h.nonempty⟩

end Mono

/-- Several simple conditions of a rule make its condition. -/
theorem Cond.isConjunction_of_conjunction? {known : Nat → Prop} {cs : List Cond} {c : Cond}
    (hcs : ∀ c ∈ cs, c.IsSimple known) (h : Cond.conjunction? cs = some c) :
    c.IsConjunction known := by
  match cs, hcs, h with
  | [c], hcs, rfl => exact .one (hcs c List.mem_cons_self)
  | c :: d :: cs, hcs, rfl => exact .several (Nat.le_add_left 2 cs.length) hcs

namespace Reading

variable {t : SlotTable} {palette : Palette}

/-! ## Readers that leave the slot table alone -/

theorem ensures_atPath : Ensures t atPath fun _ t' => t' = t := by
  rw [atPath]
  refine .bind_next fun token => ?_
  split
  · exact .bind_lookahead fun _ => .pure rfl
  · exact .bind_lookahead fun _ => .pure rfl
  · exact .pure rfl

theorem ensures_target : Ensures t target fun os t' => t' = t ∧ IsTarget os := by
  rw [target]
  refine .bind_next fun token => ?_
  split
  · rename_i name
    split
    · rename_i offsets hfind
      exact .bind_skip (.pure ⟨rfl, Or.inl ⟨name, hfind⟩⟩)
    · exact .fail _
  · rename_i o
    exact .bind_skip (.pure ⟨rfl, Or.inr ⟨o, rfl⟩⟩)
  · exact .fail _

theorem ensures_oneCell : Ensures t oneCell fun _ t' => t' = t := by
  rw [oneCell]
  refine .bind_next fun token => Ensures.bind_same ensures_target fun os _ => ?_
  split
  · exact .pure rfl
  · exact .throw _

theorem ensures_valueText : Ensures t valueText fun _ t' => t' = t := by
  rw [valueText]
  refine .bind_next fun token => ?_
  split
  · exact .pure rfl
  · exact .pure rfl
  · exact .fail _

theorem ensures_properties (block : String) (n : Nat) (state : Int64) :
    Ensures t (properties palette block n state) fun _ t' => t' = t := by
  induction n generalizing state with
  | zero => exact .fail _
  | succ n ih =>
    rw [properties]
    refine .bind_next fun token => ?_
    split
    · refine .bind_skip (.bind_need (Ensures.bind_keeps ensures_valueText fun value => ?_))
      split
      · exact .fail _
      · refine .bind_skip (.bind_next fun token => ?_)
        split
        · exact .bind_skip (ih _)
        · exact .bind_skip (.pure rfl)
        · exact .fail _
    · exact .fail _

theorem ensures_atProperties : Ensures t atProperties fun _ t' => t' = t := by
  rw [atProperties]
  refine .bind_next fun _ => .bind_lookahead fun _ => .bind_lookahead fun _ => ?_
  split <;> exact .pure rfl

theorem ensures_blockState : Ensures t (blockState palette) fun _ t' => t' = t := by
  rw [blockState]
  refine .bind_next fun token => ?_
  split
  · split
    · exact .fail _
    · refine .bind_skip (Ensures.bind_keeps ensures_atProperties fun here => ?_)
      split
      · exact .bind_skip (.bind_remaining fun n => ensures_properties _ n _)
      · exact .pure rfl
  · exact .fail _

theorem ensures_number : Ensures t number fun _ t' => t' = t := by
  rw [number]
  refine .bind_next fun token => ?_
  split
  · exact .bind_skip (.pure rfl)
  · exact .fail _

theorem ensures_countTest : Ensures t countTest fun _ t' => t' = t := by
  have hnumber (test : Int64 → CountTest) :
      Ensures t (number >>= fun n => pure (test n)) fun _ t' => t' = t :=
    Ensures.bind_keeps ensures_number fun _ => .pure rfl
  rw [countTest]
  refine .bind_next fun token => ?_
  cases token with
  | number n => exact .bind_skip (.pure rfl)
  | exclamation => exact .bind_skip (hnumber .not)
  | greaterThan => exact .bind_skip (hnumber .greater)
  | lessThan => exact .bind_skip (hnumber .less)
  | _ => exact .fail _

theorem ensures_countTest? : Ensures t countTest? fun _ t' => t' = t := by
  rw [countTest?]
  refine .bind_next fun token => ?_
  split
  · exact .bind_skip (Ensures.bind_keeps ensures_countTest fun _ => .bind_need (.pure rfl))
  · exact .pure rfl

/-! ## Expressions -/

theorem ensures_operand : Ensures t (operand palette) fun e t' => e.IsOperand t'.Knows := by
  rw [operand]
  refine Ensures.bind_keeps ensures_atPath fun path => ?_
  split
  · refine Ensures.bind_keeps ensures_oneCell fun o => .bind_skip (.bind_next fun token => ?_)
    split
    · exact .bind_skip ((Ensures.slotFor _).bind fun s t' _ hs => .pure (.neighbor o hs))
    · exact .fail _
  · refine .bind_next fun token => ?_
    split
    · exact .bind_skip (.pure (.literal _))
    · exact Ensures.bind_keeps ensures_blockState fun n => .pure (.literal n)
    · exact .bind_skip ((Ensures.slotFor _).bind fun s t' _ hs => .pure (.channel hs))
    · exact .fail _

/-- A loop over operators binds further parts to the left. -/
theorem ensures_chain {operator? : Token → Option Operator} {binds : Operator → Bool}
    (part : (Nat → Prop) → Expr → Prop) {x : Reading Expr}
    (hmono : ∀ {known known' : Nat → Prop} {e}, (∀ s, known s → known' s) → part known e →
      part known' e)
    (hop : ∀ {token op}, operator? token = some op → binds op = true)
    (hx : ∀ t : SlotTable, Ensures t x fun e t' => part t'.Knows e) (n : Nat) {left : Expr}
    (hleft : left.IsChain binds (part t.Knows)) :
    Ensures t (chain operator? x n left) fun e t' => e.IsChain binds (part t'.Knows) := by
  induction n generalizing t left with
  | zero => exact .pure hleft
  | succ n ih =>
    rw [chain]
    refine .bind_next fun token => ?_
    split
    · exact .pure hleft
    · rename_i op hsome
      refine .bind_skip ((hx t).bind fun right t' hgrows hright => ih ?_)
      exact .more (hleft.mono fun _ h => hmono (fun _ => hgrows.knows) h) (hop hsome) hright

theorem inProducts_of_productOperator? {token : Token} {op : Operator}
    (h : productOperator? token = some op) : op.inProducts = true := by
  cases token <;> cases h <;> rfl

theorem inSums_of_sumOperator? {token : Token} {op : Operator}
    (h : sumOperator? token = some op) : op.inSums = true := by
  cases token <;> cases h <;> rfl

theorem ensures_product (t : SlotTable) :
    Ensures t (product palette) fun e t' => e.IsProduct t'.Knows := by
  rw [product]
  refine ensures_operand.bind fun first t' _ hfirst => .bind_remaining fun n => ?_
  exact ensures_chain Expr.IsOperand (fun hk h => h.mono hk)
    inProducts_of_productOperator? (fun _ => ensures_operand) n (.one hfirst)

theorem ensures_sum : Ensures t (sum palette) fun e t' => e.IsSum t'.Knows := by
  rw [sum]
  refine (ensures_product t).bind fun first t' _ hfirst => .bind_remaining fun n => ?_
  exact ensures_chain Expr.IsProduct (fun hk h => h.mono fun _ ho => ho.mono hk)
    inSums_of_sumOperator? ensures_product n (.one hfirst)

/-! ## Conditions -/

theorem compares_of_comparison? {token : Token} {compare : Expr → Expr → Cond} (l r : Expr)
    (h : comparison? token = some compare) : Cond.Compares l r (compare l r) := by
  cases token <;> cases h
  · exact .differ
  · exact .equal
  · exact .greater
  · exact .less

/-- What a test demands of a count. -/
theorem CountTest.compares (test : CountTest) (count : Expr) :
    ∃ n, Cond.Compares count (.literal n) (test.condition count) := by
  cases test with
  | exactly n => exact ⟨n, .equal⟩
  | not n => exact ⟨n, .differ⟩
  | greater n => exact ⟨n, .greater⟩
  | less n => exact ⟨n, .less⟩

theorem isSimple_isBlock (t : SlotTable) (state : Int64) :
    (Cond.isBlock state).IsSimple t.Knows :=
  .own t.knows_zero (.one (.one (.literal state))) .equal

theorem ensures_ownCondition :
    Ensures t (ownCondition palette) fun c t' => c.IsSimple t'.Knows := by
  rw [ownCondition]
  refine .bind_next fun token => ?_
  split
  · exact Ensures.bind_keeps ensures_blockState fun state => .pure (isSimple_isBlock t state)
  · refine .bind_skip (.bind_next fun token => ?_)
    split
    · refine Ensures.bind_keeps ensures_blockState fun state => .pure ?_
      exact .own t.knows_zero (.one (.one (.literal state))) .differ
    · exact .fail _
  · refine .bind_skip ((Ensures.slotFor _).bind fun s t' _ hs => .bind_next fun token => ?_)
    split
    · exact .fail _
    · rename_i compare hcompare
      refine .bind_skip (ensures_sum.bind fun e t'' hgrows he => .pure ?_)
      exact .own (hgrows.knows hs) he (compares_of_comparison? _ e hcompare)
  · exact .fail _

theorem ensures_condition (n : Nat) :
    Ensures t (condition palette n) fun c t' => c.IsSimple t'.Knows := by
  induction n with
  | zero => exact .fail _
  | succ n ih =>
    rw [condition]
    refine Ensures.bind_keeps ensures_countTest? fun test =>
      Ensures.bind_keeps ensures_atPath fun path => ?_
    split
    · refine Ensures.bind_same ensures_target fun os hos => .bind_skip ?_
      refine ih.bind fun inner t' _ hinner => .pure ?_
      obtain ⟨_, hc⟩ := (test.getD (.exactly 1)).compares (.count os inner)
      exact .counted hos hinner hc
    · split
      · exact .fail _
      · exact ensures_ownCondition

theorem ensures_conditions (n : Nat) (first : Bool) :
    Ensures t (conditions palette n first) fun cs t' => ∀ c ∈ cs, c.IsSimple t'.Knows := by
  induction n generalizing t first with
  | zero => exact .fail _
  | succ n ih =>
    have hone : Ensures t (do
        let c ← condition palette (← remaining)
        return c :: (← conditions palette n false)) fun cs t' => ∀ c ∈ cs, c.IsSimple t'.Knows := by
      refine .bind_remaining fun left => (ensures_condition left).bind fun c t' _ hc => ?_
      refine (ih false).bind fun cs t'' hgrows hcs => .pure ?_
      exact List.forall_mem_cons.2 ⟨hc.mono fun _ => hgrows.knows, hcs⟩
    rw [conditions]
    refine .bind_next fun token => ?_
    split
    · exact .pure fun _ hc => absurd hc List.not_mem_nil
    · refine .bind_next fun token => ?_
      split
      · exact .bind_skip hone
      · exact hone

/-! ## Effects and rules -/

theorem ensures_effect : Ensures t (effect palette) fun e t' => e.IsShaped t'.Knows := by
  rw [effect]
  refine .bind_next fun token => ?_
  split
  · refine Ensures.bind_keeps ensures_blockState fun state => .pure ?_
    exact .set t.knows_zero (.one (.one (.literal state)))
  · refine .bind_skip ((Ensures.slotFor _).bind fun s t' _ hs => .bind_need ?_)
    exact ensures_sum.bind fun e t'' hgrows he => .pure (.set (hgrows.knows hs) he)
  · exact .bind_skip (Ensures.bind_keeps ensures_oneCell fun o => .pure (.copy o))
  · refine .bind_skip (.bind_next fun token => ?_)
    split
    · refine .bind_skip (.bind_next fun token => ?_)
      split
      · exact .bind_skip (ensures_sum.bind fun e t' _ he => .pure (.report _ he))
      · exact .pure (.announce _)
    · exact .fail _
  · exact .fail _

theorem ensures_effects (n : Nat) (first : Bool) :
    Ensures t (effects palette n first) fun es t' =>
      (∀ e ∈ es, e.IsShaped t'.Knows) ∧ (first = true → es ≠ []) := by
  induction n generalizing t first with
  | zero =>
    cases first with
    | true => exact .fail _
    | false => exact .pure ⟨fun _ he => absurd he List.not_mem_nil, fun h => by cases h⟩
  | succ n ih =>
    have hone : Ensures t (do
        let e ← effect palette
        return e :: (← effects palette n false)) fun es t' =>
          (∀ e ∈ es, e.IsShaped t'.Knows) ∧ (first = true → es ≠ []) := by
      refine ensures_effect.bind fun e t' _ he => (ih false).bind fun es t'' hgrows hes => .pure ?_
      refine ⟨List.forall_mem_cons.2 ⟨he.mono fun _ => hgrows.knows, hes.1⟩, fun _ => ?_⟩
      exact List.cons_ne_nil e es
    rw [effects]
    refine .bind_next fun token => ?_
    split
    · rename_i hend
      refine .pure ⟨fun _ he => absurd he List.not_mem_nil, fun hfirst => ?_⟩
      rw [hfirst] at hend
      cases hend
    · split
      · exact .bind_skip hone
      · exact hone

theorem ensures_rule : Ensures t (rule palette) fun r t' => r.IsShaped t'.Knows := by
  rw [rule]
  refine .bind_remaining fun n => (ensures_conditions n true).bind fun cs t' _ hcs => ?_
  split
  · exact .fail _
  · rename_i c hc
    refine .bind_skip (.bind_remaining fun n => ?_)
    refine (ensures_effects n true).bind fun es t'' hgrows hes => .pure ?_
    have hcond := Cond.isConjunction_of_conjunction? hcs hc
    exact ⟨hcond.mono fun _ => hgrows.knows, hes.1, hes.2 rfl⟩

theorem ensures_rules (n : Nat) :
    Ensures t (rules palette n) fun rs t' => ∀ r ∈ rs, r.IsShaped t'.Knows := by
  induction n generalizing t with
  | zero => exact .fail _
  | succ n ih =>
    rw [rules]
    refine ensures_rule.bind fun r t' _ hr => .bind_next fun token => ?_
    split
    · refine .bind_skip (ih.bind fun rs t'' hgrows hrs => .pure ?_)
      exact List.forall_mem_cons.2 ⟨hr.mono fun _ => hgrows.knows, hrs⟩
    · exact .pure (List.forall_mem_singleton.2 hr)

theorem ensures_line (t : SlotTable) (palette : Palette) :
    Ensures t (line palette) fun rs t' => ∀ r ∈ rs, r.IsShaped t'.Knows := by
  rw [line]
  refine .bind_next fun token => ?_
  split
  · exact .pure fun _ hr => absurd hr List.not_mem_nil
  · refine .bind_remaining fun n => (ensures_rules n).bind fun rs t' _ hrs => ?_
    exact .bind_need (.pure hrs)

end Reading

end BlockAutomata.Script
