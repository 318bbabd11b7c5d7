/-
  When 64-bit evaluation stays within 32-bit words.

  1. The operators on words are the operators on 64 bits, cut down (`toInt32_on64`).  So as long as
     a result fits a word, nothing is lost by computing with words.

  2. `StaysNarrow` follows the interpreter through a tree: every operation that it evaluates, and
     every count, has a result that fits a word.  What it skips - conditions after one that fails,
     effects of a rule that does not fire - is not asked about.

  3. Then a tree whose literals fit words and whose reads are reads of the block has the same value
     both ways (`eval_eq_word`), and what a list of rules demands of the block is the word that the
     rules mean (`demand_eq_word`).
-/
import BlockAutomata.Proofs.Kernel.WordMeaning
import BlockAutomata.Proofs.Script.Changes
import BlockAutomata.Script.Reads

namespace BlockAutomata.Script

/-! ## Words among 64-bit numbers -/

/-- The number is one of 32 bits. -/
def FitsWord (x : Int64) : Prop := -0x80000000 ≤ x.toInt ∧ x.toInt < 0x80000000

instance (x : Int64) : Decidable (FitsWord x) := inferInstanceAs (Decidable (_ ∧ _))

theorem toInt64_toInt32 {x : Int64} (h : FitsWord x) : x.toInt32.toInt64 = x := by
  rw [← Int64.ofInt_toInt (x := x), Int64.toInt32_ofInt]
  exact Int32.toInt64_ofInt h.1 (Int.le_sub_one_of_lt h.2)

/-- The operators on words are those on 64 bits, cut down. -/
theorem toInt32_on64 (op : Operator) (l r : Int32) :
    (op.on64 l.toInt64 r.toInt64).toInt32 = op.on32 l r := by
  have hzero : r.toInt64 = 0 ↔ r = 0 := by
    constructor
    · intro h
      have hr := congrArg Int64.toInt32 h
      rwa [Int32.toInt32_toInt64] at hr
    · intro h
      rw [h]
      rfl
  cases op with
  | add => rw [Operator.on64, Operator.on32, Int64.toInt32_add, Int32.toInt32_toInt64,
      Int32.toInt32_toInt64]
  | sub => rw [Operator.on64, Operator.on32, Int64.toInt32_sub, Int32.toInt32_toInt64,
      Int32.toInt32_toInt64]
  | mul => rw [Operator.on64, Operator.on32, Int64.toInt32_mul, Int32.toInt32_toInt64,
      Int32.toInt32_toInt64]
  | div =>
    simp only [Operator.on64, Operator.on32, hzero]
    split
    · rw [Int32.toInt32_toInt64]
    · -- only the least number divided by -1 leaves the words, and it is cut down to itself
      by_cases hl : l = Int32.minValue
      · by_cases hr : r = -1
        · rw [hl, hr]
          decide
        · rw [← Int32.toInt64_div_of_ne_right l r hr, Int32.toInt32_toInt64]
      · rw [← Int32.toInt64_div_of_ne_left l r hl, Int32.toInt32_toInt64]
  | rem =>
    simp only [Operator.on64, Operator.on32, hzero]
    split
    · rfl
    · rw [← Int32.toInt64_mod, Int32.toInt32_toInt64]

theorem sign64_toInt64 (l r : Int32) : sign64 l.toInt64 r.toInt64 = (sign32 l r).toInt64 := by
  have heq : l.toInt64 = r.toInt64 ↔ l = r :=
    ⟨fun h => by simpa using congrArg Int64.toInt32 h, fun h => by rw [h]⟩
  unfold sign64 sign32
  simp only [Int32.toInt64_lt, heq]
  split
  · rfl
  · split <;> rfl

theorem toInt64_ofNat {n : Nat} (h : n < 0x80000000) : (Int32.ofNat n).toInt64 = Int64.ofNat n :=
  Int32.toInt64_ofNat' (by
    have : Int32.maxValue.toInt = 2147483647 := by decide
    omega)

/-! ## What stays within words -/

/-- A literal of 32 bits, a read of the block, or a compound expression. -/
def Expr.IsWordTerm : Expr → Prop
  | .literal n => FitsWord n
  | .channel s => s = 0
  | .neighbor _ s => s = 0
  | _ => True

mutual

/-- Evaluating the expression meets no operation and no count whose result does not fit a word.  (A
    count is as large only when it is taken over 2^31 offsets or more.) -/
def Expr.StaysNarrow : Expr → View → Prop
  | .literal _, _ => True
  | .channel _, _ => True
  | .neighbor _ _, _ => True
  | .count os c, v =>
    os.countP (fun o => c.holds (v.shift o)) < 0x80000000 ∧ ∀ o ∈ os, c.StaysNarrow (v.shift o)
  | .sign l r, v => l.StaysNarrow v ∧ r.StaysNarrow v
  | .arith l r op, v =>
    l.StaysNarrow v ∧ r.StaysNarrow v ∧ FitsWord (op.on64 (l.eval v) (r.eval v))

/-- Testing the condition meets no such result. -/
def Cond.StaysNarrow : Cond → View → Prop
  | .all cs, v => Cond.AllStayNarrow cs v
  | .not c, v => c.StaysNarrow v
  | .equal l r, v => l.StaysNarrow v ∧ r.StaysNarrow v

/-- Testing the conditions up to the first that fails meets no such result. -/
def Cond.AllStayNarrow : List Cond → View → Prop
  | [], _ => True
  | c :: cs, v => c.StaysNarrow v ∧ (c.holds v = true → Cond.AllStayNarrow cs v)

end

/-- Performing the effect meets no such result. -/
def Effect.StaysNarrow : Effect → View → Prop
  | .set _ e, v => e.StaysNarrow v
  | .copy _, _ => True
  | .raise _ none, _ => True
  | .raise _ (some e), v => e.StaysNarrow v

/-- Firing the rule, if its condition holds, meets no such result. -/
def Rule.StaysNarrow (r : Rule) (v : View) : Prop :=
  r.condition.StaysNarrow v ∧
    (r.condition.holds v = true → ∀ e ∈ r.effects, e.StaysNarrow v)

/-! ## Evaluating both ways -/

/-- The blocks of the view are the words. -/
def SeesWords (v : View) (f : WordBlocks) : Prop := ∀ o, v.read o 0 = (f o).toInt64

theorem SeesWords.shift {v : View} {f : WordBlocks} (h : SeesWords v f) (o : Offset) :
    SeesWords (v.shift o) (f.recentre o) := fun d => h (o + d)

mutual

/-- An expression has the same value in words and in 64 bits. -/
theorem Expr.eval_eq_word : ∀ (e : Expr) {v : View} {f : WordBlocks}, SeesWords v f →
    (∀ x ∈ e.subterms, x.IsWordTerm) → e.StaysNarrow v → e.eval v = (e.word f).toInt64
  | .literal n, v, f, _, ht, _ => by
    have hn : FitsWord n := ht (.literal n) (by rw [Expr.subterms]; exact List.mem_singleton_self _)
    rw [Expr.eval, Expr.word, toInt64_toInt32 hn]
  | .channel s, v, f, hv, ht, _ => by
    have hs : s = 0 := ht (.channel s) (by rw [Expr.subterms]; exact List.mem_singleton_self _)
    rw [Expr.eval, Expr.word, if_pos hs, hs, ← hv Offset.zero]
    rfl
  | .neighbor o s, v, f, hv, ht, _ => by
    have hs : s = 0 := ht (.neighbor o s) (by rw [Expr.subterms]; exact List.mem_singleton_self _)
    rw [Expr.eval, Expr.word, if_pos hs, hs, ← hv o]
  | .count os c, v, f, hv, ht, hn => by
    rw [Expr.StaysNarrow] at hn
    have hsub : ∀ x ∈ c.subterms, x.IsWordTerm := fun x hx =>
      ht x (by rw [Expr.subterms]; exact List.mem_cons_of_mem _ hx)
    have hcount : (os.countP fun o => c.holds (v.shift o)) =
        os.countP fun o => c.holdsWord (f.recentre o) :=
      List.countP_congr fun o ho => by
        rw [Cond.holds_eq_word c (hv.shift o) hsub (hn.2 o ho)]
    rw [Expr.eval, Expr.word, ← hcount, toInt64_ofNat hn.1]
  | .sign l r, v, f, hv, ht, hn => by
    rw [Expr.StaysNarrow] at hn
    simp only [Expr.subterms, List.mem_cons, List.mem_append] at ht
    have hl := Expr.eval_eq_word l hv (fun x hx => ht x (Or.inr (Or.inl hx))) hn.1
    have hr := Expr.eval_eq_word r hv (fun x hx => ht x (Or.inr (Or.inr hx))) hn.2
    rw [Expr.eval, Expr.word, hl, hr, sign64_toInt64]
  | .arith l r op, v, f, hv, ht, hn => by
    rw [Expr.StaysNarrow] at hn
    simp only [Expr.subterms, List.mem_cons, List.mem_append] at ht
    have hl := Expr.eval_eq_word l hv (fun x hx => ht x (Or.inr (Or.inl hx))) hn.1
    have hr := Expr.eval_eq_word r hv (fun x hx => ht x (Or.inr (Or.inr hx))) hn.2.1
    have hfits := hn.2.2
    rw [hl, hr] at hfits
    rw [Expr.eval, Expr.word, hl, hr, ← toInt32_on64, toInt64_toInt32 hfits]

/-- A condition holds in words when it holds in 64 bits. -/
theorem Cond.holds_eq_word : ∀ (c : Cond) {v : View} {f : WordBlocks}, SeesWords v f →
    (∀ x ∈ c.subterms, x.IsWordTerm) → c.StaysNarrow v → c.holds v = c.holdsWord f
  | .all cs, v, f, hv, ht, hn => by
    rw [Cond.StaysNarrow] at hn
    rw [Cond.subterms] at ht
    rw [Cond.holds, Cond.holdsWord, Cond.allHold_eq_word cs hv ht hn]
  | .not c, v, f, hv, ht, hn => by
    rw [Cond.StaysNarrow] at hn
    rw [Cond.subterms] at ht
    rw [Cond.holds, Cond.holdsWord, Cond.holds_eq_word c hv ht hn]
  | .equal l r, v, f, hv, ht, hn => by
    rw [Cond.StaysNarrow] at hn
    simp only [Cond.subterms, List.mem_append] at ht
    have hl := Expr.eval_eq_word l hv (fun x hx => ht x (Or.inl hx)) hn.1
    have hr := Expr.eval_eq_word r hv (fun x hx => ht x (Or.inr hx)) hn.2
    have hinj : ((l.word f).toInt64 == (r.word f).toInt64) = (l.word f == r.word f) := by
      rw [Bool.eq_iff_iff, beq_iff_eq, beq_iff_eq]
      exact ⟨fun h => by simpa using congrArg Int64.toInt32 h, fun h => by rw [h]⟩
    rw [Cond.holds, Cond.holdsWord, hl, hr, hinj]

/-- Conditions all hold in words when they do in 64 bits. -/
theorem Cond.allHold_eq_word : ∀ (cs : List Cond) {v : View} {f : WordBlocks}, SeesWords v f →
    (∀ x ∈ Cond.subtermsAll cs, x.IsWordTerm) → Cond.AllStayNarrow cs v →
    Cond.allHold cs v = Cond.allHoldWord cs f
  | [], _, _, _, _, _ => by rw [Cond.allHold, Cond.allHoldWord]
  | c :: cs, v, f, hv, ht, hn => by
    rw [Cond.AllStayNarrow] at hn
    simp only [Cond.subtermsAll, List.mem_append] at ht
    have hc := Cond.holds_eq_word c hv (fun x hx => ht x (Or.inl hx)) hn.1
    rw [Cond.allHold, Cond.allHoldWord, ← hc]
    -- after a condition that fails nothing is known, but then nothing is asked either
    cases h : c.holds v with
    | false => rfl
    | true =>
      rw [Cond.allHold_eq_word cs hv (fun x hx => ht x (Or.inr hx)) (hn.2 h)]

end

/-! ## Rules -/

/-- What the demand leaves of the block. -/
def Demand.block (d : Demand) (v : View) : Int64 := (d.writes.get? 0).getD (v.own 0)

namespace Interpreter

variable {v : View} {f : WordBlocks} {channels : Nat}

/-- Effects demand for the block the last word that they write, or leave it. -/
theorem block_foldl_perform (hv : SeesWords v f) (hchannels : 0 < channels) (es : List Effect)
    (ht : ∀ x ∈ es.flatMap Effect.subterms, x.IsWordTerm) (hn : ∀ e ∈ es, e.StaysNarrow v)
    {d : Demand} {current : Int32} (hd : d.block v = current.toInt64) :
    Demand.block (es.foldl (perform channels v) d) v =
      (((es.filterMap fun e => e.word? f).getLast?).getD current).toInt64 := by
  induction es generalizing d current with
  | nil => exact hd
  | cons e es ih =>
    simp only [List.flatMap_cons, List.mem_append] at ht
    -- the rest may start from whatever this effect demands
    have hrest := fun {d : Demand} {current : Int32} (hd : d.block v = current.toInt64) =>
      ih (fun x hx => ht x (Or.inr hx)) (fun e he => hn e (List.mem_cons_of_mem _ he)) hd
    have hone : Demand.block (perform channels v d e) v = ((e.word? f).getD current).toInt64 := by
      unfold Demand.block at hd ⊢
      rw [get?_perform]
      cases e with
      | set s e =>
        have he := hn _ List.mem_cons_self
        by_cases hs : s = 0
        · subst hs
          have heval := Expr.eval_eq_word e hv (fun x hx => ht x (Or.inl hx)) he
          simp only [if_true, Option.getD_some, Effect.word?]
          exact heval
        · simp only [Ne.symm hs, hs, if_false, Effect.word?]
          exact hd
      | copy o => simp only [hchannels, if_true, Option.getD_some, Effect.word?]; exact hv o
      | raise name e => exact hd
    rw [List.foldl_cons, hrest hone]
    cases hw : e.word? f with
    | none => simp [hw]
    | some w => simp [hw, List.getLast?_cons]

/-- Rules demand for the block the word that they mean. -/
theorem block_foldl_fire (hv : SeesWords v f) (hchannels : 0 < channels) (rules : List Rule)
    (ht : ∀ r ∈ rules, ∀ x ∈ r.subterms, x.IsWordTerm) (hn : ∀ r ∈ rules, r.StaysNarrow v)
    {d : Demand} {current : Int32} (hd : d.block v = current.toInt64) :
    Demand.block (rules.foldl (fire channels v) d) v =
      (rules.foldl (Rule.wordAfter f) current).toInt64 := by
  induction rules generalizing d current with
  | nil => exact hd
  | cons r rules ih =>
    have htr := ht r List.mem_cons_self
    have hnr := hn r List.mem_cons_self
    simp only [Rule.subterms, List.mem_append] at htr
    have hcond := Cond.holds_eq_word r.condition hv (fun x hx => htr x (Or.inl hx)) hnr.1
    have hone : Demand.block (fire channels v d r) v = (r.wordAfter f current).toInt64 := by
      unfold fire Rule.wordAfter
      rw [← hcond]
      cases h : r.condition.holds v with
      | false => exact hd
      | true =>
        exact block_foldl_perform hv hchannels r.effects (fun x hx => htr x (Or.inr hx))
          (hnr.2 h) hd
    rw [List.foldl_cons, List.foldl_cons]
    exact ih (fun r hr => ht r (List.mem_cons_of_mem _ hr))
      (fun r hr => hn r (List.mem_cons_of_mem _ hr)) hone

/-- Where nothing leaves the words, the interpreter turns the block into the word that the rules
    mean. -/
theorem outcome_eq_word (hv : SeesWords v f) (rules : List Rule) (slots : SlotTable)
    (ht : ∀ r ∈ rules, ∀ x ∈ r.subterms, x.IsWordTerm) (hn : ∀ r ∈ rules, r.StaysNarrow v) :
    ((ofRules rules slots).outcome v).applied v.own 0 = (wordAfterRules rules f).toInt64 := by
  have hchannels : 0 < (ofRules rules slots).channels := by
    show 0 < max (channelsNeeded rules) (slots.namesBySlot.length + 1)
    omega
  rw [outcome_applied]
  exact block_foldl_fire hv hchannels rules ht hn (hv Offset.zero)

end Interpreter

end BlockAutomata.Script
