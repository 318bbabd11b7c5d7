/-
  What it means that a block is not watched.

  1. The table of a set of blocks has exactly the given numbers that are not negative
     (`contains_ofList`), and the watched blocks of rules are exactly those that their conditions
     compare with a block (`mem_watchedBlocks`).

  2. So at a cell whose block is not watched, each test of the cell's own block for a number that is
     not negative fails.  A condition that is settled by these tests alone has a verdict, by the
     logic of three values: `some false` when a failing test is enough to refute it, `some true`
     when it asks for the block to be another one, and `none` when more than these tests counts.

  3. At every such cell the condition is what the verdict says (`holds_of_verdict`).  A rule can
     therefore be left out there if its verdict is `some false`; if it is `some true`, the rule
     fires at all these cells, and whoever relies on the watched blocks misses it.  A condition that
     tests nothing but the block always has one of these two verdicts (`exists_verdict`).

  4. So the watched blocks do not cover every test of the cell's own block: a negated test, one
     that compares by size, one with the literal on the left and one for a negative number may all
     hold where the block is not watched (`misses_of_each_kind`).
-/
import BlockAutomata.Script.Interpreter
import Mathlib.Data.List.Basic

namespace BlockAutomata

/-! ## Tables of blocks -/

namespace BlockSet

/-- Raising flags in a table raises them as far as the table reaches. -/
theorem getD_foldl_setIfInBounds (members : List Nat) (flags : Array Bool) (i : Nat) :
    (members.foldl (fun flags m => flags.setIfInBounds m true) flags).getD i false =
      (flags.getD i false || decide (i ∈ members ∧ i < flags.size)) := by
  induction members generalizing flags with
  | nil => simp
  | cons m rest ih =>
    rw [List.foldl_cons, ih, Array.size_setIfInBounds]
    by_cases hm : i = m
    · subst hm
      by_cases hi : i < flags.size <;> simp [Array.getD_eq_getD_getElem?, hi]
    · simp [Array.getD_eq_getD_getElem?, Array.getElem?_setIfInBounds_ne (Ne.symm hm), hm]

theorem lt_foldl_max_succ {members : List Nat} {m : Nat} (h : m ∈ members) (n : Nat) :
    m < members.foldl (fun n m => max n (m + 1)) n := by
  have hmono : ∀ (l : List Nat) (n : Nat), n ≤ l.foldl (fun n m => max n (m + 1)) n := by
    intro l
    induction l with
    | nil => exact fun n => Nat.le_refl n
    | cons k rest ih => exact fun n => Nat.le_trans (Nat.le_max_left n (k + 1)) (ih _)
  induction members generalizing n with
  | nil => cases h
  | cons k rest ih =>
    rcases List.mem_cons.1 h with rfl | h
    · exact Nat.lt_of_lt_of_le (Nat.lt_of_succ_le (Nat.le_max_right n (m + 1))) (hmono rest _)
    · exact ih h _

/-- The table has the given numbers that are not negative. -/
theorem contains_ofList {blocks : List Int64} {block : Int64} :
    (ofList blocks).contains block = true ↔ 0 ≤ block.toInt ∧ block ∈ blocks := by
  rw [contains, ofList, getD_foldl_setIfInBounds, Bool.and_eq_true, decide_eq_true_iff]
  refine and_congr_right fun hblock => ?_
  have hreplicate : ∀ n i : Nat, (Array.replicate n false).getD i false = false := by
    intro n i
    rw [Array.getD_eq_getD_getElem?, Array.getElem?_replicate]
    split <;> rfl
  have hmem : block.toInt.toNat ∈
      (blocks.filter fun b => decide (0 ≤ b.toInt)).map (fun b => b.toInt.toNat) ↔
        block ∈ blocks := by
    rw [List.mem_map]
    constructor
    · rintro ⟨b, hb, hsame⟩
      obtain ⟨hb, hpos⟩ := List.mem_filter.1 hb
      have hint : b.toInt = block.toInt := by
        have hpos := of_decide_eq_true hpos
        omega
      rwa [← Int64.toInt_inj.1 hint]
    · exact fun hb => ⟨block, List.mem_filter.2 ⟨hb, decide_eq_true hblock⟩, rfl⟩
  rw [hreplicate, Bool.false_or, decide_eq_true_iff, hmem, Array.size_replicate]
  exact and_iff_left_of_imp fun hb => lt_foldl_max_succ (hmem.2 hb) 0

end BlockSet

namespace Script

/-! ## Watched blocks -/

theorem mem_insertOnce {n m : Int64} {l : List Int64} :
    m ∈ insertOnce n l ↔ m = n ∨ m ∈ l := by
  induction l with
  | nil => exact List.mem_cons
  | cons k rest ih =>
    rw [insertOnce]
    split
    · exact List.mem_cons
    · split
      · rename_i hsame
        rw [hsame, List.mem_cons, or_self_left]
      · rw [List.mem_cons, List.mem_cons, ih, or_left_comm]

/-- The watched blocks are those that some condition compares with a block. -/
theorem mem_watchedBlocks {rules : List Rule} {n : Int64} :
    n ∈ watchedBlocks rules ↔ ∃ r ∈ rules, n ∈ r.condition.watchedBlocks := by
  have hfold : ∀ (l acc : List Int64),
      n ∈ l.foldl (fun l n => insertOnce n l) acc ↔ n ∈ acc ∨ n ∈ l := by
    intro l
    induction l with
    | nil => intro acc; simp
    | cons m rest ih =>
      intro acc
      rw [List.foldl_cons, ih, mem_insertOnce, List.mem_cons, or_assoc, or_left_comm]
  rw [watchedBlocks, hfold, List.mem_flatMap]
  exact or_iff_right List.not_mem_nil

/-- A block is watched if it is not negative and some condition compares it with a block. -/
theorem Interpreter.watches_iff {rules : List Rule} {slots : SlotTable} {block : Int64} :
    (Interpreter.ofRules rules slots).localRule.watches block = true ↔
      0 ≤ block.toInt ∧ ∃ r ∈ rules, block ∈ r.condition.watchedBlocks := by
  show (BlockSet.ofList (watchedBlocks rules)).contains block = true ↔ _
  rw [BlockSet.contains_ofList, mem_watchedBlocks]

/-! ## Verdicts -/

/-- The conjunction of two verdicts: one that fails is enough. -/
def bothVerdicts : Option Bool → Option Bool → Option Bool
  | some false, _ => some false
  | _, some false => some false
  | some true, some true => some true
  | _, _ => none

/-- The verdict on a comparison: a test of the cell's own block for a number that is not negative
    fails, and of no other comparison can anything be told. -/
def testVerdict : Expr → Expr → Option Bool
  | .channel 0, .literal n => if 0 ≤ n.toInt then some false else none
  | _, _ => none

mutual

/-- What the condition comes to at cells whose block is not watched, as far as the tests of the
    cell's own block tell. -/
def Cond.verdict : Cond → Option Bool
  | .all cs => Cond.verdictAll cs
  | .not c => c.verdict.map (!·)
  | .equal l r => testVerdict l r

def Cond.verdictAll : List Cond → Option Bool
  | [] => some true
  | c :: cs => bothVerdicts c.verdict (Cond.verdictAll cs)

end

theorem and_of_bothVerdicts {x y : Option Bool} {a b c : Bool}
    (hx : ∀ b, x = some b → a = b) (hy : ∀ b, y = some b → c = b)
    (h : bothVerdicts x y = some b) : (a && c) = b := by
  match x, y, h with
  | some false, _, h => rw [hx false rfl, ← Option.some.inj h, Bool.false_and]
  | some true, some false, h => rw [hy false rfl, ← Option.some.inj h, Bool.and_false]
  | some true, some true, h => rw [hx true rfl, hy true rfl, ← Option.some.inj h, Bool.true_and]
  | none, some false, h => rw [hy false rfl, ← Option.some.inj h, Bool.and_false]

theorem beq_of_testVerdict {l r : Expr} {v : View} {b : Bool}
    (hblock : ∀ n ∈ comparedBlock l r, 0 ≤ n.toInt → v.own 0 ≠ n)
    (h : testVerdict l r = some b) : (l.eval v == r.eval v) = b := by
  unfold testVerdict at h
  split at h
  · rename_i n
    split at h
    · rename_i hn
      rw [← Option.some.inj h]
      exact beq_eq_false_iff_ne.2 (hblock n List.mem_cons_self hn)
    · cases h
  · cases h

mutual

/-- Where no compared block is the cell's own, conditions are what their verdicts say. -/
theorem Cond.holds_of_verdict : ∀ (c : Cond) {v : View} {b : Bool},
    (∀ n ∈ c.watchedBlocks, 0 ≤ n.toInt → v.own 0 ≠ n) → c.verdict = some b → c.holds v = b
  | .all cs, _, _, hblock, h => Cond.allHold_of_verdictAll cs hblock h
  | .not c, _, b, hblock, h => by
    obtain ⟨a, ha, rfl⟩ := Option.map_eq_some_iff.1 h
    rw [Cond.holds, c.holds_of_verdict hblock ha]
  | .equal l r, _, _, hblock, h =>
    beq_of_testVerdict (fun n hn => hblock n (List.mem_append_left _ hn)) h

theorem Cond.allHold_of_verdictAll : ∀ (cs : List Cond) {v : View} {b : Bool},
    (∀ n ∈ Cond.watchedBlocksAll cs, 0 ≤ n.toInt → v.own 0 ≠ n) →
      Cond.verdictAll cs = some b → Cond.allHold cs v = b
  | [], _, _, _, h => Option.some.inj h
  | c :: cs, _, _, hblock, h =>
    and_of_bothVerdicts
      (fun _ hc => c.holds_of_verdict (fun n hn => hblock n (List.mem_append_left _ hn)) hc)
      (fun _ hcs => Cond.allHold_of_verdictAll cs
        (fun n hn => hblock n (List.mem_append_right _ hn)) hcs) h

end

/-! ## Conditions that test only the block -/

/-- The condition is put together from tests of the cell's own block for numbers that are not
    negative. -/
inductive Cond.TestsBlockOnly : Cond → Prop
  | block {n : Int64} (h : 0 ≤ n.toInt) : TestsBlockOnly (.isBlock n)
  | not {c : Cond} (h : TestsBlockOnly c) : TestsBlockOnly (.not c)
  | all {cs : List Cond} (h : ∀ c ∈ cs, TestsBlockOnly c) : TestsBlockOnly (.all cs)

theorem exists_bothVerdicts (a b : Bool) : ∃ c, bothVerdicts (some a) (some b) = some c := by
  cases a <;> cases b <;> exact ⟨_, rfl⟩

/-- Such a condition has a verdict. -/
theorem Cond.TestsBlockOnly.exists_verdict {c : Cond} (h : c.TestsBlockOnly) :
    ∃ b, c.verdict = some b := by
  induction h with
  | block hn => exact ⟨false, if_pos hn⟩
  | not _ ih =>
    obtain ⟨b, hb⟩ := ih
    exact ⟨!b, congrArg (Option.map (!·)) hb⟩
  | @all cs _ ih =>
    show ∃ b, Cond.verdictAll cs = some b
    clear * - ih
    induction cs with
    | nil => exact ⟨true, rfl⟩
    | cons c cs ihcs =>
      obtain ⟨a, ha⟩ := ih c List.mem_cons_self
      obtain ⟨b, hb⟩ := ihcs fun d hd => ih d (List.mem_cons_of_mem _ hd)
      rw [Cond.verdictAll, ha, hb]
      exact exists_bothVerdicts a b

namespace Interpreter

variable {rules : List Rule} {r : Rule}

/-- Where the own block is not watched, conditions of the rules are what their verdicts say. -/
theorem holds_of_not_watches (slots : SlotTable) (hr : r ∈ rules) {b : Bool}
    (hb : r.condition.verdict = some b) {v : View}
    (hv : (ofRules rules slots).localRule.watches (v.own 0) = false) :
    r.condition.holds v = b := by
  refine r.condition.holds_of_verdict (fun n hn hpos hown => ?_) hb
  subst hown
  have hwatches : (ofRules rules slots).localRule.watches (v.own 0) = true :=
    watches_iff.2 ⟨hpos, r, hr, hn⟩
  exact Bool.false_ne_true (hv.symm.trans hwatches)

/-- The surroundings of a cell in which every channel is -1; its block is never watched. -/
def bareView : View := ⟨fun _ _ => -1, 1⟩

theorem bareView_not_watches (rules : List Rule) (slots : SlotTable) :
    (ofRules rules slots).localRule.watches (bareView.own 0) = false := by
  refine Bool.eq_false_iff.2 fun hw => ?_
  exact absurd (watches_iff.1 hw).1 (by decide)

/-- At cells whose block is not watched, each rule with a verdict is decided by it.  A rule that
    tests nothing but the block is therefore out of play at all these cells if, and only if, its
    verdict is `some false`. -/
theorem unwatched_holds_verdict (slots : SlotTable) (hr : r ∈ rules) :
    (∀ b, r.condition.verdict = some b → ∀ v : View,
      (ofRules rules slots).localRule.watches (v.own 0) = false → r.condition.holds v = b) ∧
    (r.condition.TestsBlockOnly →
      ((∀ v : View, (ofRules rules slots).localRule.watches (v.own 0) = false →
        r.condition.holds v = false) ↔ r.condition.verdict = some false)) := by
  refine ⟨fun b hb v hv => holds_of_not_watches slots hr hb hv, fun htests => ?_⟩
  refine ⟨fun hidle => ?_, fun hb v hv => holds_of_not_watches slots hr hb hv⟩
  obtain ⟨b, hb⟩ := htests.exists_verdict
  have hunwatched := bareView_not_watches rules slots
  rwa [← holds_of_not_watches slots hr hb hunwatched, hidle bareView hunwatched] at hb

/-- Every cell but those of block 1 becomes 3. -/
def allButOne : Rule := ⟨.not (.isBlock 1), [.set 0 (.literal 3)]⟩

/-- Block 9 is not watched, and yet the rule fires there; no reading of its verdict puts it out of
    play. -/
theorem unwatched_holds_verdict_negated :
    allButOne ∈ [allButOne] ∧ allButOne.condition.TestsBlockOnly ∧
      allButOne.condition.holds ⟨fun _ _ => 9, 1⟩ = true ∧
      ¬ ∀ v : View, (ofRules [allButOne] OrderedMap.empty).localRule.watches (v.own 0) = false →
        allButOne.condition.holds v = false := by
  have hmem : allButOne ∈ [allButOne] := List.mem_singleton.2 rfl
  have htests : allButOne.condition.TestsBlockOnly := .not (.block (by decide))
  obtain ⟨hverdict, hout⟩ := unwatched_holds_verdict OrderedMap.empty hmem
  refine ⟨hmem, htests, hverdict true rfl _ (by decide), fun h => ?_⟩
  exact absurd ((hout htests).1 h) (by decide)

end Interpreter

/-! ## Tests that the watched blocks miss -/

/-- Whether the expression reads the cell's own block, outside of every count. -/
def Expr.mentionsOwnBlock : Expr → Bool
  | .channel s => s == 0
  | .sign l r => l.mentionsOwnBlock || r.mentionsOwnBlock
  | .arith l r _ => l.mentionsOwnBlock || r.mentionsOwnBlock
  | .literal _ => false
  | .neighbor _ _ => false
  | .count _ _ => false

mutual

/-- Whether the condition tests the cell's own block, outside of every count. -/
def Cond.mentionsOwnBlock : Cond → Bool
  | .all cs => Cond.anyMentionsOwnBlock cs
  | .not c => c.mentionsOwnBlock
  | .equal l r => l.mentionsOwnBlock || r.mentionsOwnBlock

def Cond.anyMentionsOwnBlock : List Cond → Bool
  | [] => false
  | c :: cs => c.mentionsOwnBlock || Cond.anyMentionsOwnBlock cs

end

/-- The condition tests the cell's own block and holds for the given one, which a rule with this
    condition does not watch. -/
def Cond.Misses (c : Cond) (block : Int64) : Prop :=
  (Interpreter.ofRules [⟨c, []⟩] OrderedMap.empty).localRule.watches block = false ∧
    c.mentionsOwnBlock = true ∧ c.holds ⟨fun _ _ => block, 1⟩ = true

instance (c : Cond) (block : Int64) : Decidable (c.Misses block) :=
  inferInstanceAs (Decidable (_ ∧ _ ∧ _))

/-- Negations, comparisons by size, literals on the left and negative numbers are all missed. -/
theorem misses_of_each_kind :
    (Cond.not (.isBlock 1)).Misses 9 ∧ (Cond.greater (.channel 0) (.literal 3)).Misses 9 ∧
      (Cond.equal (.literal 9) (.channel 0)).Misses 9 ∧ (Cond.isBlock (-5)).Misses (-5) := by
  decide

end Script

end BlockAutomata
