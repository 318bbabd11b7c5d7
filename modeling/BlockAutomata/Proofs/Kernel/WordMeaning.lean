/-
  What rules mean in 32-bit words.

  1. The block channel around a cell is a function from displacements to words; seen from a
     neighbour it is the same function, read at displaced arguments.  There is nothing else that a
     word-valued rule can look at.

  2. `Expr.word` and `Cond.holdsWord` evaluate rule trees directly over such a function.  Counting
     neighbours recentres the function on each of them, so nested counts compose.

  3. A rule whose condition holds replaces the block by the last value that its effects write to
     slot 0.  Rules are taken in order, and all of them read the same function.

  4. A flattened window gives such a function: the entry at the place at which the displacement is
     listed, cut down to 32 bits, and 0 where it is not listed or where the entry is missing.
-/
import BlockAutomata.Kernel.Code
import BlockAutomata.View

namespace BlockAutomata

/-! ## Blocks as words -/

/-- The blocks around a cell, as words. -/
abbrev WordBlocks := Offset → Int32

/-- The same blocks seen from the cell at `o`. -/
def WordBlocks.recentre (f : WordBlocks) (o : Offset) : WordBlocks := fun d => f (o + d)

/-- The blocks that a flattened window holds, its entries standing in the order in which the
    displacements are listed. -/
def WordBlocks.ofWindow (radius : Nat) (window : List Int64) : WordBlocks := fun o =>
  match (Kernel.windowOffsets radius).idxOf? o with
  | some i => (window[i]?.getD 0).toInt32
  | none => 0

theorem Offset.zero_add (o : Offset) : Offset.zero + o = o := by
  rw [Offset.add_def]
  simp [Offset.zero]

theorem Offset.add_assoc (o p q : Offset) : o + p + q = o + (p + q) := by
  simp only [Offset.add_def, Int32.add_assoc]

theorem WordBlocks.recentre_zero (f : WordBlocks) : f.recentre Offset.zero = f := by
  funext d
  rw [recentre, Offset.zero_add]

theorem WordBlocks.recentre_recentre (f : WordBlocks) (o p : Offset) :
    (f.recentre o).recentre p = f.recentre (o + p) := by
  funext d
  simp only [recentre, Offset.add_assoc]

namespace Script

/-! ## Expressions and conditions -/

mutual

/-- The value of the expression in words.  Only the block channel exists; every other one reads
    0. -/
def Expr.word : Expr → WordBlocks → Int32
  | .literal n, _ => n.toInt32
  | .channel s, f => if s = 0 then f Offset.zero else 0
  | .neighbor o s, f => if s = 0 then f o else 0
  | .count os c, f => Int32.ofNat (os.countP fun o => c.holdsWord (f.recentre o))
  | .sign l r, f => sign32 (l.word f) (r.word f)
  | .arith l r op, f => op.on32 (l.word f) (r.word f)

/-- Whether the condition holds in words. -/
def Cond.holdsWord : Cond → WordBlocks → Bool
  | .all cs, f => Cond.allHoldWord cs f
  | .not c, f => !c.holdsWord f
  | .equal l r, f => l.word f == r.word f

/-- Whether all conditions hold in words. -/
def Cond.allHoldWord : List Cond → WordBlocks → Bool
  | [], _ => true
  | c :: cs, f => c.holdsWord f && Cond.allHoldWord cs f

end

/-! ## Rules -/

/-- The block that the effect writes, if it writes one. -/
def Effect.word? : Effect → WordBlocks → Option Int32
  | .set s e, f => if s = 0 then some (e.word f) else none
  | .copy o, f => some (f o)
  | .raise _ _, _ => none

/-- The block after the rule, where it was `current` before. -/
def Rule.wordAfter (f : WordBlocks) (current : Int32) (r : Rule) : Int32 :=
  if r.condition.holdsWord f then
    ((r.effects.filterMap fun e => e.word? f).getLast?).getD current
  else current

/-- The block after all rules, each in turn, starting from the centre. -/
def wordAfterRules (rules : List Rule) (f : WordBlocks) : Int32 :=
  rules.foldl (Rule.wordAfter f) (f Offset.zero)

end Script

end BlockAutomata
