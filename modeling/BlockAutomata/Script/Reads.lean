/-
  What rules read and write.

  1. `subterms` lists every expression inside an expression or a condition, each before the ones
     that it contains.  Statements about what rules refer to are statements about these lists.

  2. The channels that rules need reach up to the highest slot that they read or write.

  3. The watched blocks are the literals that some condition compares with a block, its own cell's
     or a neighbour's.  A cell whose block is not among them fails each of these comparisons with
     its own block; a condition that negates one of them may still hold.
-/
import BlockAutomata.Script.Rule

namespace BlockAutomata.Script

/-! ## Subterms -/

mutual

/-- The expression and every expression inside it, outermost first. -/
def Expr.subterms : Expr → List Expr
  | .literal n => [.literal n]
  | .channel s => [.channel s]
  | .neighbor o s => [.neighbor o s]
  | .count os c => .count os c :: c.subterms
  | .sign l r => .sign l r :: (l.subterms ++ r.subterms)
  | .arith l r op => .arith l r op :: (l.subterms ++ r.subterms)

/-- Every expression inside the condition, outermost first. -/
def Cond.subterms : Cond → List Expr
  | .all cs => Cond.subtermsAll cs
  | .not c => c.subterms
  | .equal l r => l.subterms ++ r.subterms

/-- Every expression inside the conditions. -/
def Cond.subtermsAll : List Cond → List Expr
  | [] => []
  | c :: cs => c.subterms ++ Cond.subtermsAll cs

end

/-- Every expression inside the effect. -/
def Effect.subterms : Effect → List Expr
  | .set _ e => e.subterms
  | .copy _ => []
  | .raise _ none => []
  | .raise _ (some e) => e.subterms

/-- Every expression inside the rule: the condition first, then the effects in order. -/
def Rule.subterms (r : Rule) : List Expr :=
  r.condition.subterms ++ r.effects.flatMap Effect.subterms

/-! ## Slots -/

/-- The slot that the expression itself reads. -/
def Expr.slot? : Expr → Option Nat
  | .channel s => some s
  | .neighbor _ s => some s
  | _ => none

/-- The slot that the effect writes by name. -/
def Effect.slot? : Effect → Option Nat
  | .set s _ => some s
  | _ => none

/-- Every slot that the rule refers to. -/
def Rule.slots (r : Rule) : List Nat :=
  r.subterms.filterMap Expr.slot? ++ r.effects.filterMap Effect.slot?

/-- The number of channels that the rules need: one more than the highest slot, slot 0 always being
    there. -/
def channelsNeeded (rules : List Rule) : Nat := (rules.flatMap Rule.slots).foldl max 0 + 1

/-! ## Watched blocks -/

/-- Whether the expression reads a block, of the cell or of a neighbour. -/
def Expr.readsBlock : Expr → Bool
  | .channel 0 => true
  | .neighbor _ 0 => true
  | _ => false

/-- The literal that a comparison compares a block with. -/
def comparedBlock : Expr → Expr → List Int64
  | left, .literal n => if left.readsBlock then [n] else []
  | _, _ => []

mutual

/-- The literals that conditions inside the expression compare with a block. -/
def Expr.watchedBlocks : Expr → List Int64
  | .count _ c => c.watchedBlocks
  | .sign l r => l.watchedBlocks ++ r.watchedBlocks
  | .arith l r _ => l.watchedBlocks ++ r.watchedBlocks
  | .literal _ => []
  | .channel _ => []
  | .neighbor _ _ => []

/-- The literals that the condition compares with a block, on the right of the comparison. -/
def Cond.watchedBlocks : Cond → List Int64
  | .all cs => Cond.watchedBlocksAll cs
  | .not c => c.watchedBlocks
  | .equal l r => comparedBlock l r ++ (l.watchedBlocks ++ r.watchedBlocks)

/-- The literals that some of the conditions compare with a block. -/
def Cond.watchedBlocksAll : List Cond → List Int64
  | [] => []
  | c :: cs => c.watchedBlocks ++ Cond.watchedBlocksAll cs

end

/-- Put a number into an ascending list, once. -/
def insertOnce (n : Int64) : List Int64 → List Int64
  | [] => [n]
  | m :: rest =>
    if n < m then n :: m :: rest
    else if n = m then m :: rest
    else m :: insertOnce n rest

/-- The watched blocks of the rules in ascending order. -/
def watchedBlocks (rules : List Rule) : List Int64 :=
  (rules.flatMap fun r => r.condition.watchedBlocks).foldl (fun l n => insertOnce n l) []

end BlockAutomata.Script
