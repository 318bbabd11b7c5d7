/-
  From rules to kernel code.

  1. Only rules about the block channel can be lowered.  Other channels, events, offsets outside the
     window and literals of more than 32 bits are refused at the place where they are met, in the
     order condition, then effects.

  2. Names of loops come from a counter that only goes up, also when a rule is refused afterwards.
     A loop gets its name after its own offsets have been looked up and before its test is lowered.

  3. Lowering an expression gives the loops it needs and the term that replaces it.  The loops of a
     rule are those of its condition and of its effects, in order.
-/
import BlockAutomata.Kernel.Code

namespace BlockAutomata.Kernel

open Script (Expr Cond Effect Rule)

/-- Why rules cannot be lowered. -/
inductive Refusal where
  /-- a channel other than the block -/
  | channel
  | event
  | outsideWindow (offset : Offset) (radius : Nat)
  | literalTooWide (value : Int64)
  deriving DecidableEq, Repr

/-- The wording of each refusal. -/
def Refusal.message : Refusal → String
  | channel => "kernel backend does not support auxiliary state channels"
  | event => "kernel backend does not support events"
  | outsideWindow offset radius =>
    "offset " ++ offset.text ++ " lies outside the kernel window of radius " ++ toString radius
  | literalTooWide n =>
    "literal " ++ toString n.toInt ++ " does not fit in a 32-bit kernel integer"

/-- Lowering hands out names and may refuse. -/
abbrev Lowering (α : Type) := ExceptT Refusal (StateM Nat) α

namespace Lowering

/-- A name that has not been used. -/
def fresh : Lowering Nat := do
  let id ← get
  set (id + 1)
  return id

/-- An offset of the window. -/
def inWindow (radius : Nat) (o : Offset) : Lowering Offset :=
  if radius < o.norm then throw (.outsideWindow o radius) else return o

/-- The place of an offset in the list of window offsets. -/
def placeOf (radius : Nat) (o : Offset) : Lowering Nat :=
  match (windowOffsets radius).idxOf? o with
  | some i => return i
  | none => throw (.outsideWindow o radius)

/-- A literal of 32 bits. -/
def word (n : Int64) : Lowering Int32 :=
  if -0x80000000 ≤ n.toInt ∧ n.toInt < 0x80000000 then return n.toInt32
  else throw (.literalTooWide n)

mutual

/-- Lower an expression that is read from `anchor`. -/
def expr (radius : Nat) (anchor : Anchor) : Expr → Lowering (List Loop × Term)
  | .literal n => do return ([], .word (← word n))
  | .channel 0 => return ([], .block anchor Offset.zero)
  | .channel (_ + 1) => throw .channel
  | .neighbor o 0 => do return ([], .block anchor (← inWindow radius o))
  | .neighbor _ (_ + 1) => throw .channel
  | .count os c => do
    let indices ← os.mapM (placeOf radius)
    let id ← fresh
    let (body, test) ← cond radius (.loop id) c
    return ([.mk id anchor indices body test], .result id)
  | .sign l r => do
    let (before, left) ← expr radius anchor l
    let (after, right) ← expr radius anchor r
    return (before ++ after, .sign left right)
  | .arith l r op => do
    let (before, left) ← expr radius anchor l
    let (after, right) ← expr radius anchor r
    return (before ++ after, .arith op left right)

/-- Lower a condition that is read from `anchor`. -/
def cond (radius : Nat) (anchor : Anchor) : Cond → Lowering (List Loop × Test)
  | .all cs => do
    let (loops, tests) ← conds radius anchor cs
    return (loops, .all tests)
  | .not c => do
    let (loops, test) ← cond radius anchor c
    return (loops, .not test)
  | .equal l r => do
    let (before, left) ← expr radius anchor l
    let (after, right) ← expr radius anchor r
    return (before ++ after, .eq left right)

/-- Lower conditions one after the other. -/
def conds (radius : Nat) (anchor : Anchor) : List Cond → Lowering (List Loop × List Test)
  | [] => return ([], [])
  | c :: cs => do
    let (before, test) ← cond radius anchor c
    let (after, tests) ← conds radius anchor cs
    return (before ++ after, test :: tests)

end

/-- Lower one effect to the value that it assigns. -/
def effect (radius : Nat) : Effect → Lowering (List Loop × Term)
  | .set 0 e => expr radius .center e
  | .set (_ + 1) _ => throw .channel
  | .copy o => do return ([], .block .center (← inWindow radius o))
  | .raise _ _ => throw .event

/-- Lower effects one after the other. -/
def effects (radius : Nat) : List Effect → Lowering (List Loop × List Term)
  | [] => return ([], [])
  | e :: es => do
    let (before, value) ← effect radius e
    let (after, values) ← effects radius es
    return (before ++ after, value :: values)

/-- Lower a rule. -/
def rule (radius : Nat) (r : Rule) : Lowering Code := do
  let (before, test) ← cond radius .center r.condition
  let (after, values) ← effects radius r.effects
  return ⟨before ++ after, test, values⟩

end Lowering

end BlockAutomata.Kernel
