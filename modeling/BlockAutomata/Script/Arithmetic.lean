/-
  The arithmetic of rules, on words of 64 and of 32 bits.

  All operators wrap.  Division truncates towards zero; dividing by zero gives the dividend, and the
  remainder by zero is zero.  Rules that run directly compute with 64 bits, kernels with 32.
-/

namespace BlockAutomata.Script

/-- The arithmetic operators. -/
inductive Operator where
  | add
  | sub
  | mul
  | div
  | rem
  deriving DecidableEq, Repr, Inhabited

namespace Operator

/-- How an operator is written. -/
def symbol : Operator → String
  | add => "+"
  | sub => "-"
  | mul => "*"
  | div => "/"
  | rem => "%"

/-- The operator on 64-bit words. -/
def on64 : Operator → Int64 → Int64 → Int64
  | add, l, r => l + r
  | sub, l, r => l - r
  | mul, l, r => l * r
  | div, l, r => if r = 0 then l else l / r
  | rem, l, r => if r = 0 then 0 else l % r

/-- The operator on 32-bit words. -/
def on32 : Operator → Int32 → Int32 → Int32
  | add, l, r => l + r
  | sub, l, r => l - r
  | mul, l, r => l * r
  | div, l, r => if r = 0 then l else l / r
  | rem, l, r => if r = 0 then 0 else l % r

end Operator

/-- The sign of the difference of two 64-bit words, which itself need not fit. -/
def sign64 (l r : Int64) : Int64 := if l < r then -1 else if l = r then 0 else 1

/-- The sign of the difference of two 32-bit words, which itself need not fit. -/
def sign32 (l r : Int32) : Int32 := if l < r then -1 else if l = r then 0 else 1

end BlockAutomata.Script
