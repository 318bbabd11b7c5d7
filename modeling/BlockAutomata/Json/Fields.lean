/-
  Reading typed data out of JSON values.

  1. **Records** are written as objects.  Unknown members are ignored; a known member that occurs
     twice is an error.  A record may also be written as the array of its fields in order, and then
     the array may only end early where the remaining fields have a fallback.

  2. **Fields** are required, optional (missing means absent, as `null` does) or have a fallback.

  3. **Choices** are written as an object with the name of the alternative as its only key.  An
     alternative without contents may be written as its bare name.

  4. **Integers** must lie in the range of the type that is read.
-/
import BlockAutomata.Json.Value

namespace BlockAutomata.Json

/-! ## Plain values -/

/-- An integer between the bounds. -/
def intIn? (low high : Int) : Json → Option Int
  | .int n => if low ≤ n ∧ n ≤ high then some n else none
  | _ => none

/-- A signed 32-bit integer. -/
def int32? (j : Json) : Option Int32 := (intIn? (-0x80000000) 0x7fffffff j).map Int32.ofInt

/-- A signed 64-bit integer. -/
def int64? (j : Json) : Option Int64 :=
  (intIn? (-0x8000000000000000) 0x7fffffffffffffff j).map Int64.ofInt

/-- An unsigned 32-bit integer. -/
def nat32? (j : Json) : Option Nat := (intIn? 0 0xffffffff j).map Int.toNat

/-- An unsigned 64-bit integer. -/
def nat64? (j : Json) : Option Nat := (intIn? 0 0xffffffffffffffff j).map Int.toNat

/-- A truth value. -/
def bool? : Json → Option Bool
  | .bool b => some b
  | _ => none

/-- A string. -/
def str? : Json → Option String
  | .str s => some s
  | _ => none

/-- An array of any length. -/
def items : Json → Option (List Json)
  | .arr js => some js
  | _ => none

/-- An array whose items all read. -/
def list? {α : Type} (f : Json → Option α) (j : Json) : Option (List α) := do
  (← j.items).mapM f

/-- The members of an object in order. -/
def members : Json → Option (List (Key × Json))
  | .obj ms => some ms
  | _ => none

/-- A value that may be `null`. -/
def orNull? {α : Type} (f : Json → Option α) : Json → Option (Option α)
  | .null => some none
  | j => (f j).map some

/-! ## Records -/

/-- What a record says about one of its fields. -/
inductive Field where
  | given (value : Json)
  /-- the object has no member of this name -/
  | absent
  /-- the array ends before this field -/
  | cut

/-- The member called `name`; an error when there are two. -/
def member? (ms : List (Key × Json)) (name : String) : Option Field :=
  match ms.filter fun m => m.1.name = name with
  | [] => some .absent
  | [m] => some (.given m.2)
  | _ => none

/-- The first fields in order from the items of an array, which must not have more. -/
def positional : List String → List Json → Option (List Field)
  | [], [] => some []
  | [], _ :: _ => none
  | _ :: names, [] => (positional names []).map (.cut :: ·)
  | _ :: names, j :: js => (positional names js).map (.given j :: ·)

/-- The fields of a record in the order of their names. -/
def record? (names : List String) : Json → Option (List Field)
  | .obj ms => names.mapM (member? ms)
  | .arr js => positional names js
  | _ => none

/-- A field that must be there. -/
def Field.required {α : Type} (f : Json → Option α) : Field → Option α
  | .given j => f j
  | _ => none

/-- A field that may be missing or `null`. -/
def Field.optional {α : Type} (f : Json → Option α) : Field → Option (Option α)
  | .given j => orNull? f j
  | .absent => some none
  | .cut => none

/-- A field with a fallback. -/
def Field.orElse {α : Type} (f : Json → Option α) (fallback : α) : Field → Option α
  | .given j => f j
  | _ => some fallback

/-! ## Choices -/

/-- The name of an alternative and its contents, if any are written. -/
def alternative? : Json → Option (String × Option Json)
  | .str name => some (name, none)
  | .obj [(key, contents)] => some (key.name, some contents)
  | _ => none

/-- Whether nothing is written as contents. -/
def isUnit : Option Json → Bool
  | none | some .null => true
  | _ => false

/-! ## Building values -/

/-- A natural number. -/
def nat (n : Nat) : Json := .int n

/-- A 64-bit integer. -/
def int64 (n : Int64) : Json := .int n.toInt

/-- A 32-bit integer. -/
def int32 (n : Int32) : Json := .int n.toInt

/-- The value, or `null` when there is none. -/
def ofOption {α : Type} (f : α → Json) : Option α → Json
  | none => .null
  | some a => f a

/-- The array of the values. -/
def ofList {α : Type} (f : α → Json) (l : List α) : Json := .arr (l.map f)

/-- An alternative with contents. -/
def ofAlternative (name : String) (contents : Json) : Json := .obj [(name, contents)]

end BlockAutomata.Json
