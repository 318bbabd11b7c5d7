/-
  JSON values, read and written.

  1. **Values.**  Of numbers only the integers are kept: nothing in this library reads a fraction.
     Objects keep their members in the order of the text, repeated keys included, because whether a
     repetition is an error is for the reader of the object to say.  For the same reason a key says
     whether it was spelled without escapes: a number as a key must be.

  2. **Reading** is strict: the grammar of the format, with nothing but blanks around the value.
     What fits the grammar but no reader of a value accepts becomes `unreadable`: a fraction, a
     number with an exponent, `-0`, a string with half of a surrogate pair, and a container that is
     nested too deep.  It does no harm where the value is skipped.

  3. **Termination.**  The reader of values carries fuel; each of its calls either takes a character
     or hands over to one that does, so twice the length of the text is enough.
-/

namespace BlockAutomata

/-- The key of a member. -/
structure Json.Key where
  name : String
  /-- whether the name was spelled without an escape -/
  plain : Bool
  deriving DecidableEq, Inhabited, Repr

instance : Coe String Json.Key := ⟨fun name => ⟨name, true⟩⟩

/-- A JSON value. -/
inductive Json where
  | null
  | bool (b : Bool)
  | int (n : Int)
  | str (s : String)
  | arr (items : List Json)
  | obj (members : List (Json.Key × Json))
  /-- fits the grammar, but holds nothing that any reader accepts -/
  | unreadable
  deriving Inhabited, Repr

namespace Json

/-! ## Reading -/

/-- The four blanks of the grammar. -/
def isBlank (c : Char) : Bool := c == ' ' || c == '\n' || c == '\t' || c == '\r'

/-- The text without the blanks in front. -/
def skipBlank (cs : List Char) : List Char := cs.dropWhile isBlank

/-- The value of a hexadecimal digit. -/
def hexDigit? (c : Char) : Option Nat :=
  if '0' ≤ c ∧ c ≤ '9' then some (c.toNat - '0'.toNat)
  else if 'a' ≤ c ∧ c ≤ 'f' then some (c.toNat - 'a'.toNat + 10)
  else if 'A' ≤ c ∧ c ≤ 'F' then some (c.toNat - 'A'.toNat + 10)
  else none

/-- The number that four hexadecimal digits spell. -/
def hex4? (a b c d : Char) : Option Nat := do
  let a ← hexDigit? a
  let b ← hexDigit? b
  let c ← hexDigit? c
  let d ← hexDigit? d
  return ((a * 16 + b) * 16 + c) * 16 + d

/-- A piece of a string: a character, or a 16-bit unit spelled by its number. -/
inductive Piece where
  | char (c : Char)
  | unit (n : Nat)

/-- The character that a short escape stands for. -/
def shortEscape? : Char → Option Char
  | '"' => some '"'
  | '\\' => some '\\'
  | '/' => some '/'
  | 'b' => some '\x08'
  | 'f' => some '\x0c'
  | 'n' => some '\n'
  | 'r' => some '\r'
  | 't' => some '\t'
  | _ => none

/-- The pieces of a string up to the closing quote, and the text after it.  The pieces met so far
    stand in reverse. -/
def pieces (met : List Piece) : List Char → Option (List Piece × List Char)
  | [] => none
  | '"' :: rest => some (met.reverse, rest)
  | '\\' :: 'u' :: a :: b :: c :: d :: rest =>
    match hex4? a b c d with
    | none => none
    | some n => pieces (.unit n :: met) rest
  | '\\' :: c :: rest =>
    match shortEscape? c with
    | none => none
    | some e => pieces (.char e :: met) rest
  | c :: rest => if c.toNat < 32 then none else pieces (.char c :: met) rest

/-- Put the units together; half of a surrogate pair gives nothing.  The characters so far stand in
    reverse. -/
def joinPieces (met : List Char) : List Piece → Option String
  | [] => some (String.ofList met.reverse)
  | .char c :: rest => joinPieces (c :: met) rest
  | .unit hi :: .unit lo :: rest =>
    if 0xD800 ≤ hi ∧ hi < 0xDC00 then
      if 0xDC00 ≤ lo ∧ lo < 0xE000 then
        joinPieces (Char.ofNat (0x10000 + (hi - 0xD800) * 0x400 + (lo - 0xDC00)) :: met) rest
      else none
    else if 0xDC00 ≤ hi ∧ hi < 0xE000 then none
    else joinPieces (Char.ofNat hi :: met) (.unit lo :: rest)
  | .unit n :: rest =>
    if 0xD800 ≤ n ∧ n < 0xE000 then none else joinPieces (Char.ofNat n :: met) rest

/-- A string after its opening quote. -/
def string? (cs : List Char) : Option (Option String × List Char) :=
  (pieces [] cs).map fun p => (joinPieces [] p.1, p.2)

/-- Whether a string, after its opening quote, is spelled without an escape.  A quote behind an
    escape stands behind a backslash, so it is enough to look as far as the first quote. -/
def isPlain (cs : List Char) : Bool := (cs.takeWhile (· ≠ '"')).all (· ≠ '\\')

/-- The number that a row of decimal digits spells. -/
def decimal (digits : List Char) : Nat :=
  digits.foldl (fun n c => n * 10 + (c.toNat - '0'.toNat)) 0

private def splitDigits (cs : List Char) : List Char × List Char := cs.span Char.isDigit

/-- At least one digit after a mark that has been taken. -/
def someDigits? (cs : List Char) : Option (List Char) :=
  match splitDigits cs with
  | ([], _) => none
  | (_, rest) => some rest

/-- The exponent, if there is one: whether it is there, and the text after it. -/
def exponent? : List Char → Option (Bool × List Char)
  | 'e' :: '+' :: rest | 'e' :: '-' :: rest | 'E' :: '+' :: rest | 'E' :: '-' :: rest
  | 'e' :: rest | 'E' :: rest => (someDigits? rest).map (true, ·)
  | rest => some (false, rest)

/-- Fraction and exponent, if they are there: whether any is there, and the text after them. -/
def fraction? : List Char → Option (Bool × List Char)
  | '.' :: rest => do
    let rest ← someDigits? rest
    let (_, rest) ← exponent? rest
    return (true, rest)
  | rest => exponent? rest

/-- A number after its sign. -/
def unsigned? (negative : Bool) (cs : List Char) : Option (Json × List Char) :=
  match splitDigits cs with
  | ([], _) => none
  | ('0' :: _ :: _, _) => none
  | (digits, rest) => do
    let (broken, rest) ← fraction? rest
    let n := decimal digits
    if broken then return (.unreadable, rest)
    else if negative then return (if n = 0 then .unreadable else .int (-(n : Int)), rest)
    else return (.int n, rest)

/-- A number. -/
def number? : List Char → Option (Json × List Char)
  | '-' :: rest => unsigned? true rest
  | cs => unsigned? false cs

/-- A finished container: unreadable when it is nested deeper than the limit. -/
def boxed (tooDeep : Bool) (v : Json) : Json := if tooDeep then .unreadable else v

/-- An object; with an unreadable key nobody can read it. -/
def ofMembers (members : List (Option Key × Json)) : Json :=
  match members.mapM fun m => m.1.map fun k => (k, m.2) with
  | some ms => .obj ms
  | none => .unreadable

mutual

/-- One value, inside `depth` containers. -/
def value? (limit : Option Nat) : Nat → Nat → List Char → Option (Json × List Char)
  | 0, _, _ => none
  | fuel + 1, depth, cs =>
    let tooDeep := match limit with
      | none => false
      | some limit => decide (limit ≤ depth + 1)
    match skipBlank cs with
    | 'n' :: 'u' :: 'l' :: 'l' :: rest => some (.null, rest)
    | 't' :: 'r' :: 'u' :: 'e' :: rest => some (.bool true, rest)
    | 'f' :: 'a' :: 'l' :: 's' :: 'e' :: rest => some (.bool false, rest)
    | '"' :: rest => (string? rest).map fun r => (match r.1 with
      | some s => .str s
      | none => .unreadable, r.2)
    | '[' :: rest =>
      match skipBlank rest with
      | ']' :: rest => some (boxed tooDeep (.arr []), rest)
      | rest => (items? limit fuel (depth + 1) rest).map fun r =>
          (boxed tooDeep (.arr r.1), r.2)
    | '\x7b' :: rest =>
      match skipBlank rest with
      | '\x7d' :: rest => some (boxed tooDeep (.obj []), rest)
      | rest => (members? limit fuel (depth + 1) rest).map fun r =>
          (boxed tooDeep (ofMembers r.1), r.2)
    | cs => number? cs

/-- The items of an array up to its end. -/
def items? (limit : Option Nat) : Nat → Nat → List Char → Option (List Json × List Char)
  | 0, _, _ => none
  | fuel + 1, depth, cs =>
    match value? limit fuel depth cs with
    | none => none
    | some (v, rest) =>
      match skipBlank rest with
      | ']' :: rest => some ([v], rest)
      | ',' :: rest => (items? limit fuel depth rest).map fun r => (v :: r.1, r.2)
      | _ => none

/-- The members of an object up to its end. -/
def members? (limit : Option Nat) :
    Nat → Nat → List Char → Option (List (Option Key × Json) × List Char)
  | 0, _, _ => none
  | fuel + 1, depth, cs =>
    match skipBlank cs with
    | '"' :: spelled =>
      match string? spelled with
      | none => none
      | some (name, rest) =>
        let key := name.map fun n => Key.mk n (isPlain spelled)
        match skipBlank rest with
        | ':' :: rest =>
          match value? limit fuel depth rest with
          | none => none
          | some (v, rest) =>
            match skipBlank rest with
            | '\x7d' :: rest => some ([(key, v)], rest)
            | ',' :: rest => (members? limit fuel depth rest).map fun r => ((key, v) :: r.1, r.2)
            | _ => none
        | _ => none
    | _ => none

end

/-- Read a whole text as one value.  A container inside `limit - 1` others is unreadable. -/
def readWith (limit : Option Nat) (text : String) : Option Json :=
  let cs := text.toList
  match value? limit (2 * cs.length + 2) 0 cs with
  | some (v, rest) => if (skipBlank rest).isEmpty then some v else none
  | none => none

/-- Documents are read down to 127 nested containers. -/
def read (text : String) : Option Json := readWith (some 128) text

/-! ## Writing -/

private def hexChar (n : Nat) : Char := Char.ofNat (if n < 10 then 48 + n else 87 + n)

/-- How a character is written inside a string. -/
def writeChar (acc : String) (c : Char) : String :=
  if c = '"' then acc ++ "\\\""
  else if c = '\\' then acc ++ "\\\\"
  else if c.toNat < 32 then
    ((acc ++ "\\u00").push (hexChar (c.toNat / 16))).push (hexChar (c.toNat % 16))
  else acc.push c

/-- A string with its quotes. -/
def writeString (acc : String) (s : String) : String :=
  (s.toList.foldl writeChar (acc.push '"')).push '"'

mutual

/-- The value behind what is already written. -/
def write (acc : String) : Json → String
  | .null => acc ++ "null"
  | .unreadable => acc ++ "null"
  | .bool b => acc ++ (if b then "true" else "false")
  | .int n => acc ++ toString n
  | .str s => writeString acc s
  | .arr items => (writeItems (acc.push '[') true items).push ']'
  | .obj members => (writeMembers (acc.push '\x7b') true members).push '\x7d'

/-- The items of an array, separated by commas. -/
def writeItems (acc : String) (first : Bool) : List Json → String
  | [] => acc
  | v :: rest => writeItems (write (if first then acc else acc.push ',') v) false rest

/-- The members of an object, separated by commas. -/
def writeMembers (acc : String) (first : Bool) : List (Key × Json) → String
  | [] => acc
  | (k, v) :: rest =>
    writeMembers (write ((writeString (if first then acc else acc.push ',') k.name).push ':') v)
      false rest

end

/-- The value as text. -/
def text (v : Json) : String := write "" v

end Json

end BlockAutomata
