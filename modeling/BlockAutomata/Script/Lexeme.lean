/-
  From a line of text to tokens.

  1. **Lexemes.**  At each place of the line the longest lexeme is taken: a blank, a comment up to
     the end of the line, or a token.  `munch` says which one begins at a given character and how
     many further characters belong to it, so the rest of the line is a proper tail and scanning
     ends.  Columns count UTF-8 bytes from 1.

  2. **Numbers** are magnitudes at first.  A magnitude above 2^63 is an error on the spot.

  3. **Signs.**  A minus directly in front of a number belongs to the number, unless the minus
     follows an operand.  So `a-1` is a subtraction and `a=-1` reads a negative number.  The
     magnitude 2^63 is only good with such a sign.  Signs are settled once the whole line has been
     cut into lexemes, so any other error of the line comes first.
-/
import BlockAutomata.Script.Token

namespace BlockAutomata.Script

/-- What can be wrong with the spelling of a line. -/
inductive SpellingError where
  | strayCharacter (character : Char) (column : Nat)
  | openOffset (column : Nat)
  | openConstant (column : Nat)
  | numberTooLarge (digits : String) (column : Nat)
  deriving DecidableEq, Repr

namespace SpellingError

/-- The byte column where the fault begins. -/
def column : SpellingError → Nat
  | strayCharacter _ n | openOffset n | openConstant n | numberTooLarge _ n => n

/-- The wording of each error. -/
def message (e : SpellingError) : String :=
  let what := match e with
    | strayCharacter c _ => "unexpected character '" ++ c.toString ++ "'"
    | openOffset _ => "unterminated offset literal"
    | openConstant _ => "unterminated constant"
    | numberTooLarge digits _ => "number '" ++ digits ++ "' out of range"
  what ++ " at column " ++ toString e.column

end SpellingError

/-! ## Lexemes -/

/-- A token whose sign is not settled yet. -/
inductive Lexeme where
  | token (t : Token)
  /-- an unsigned number, at most 2^63, by its digits -/
  | digits (ds : List Char)
  deriving DecidableEq, Repr

/-- A lexeme between two byte positions of the line. -/
structure Placed where
  lexeme : Lexeme
  start : Nat
  stop : Nat
  deriving DecidableEq, Repr

/-- What begins at a character, with the number of further characters that belong to it. -/
inductive Munch where
  | skip (more : Nat)
  | take (lexeme : Lexeme) (more : Nat)
  /-- an error, given the column where the lexeme begins -/
  | fault (error : Nat → SpellingError)

/-- Blanks separate lexemes. -/
def isBlank (c : Char) : Bool := c == ' ' || c == '\t' || c == '\r' || c == '\n' || c == '\x0c'

/-- The number that a row of decimal digits spells. -/
def magnitude (ds : List Char) : Nat :=
  ds.foldl (fun n c => n * 10 + (c.toNat - '0'.toNat)) 0

/-- Digits at the front, at least one. -/
def digits? (cs : List Char) : Option (List Char × List Char) :=
  match cs.takeWhile Char.isDigit with
  | [] => none
  | ds => some (ds, cs.dropWhile Char.isDigit)

/-- The blanks that an offset may contain. -/
def skipSpaces (cs : List Char) : List Char := cs.dropWhile fun c => c == ' ' || c == '\t'

/-- A coordinate between blanks, and the text after it. -/
def coordinate? (cs : List Char) : Option (Int × List Char) := do
  let (negative, cs) := match skipSpaces cs with
    | '-' :: rest => (true, rest)
    | rest => (false, rest)
  let (ds, rest) ← digits? cs
  let n : Int := magnitude ds
  return (if negative then -n else n, skipSpaces rest)

/-- A coordinate of 32 bits. -/
def int32? (n : Int) : Option Int32 :=
  if -0x80000000 ≤ n ∧ n < 0x80000000 then some (Int32.ofInt n) else none

/-- An offset after its opening brace, and the text after it. -/
def offset? (cs : List Char) : Option (Offset × List Char) := do
  let (x, ',' :: cs) ← coordinate? cs | none
  let (y, ',' :: cs) ← coordinate? cs | none
  let (z, '\x7d' :: cs) ← coordinate? cs | none
  return (⟨← int32? x, ← int32? y, ← int32? z⟩, cs)

/-- The token that a single character stands for. -/
def single? : Char → Option Token
  | '@' => some .atSign
  | '$' => some .dollar
  | '~' => some .tilde
  | '&' => some .and
  | '!' => some .exclamation
  | ',' => some .comma
  | '|' => some .separator
  | '[' => some .leftBracket
  | ']' => some .rightBracket
  | ':' => some .colon
  | '=' => some .equals
  | '+' => some .plus
  | '-' => some .minus
  | '*' => some .star
  | '/' => some .slash
  | '%' => some .percent
  | '>' => some .greaterThan
  | '<' => some .lessThan
  | _ => none

/-- A single-character token, or an error. -/
def munchSingle (c : Char) : Munch :=
  match single? c with
  | some t => .take (.token t) 0
  | none => .fault (.strayCharacter c)

/-- The longest lexeme that begins with `c` before `rest`. -/
def munch (c : Char) (rest : List Char) : Munch :=
  if isBlank c then .skip 0
  else if Token.startsName c then
    let tail := rest.takeWhile Token.continuesName
    .take (.token (.identifier (String.ofList (c :: tail)))) tail.length
  else if c.isDigit then
    let tail := rest.takeWhile Char.isDigit
    if magnitude (c :: tail) ≤ 0x8000000000000000 then .take (.digits (c :: tail)) tail.length
    else .fault (.numberTooLarge (String.ofList (c :: tail)))
  else
    match c, rest with
    | '/', '/' :: _ => .skip (rest.takeWhile (· ≠ '\n')).length
    | '-', '>' :: _ => .take (.token .arrow) 1
    | '#', first :: _ =>
      if Token.startsName first then
        let name := rest.takeWhile Token.continuesConstant
        .take (.token (.constant (String.ofList name))) name.length
      else .fault (.strayCharacter c)
    | '"', _ =>
      let name := rest.takeWhile fun d => d ≠ '"' && d ≠ '\n'
      match rest.drop name.length with
      | '"' :: _ => .take (.token (.constant (String.ofList name))) (name.length + 1)
      | _ => .fault .openConstant
    | '\x7b', _ =>
      match offset? rest with
      | some (o, after) => .take (.token (.offset o)) (rest.length - after.length)
      | none => .fault .openOffset
    | _, _ => munchSingle c

/-- UTF-8 bytes of the characters. -/
def byteLength (cs : List Char) : Nat := cs.foldr (fun c n => c.utf8Size + n) 0

/-- Cut the text, which begins at byte `start`, into lexemes. -/
def lexemes (start : Nat) : List Char → Except SpellingError (List Placed)
  | [] => .ok []
  | c :: rest =>
    match munch c rest with
    | .skip more =>
      lexemes (start + byteLength (c :: rest.take more)) (rest.drop more)
    | .take lexeme more =>
      let stop := start + byteLength (c :: rest.take more)
      (lexemes stop (rest.drop more)).map (⟨lexeme, start, stop⟩ :: ·)
    | .fault error => .error (error (start + 1))
termination_by cs => cs.length
decreasing_by all_goals simp only [List.length_drop, List.length_cons]; omega

/-! ## Signs -/

/-- A number that no minus belongs to. -/
def unsigned (ds : List Char) (start : Nat) : Except SpellingError Token :=
  if magnitude ds < 0x8000000000000000 then .ok (.number (Int64.ofNat (magnitude ds)))
  else .error (.numberTooLarge (String.ofList ds) (start + 1))

/-- Settle the signs; `afterOperand` says whether the token before may end an operand. -/
def settle (afterOperand : Bool) : List Placed → Except SpellingError (List Token)
  | [] => .ok [.eof]
  | ⟨.token .minus, _, stop⟩ :: ⟨.digits ds, start, after⟩ :: rest =>
    if !afterOperand && start == stop then
      (settle true rest).map (.number (Int64.ofInt (-(magnitude ds : Int))) :: ·)
    else (settle false (⟨.digits ds, start, after⟩ :: rest)).map (.minus :: ·)
  | ⟨.token t, _, _⟩ :: rest => (settle t.endsOperand rest).map (t :: ·)
  | ⟨.digits ds, start, _⟩ :: rest =>
    match unsigned ds start with
    | .error e => .error e
    | .ok t => (settle true rest).map (t :: ·)

/-- The tokens of a line, closed by the end of the line. -/
def Token.ofLine (line : String) : Except SpellingError (List Token) :=
  match lexemes 0 line.toList with
  | .error e => .error e
  | .ok placed => settle false placed

end BlockAutomata.Script
