/-
  Spelling and scanning.

  1. Signs are settled from left to right.  Between a spelled minus and a spelled number there is a
     blank, so only the minus of a negative number touches its digits, and it is taken as a sign
     because no operand ends before it (`settle_placedAll`).

  2. In the other direction a negative number only comes from a minus that no operand precedes, so
     the tokens of any line are again tokens that can be spelled (`exists_of_settle`).

  3. Hence scanning undoes spelling, and spelling what a line was scanned to gives a line that is
     scanned to the same tokens (`ofLine_spelledLine`).
-/
import BlockAutomata.Proofs.Script.Lexemes
import Mathlib.Data.List.Chain

namespace BlockAutomata.Script

namespace Token

/-- Whether the token is a number below zero. -/
def IsNegative : Token → Prop
  | number n => n < 0
  | _ => False

/-- The second token can stand after the first: behind an operand a minus is no sign. -/
def Follows (a b : Token) : Prop := a.endsOperand = true → ¬ b.IsNegative

/-- The tokens can be spelled in one line. -/
structure Spellable (tokens : List Token) : Prop where
  writable : ∀ t ∈ tokens, t.Writable
  follows : tokens.IsChain Follows

/-- The first of the tokens can stand behind an operand, or else there is none. -/
def Begins (afterOperand : Bool) (tokens : List Token) : Prop :=
  ∀ t ∈ tokens.head?, afterOperand = true → ¬ t.IsNegative

theorem begins_false (tokens : List Token) : Begins false tokens := fun _ _ h => by cases h

theorem spellable_nil : Spellable [] := ⟨fun _ ht => absurd ht List.not_mem_nil, List.IsChain.nil⟩

theorem spellable_cons {t : Token} {ts : List Token} :
    Spellable (t :: ts) ↔ t.Writable ∧ Begins t.endsOperand ts ∧ Spellable ts := by
  constructor
  · rintro ⟨hw, hf⟩
    rw [List.isChain_cons] at hf
    rw [List.forall_mem_cons] at hw
    exact ⟨hw.1, hf.1, hw.2, hf.2⟩
  · rintro ⟨ht, hb, hts⟩
    exact ⟨List.forall_mem_cons.2 ⟨ht, hts.writable⟩, List.isChain_cons.2 ⟨hb, hts.follows⟩⟩

end Token

/-! ## Settling one sign -/

section Settle

variable {afterOperand : Bool} {start stop : Nat} {rest : List Placed}

theorem settle_token {t : Token} (ht : t ≠ .minus) :
    settle afterOperand (⟨.token t, start, stop⟩ :: rest) =
      (settle t.endsOperand rest).map (t :: ·) := by
  cases t <;> first | exact absurd rfl ht | rfl

/-- A minus is an operator unless it touches digits and follows no operand. -/
theorem settle_minus (hrest : ∀ p ∈ rest.head?, p.start = stop →
    afterOperand = true ∨ ∃ t, p.lexeme = .token t) :
    settle afterOperand (⟨.token .minus, start, stop⟩ :: rest) =
      (settle false rest).map (.minus :: ·) := by
  match rest, hrest with
  | [], _ => rfl
  | ⟨.token t, _, _⟩ :: _, _ => rfl
  | ⟨.digits ds, s, _⟩ :: _, hrest =>
    rw [settle, if_neg]
    simp only [Bool.and_eq_true, Bool.not_eq_true', beq_iff_eq, not_and]
    rintro rfl hs
    rcases hrest _ rfl hs with h | ⟨t, h⟩ <;> cases h

/-- A minus that touches digits and follows no operand is their sign. -/
theorem settle_sign (ds : List Char) (after : Nat) :
    settle false (⟨.token .minus, start, stop⟩ :: ⟨.digits ds, stop, after⟩ :: rest) =
      (settle true rest).map (.number (Int64.ofInt (-(magnitude ds : Int))) :: ·) := by
  simp [settle]

theorem settle_digits {ds : List Char} (hds : magnitude ds < 0x8000000000000000) :
    settle afterOperand (⟨.digits ds, start, stop⟩ :: rest) =
      (settle true rest).map (.number (Int64.ofNat (magnitude ds)) :: ·) := by
  simp [settle, unsigned, hds]

end Settle

/-! ## Signs of a spelled line -/

theorem isNegative_number {n : Int64} : (Token.number n).IsNegative ↔ n.toInt < 0 :=
  Int64.lt_iff_toInt_lt

/-- The lexemes of a spelled line begin where the line begins. -/
theorem start_of_mem_head?_placedAll {start : Nat} {ts : List Token} {p : Placed}
    (hp : p ∈ (Token.placedAll start ts).head?) : p.start = start := by
  cases ts with
  | nil => cases hp
  | cons t ts =>
    cases t with
    | number n =>
      rw [Token.placedAll, Token.placed] at hp
      split at hp <;> cases hp <;> rfl
    | _ => cases hp; rfl

/-- The signs of a spelled line are settled to its tokens. -/
theorem settle_placedAll {ts : List Token} (hts : Token.Spellable ts) {afterOperand : Bool}
    (hbegin : Token.Begins afterOperand ts) (start : Nat) :
    settle afterOperand (Token.placedAll start ts) = .ok (ts ++ [.eof]) := by
  induction ts generalizing afterOperand start with
  | nil => rfl
  | cons t ts ih =>
    obtain ⟨_, hnext, hrest⟩ := Token.spellable_cons.1 hts
    rw [Token.placedAll]
    have ih := fun start => ih hrest hnext start
    by_cases hn : ∃ n, t = .number n
    · obtain ⟨n, rfl⟩ := hn
      have hhi := n.toInt_lt
      rw [Token.placed]
      split
      · rename_i hneg
        have hafter : afterOperand = false := by
          rw [← Bool.not_eq_true]
          exact fun h => hbegin _ rfl h (isNegative_number.2 hneg)
        have hvalue : -(n.toInt.natAbs : Int) = n.toInt := by omega
        rw [hafter, List.cons_append, List.singleton_append, settle_sign, magnitude_toDigits,
          hvalue, Int64.ofInt_toInt]
        exact congrArg (Except.map (Token.number n :: ·)) (ih _)
      · rename_i hnonneg
        have hvalue : (n.toInt.natAbs : Int) = n.toInt := by omega
        rw [List.singleton_append, settle_digits (by rw [magnitude_toDigits]; omega),
          magnitude_toDigits, ← Int64.ofInt_eq_ofNat, hvalue, Int64.ofInt_toInt]
        exact congrArg (Except.map (Token.number n :: ·)) (ih _)
    · rw [Token.placed_of_ne_number start fun n h => hn ⟨n, h⟩, List.singleton_append]
      by_cases hminus : t = .minus
      · subst hminus
        rw [settle_minus]
        · exact congrArg (Except.map (Token.minus :: ·)) (ih _)
        · intro p hp hstart
          rw [start_of_mem_head?_placedAll hp] at hstart
          exact absurd hstart (Nat.succ_ne_self _)
      · rw [settle_token hminus]
        exact congrArg (Except.map (t :: ·)) (ih _)

/-! ## Signs of any line -/

/-- A token in front of what has been settled, which must be able to follow it. -/
theorem exists_of_settle_cons {t : Token} {afterOperand : Bool} {tail result : List Token}
    (ht : t.Writable) (hbegin : afterOperand = true → ¬ t.IsNegative)
    (htail : ∃ ts, tail = ts ++ [.eof] ∧ Token.Spellable ts ∧ Token.Begins t.endsOperand ts)
    (hresult : t :: tail = result) :
    ∃ ts, result = ts ++ [.eof] ∧ Token.Spellable ts ∧ Token.Begins afterOperand ts := by
  obtain ⟨ts, rfl, hts, hnext⟩ := htail
  refine ⟨t :: ts, hresult.symm, Token.spellable_cons.2 ⟨ht, hnext, hts⟩, ?_⟩
  rintro u ⟨⟩
  exact hbegin

/-- A number without a sign is not negative. -/
theorem not_isNegative_of_unsigned {ds : List Char} {start : Nat} {t : Token}
    (h : unsigned ds start = .ok t) : ∃ n, t = .number n ∧ ¬ t.IsNegative := by
  rw [unsigned] at h
  split at h
  · rename_i hds
    cases h
    refine ⟨_, rfl, ?_⟩
    rw [isNegative_number, ← Int64.ofInt_eq_ofNat, Int64.toInt_ofInt_of_le (by omega) (by omega)]
    omega
  · cases h

/-- Whatever is settled are tokens that can be spelled, and the end of the line. -/
theorem exists_of_settle {afterOperand : Bool} {placed : List Placed} {result : List Token}
    (hproper : ∀ p ∈ placed, p.lexeme.Proper) (h : settle afterOperand placed = .ok result) :
    ∃ ts, result = ts ++ [.eof] ∧ Token.Spellable ts ∧ Token.Begins afterOperand ts := by
  induction afterOperand, placed using settle.induct generalizing result with
  | case1 afterOperand =>
    cases h
    exact ⟨[], rfl, Token.spellable_nil, nofun⟩
  | case2 afterOperand start stop ds start' after rest hsign ih =>
    -- the minus is a sign, so no operand precedes it
    have hafter : ¬ afterOperand = true := by
      rintro rfl
      cases hsign
    rw [settle, if_pos hsign] at h
    obtain ⟨tail, htail, hresult⟩ := exists_of_map_eq_ok h
    simp only [List.forall_mem_cons] at hproper
    refine exists_of_settle_cons ?_ (fun h => absurd h hafter) (ih hproper.2.2 htail) hresult
    trivial
  | case3 afterOperand start stop ds start' after rest hsign ih =>
    rw [settle, if_neg hsign] at h
    obtain ⟨tail, htail, hresult⟩ := exists_of_map_eq_ok h
    rw [List.forall_mem_cons] at hproper
    exact exists_of_settle_cons (t := .minus) trivial (fun _ => id) (ih hproper.2 htail) hresult
  | case4 afterOperand t start stop rest hminus ih =>
    rw [List.forall_mem_cons] at hproper
    obtain ⟨⟨hw, hnumber⟩, hrest⟩ := hproper
    rw [settle.eq_3 _ _ _ _ _ hminus] at h
    obtain ⟨tail, htail, hresult⟩ := exists_of_map_eq_ok h
    refine exists_of_settle_cons hw (fun _ => ?_) (ih hrest htail) hresult
    cases t with
    | number n => exact absurd rfl (hnumber n)
    | _ => exact id
  | case5 afterOperand ds start stop rest e herror =>
    rw [settle, herror] at h
    cases h
  | case6 afterOperand ds start stop rest t hok ih =>
    rw [settle, hok] at h
    obtain ⟨tail, htail, hresult⟩ := exists_of_map_eq_ok h
    rw [List.forall_mem_cons] at hproper
    obtain ⟨n, rfl, hnonneg⟩ := not_isNegative_of_unsigned hok
    exact exists_of_settle_cons (t := .number n) trivial (fun _ => hnonneg) (ih hproper.2 htail)
      hresult

/-! ## Scanning and spelling -/

namespace Token

/-- Tokens that can be spelled are read back from their spelling. -/
theorem ofLine_spelledLine {ts : List Token} (hts : Spellable ts) :
    ofLine (spelledLine ts) = .ok (ts ++ [.eof]) := by
  rw [ofLine, lexemes_spelledLine hts.writable]
  exact settle_placedAll hts (begins_false ts) 0

/-- Every line that can be scanned gives tokens that can be spelled, and the end of the line. -/
theorem exists_of_ofLine {line : String} {result : List Token} (h : ofLine line = .ok result) :
    ∃ ts, result = ts ++ [.eof] ∧ Spellable ts := by
  rw [ofLine] at h
  split at h
  · cases h
  · rename_i placed hplaced
    obtain ⟨ts, hresult, hts, -⟩ := exists_of_settle (proper_of_lexemes hplaced) h
    exact ⟨ts, hresult, hts⟩

/-- Scanning undoes spelling.  And whatever a line is scanned to, apart from the end of the line,
    can be spelled, and the spelling is scanned to the same. -/
theorem ofLine_undoes_spelledLine :
    (∀ ts, Spellable ts → ofLine (spelledLine ts) = .ok (ts ++ [.eof])) ∧
      ∀ line result, ofLine line = .ok result →
        ∃ ts, result = ts ++ [.eof] ∧ Spellable ts ∧ ofLine (spelledLine ts) = .ok result := by
  refine ⟨fun ts => ofLine_spelledLine, fun line result h => ?_⟩
  obtain ⟨ts, rfl, hts⟩ := exists_of_ofLine h
  exact ⟨ts, rfl, hts, ofLine_spelledLine hts⟩

/-- A subtraction, and the least of all numbers. -/
theorem ofLine_undoes_spelledLine_least :
    ofLine (spelledLine [.identifier "age", .minus, .number 1, .comma, .number Int64.minValue]) =
      .ok [.identifier "age", .minus, .number 1, .comma, .number Int64.minValue, .eof] := by
  refine ofLine_undoes_spelledLine.1
    [.identifier "age", .minus, .number 1, .comma, .number Int64.minValue] ⟨?_, ?_⟩
  · have hname : IsName ['a', 'g', 'e'] :=
      ⟨'a', ['g', 'e'], rfl, rfl, List.forall_mem_cons.2 ⟨rfl, List.forall_mem_singleton.2 rfl⟩⟩
    simp [Writable, hname]
  · exact .cons_cons (fun _ => id) (.cons_cons nofun (.cons_cons (fun _ => id)
      (.cons_cons nofun (.singleton _))))

end Token

end BlockAutomata.Script
