/-
  Numbers are read exactly, or the line is refused.

  1. What a row of digits stands for depends on what is before it: behind a minus that no operand
     precedes it is negative, and 2^63 is good.  Otherwise it is not negative, and must be below
     2^63 (`literal?`).

  2. Signs are settled piece by piece, and a sign together with its digits.  So the tokens of a
     line are those of its pieces, and whether a piece is good only depends on the pieces before it
     (`settle_pieces`).

  3. Hence if nothing else is wrong with a line, each of its rows of digits becomes its number, and
     else it is reported (`ofLine_reads_number`).
-/
import BlockAutomata.Proofs.Script.LongestMatch
import BlockAutomata.Proofs.Script.Spelling

namespace BlockAutomata.Script

namespace Piece

/-! ## What a row of digits stands for -/

/-- Whether the last of the pieces can end an operand.  What is skipped does not count. -/
def afterOperand (before : List Piece) : Bool :=
  before.foldl (fun met p =>
    match p.lexeme? with
    | none => met
    | some (.token t) => t.endsOperand
    | some (.digits _) => true) false

/-- Whether the pieces end with a minus that follows no operand. -/
def endsWithSign (before : List Piece) : Bool :=
  before.getLast?.any (fun p => p.lexeme? == some (.token .minus)) && !afterOperand before.dropLast

/-- What the digits stand for behind the pieces, if they stand for something. -/
def literal? (before : List Piece) (ds : List Char) : Option Int :=
  if endsWithSign before then
    if magnitude ds ≤ 0x8000000000000000 then some (-(magnitude ds : Int)) else none
  else
    if magnitude ds < 0x8000000000000000 then some (magnitude ds) else none

/-- Whether digits are the first of the pieces. -/
def beginsWithDigits : List Piece → Bool
  | ⟨_, some (.digits _)⟩ :: _ => true
  | _ => false

/-- The tokens that a piece between others stands for: one, or none if it is skipped or is the sign
    of the digits behind it. -/
def tokens (before : List Piece) (p : Piece) (after : List Piece) : List Token :=
  match p.lexeme? with
  | none => []
  | some (.digits ds) => (literal? before ds).toList.map fun v => .number (Int64.ofInt v)
  | some (.token t) => if endsWithSign (before ++ [p]) && beginsWithDigits after then [] else [t]

/-- The tokens that the pieces in the middle of others stand for. -/
def tokensOf (before : List Piece) : List Piece → List Piece → List Token
  | [], _ => []
  | p :: ps, after => p.tokens before (ps ++ after) ++ tokensOf (before ++ [p]) ps after

/-- All rows of digits among the pieces, which stand behind others, stand for something. -/
def Readable (before pieces : List Piece) : Prop :=
  ∀ left p right ds, pieces = left ++ p :: right → p.lexeme? = some (.digits ds) →
    (literal? (before ++ left) ds).isSome

section Context

variable {before after ps qs : List Piece} {p : Piece} {ds : List Char}

theorem afterOperand_snoc : afterOperand (before ++ [p]) =
    match p.lexeme? with
    | none => afterOperand before
    | some (.token t) => t.endsOperand
    | some (.digits _) => true := by
  rw [afterOperand, List.foldl_append]
  rfl

theorem endsWithSign_snoc : endsWithSign (before ++ [p]) =
    (p.lexeme? == some (.token .minus) && !afterOperand before) := by
  rw [endsWithSign, List.getLast?_concat, List.dropLast_concat]
  rfl

theorem beginsWithDigits_cons :
    beginsWithDigits (p :: ps) = true ↔ ∃ ds, p.lexeme? = some (.digits ds) := by
  obtain ⟨text, lexeme?⟩ := p
  match lexeme? with
  | none => exact ⟨nofun, nofun⟩
  | some (.token _) => exact ⟨nofun, nofun⟩
  | some (.digits ds) => exact ⟨fun _ => ⟨ds, rfl⟩, fun _ => rfl⟩

theorem literal?_of_sign (h : endsWithSign before = true) (hv : (literal? before ds).isSome) :
    magnitude ds ≤ 0x8000000000000000 ∧ literal? before ds = some (-(magnitude ds : Int)) := by
  rw [literal?, if_pos h] at hv ⊢
  split at hv
  · rename_i hle
    exact ⟨hle, if_pos hle⟩
  · cases hv

theorem literal?_eq_none (h : literal? before ds = none) (hle : magnitude ds ≤ 0x8000000000000000) :
    endsWithSign before = false ∧ ¬ magnitude ds < 0x8000000000000000 := by
  rw [literal?, if_pos hle] at h
  split at h
  · cases h
  · rename_i hsign
    split at h
    · cases h
    · rename_i hlt
      exact ⟨Bool.eq_false_iff.2 hsign, hlt⟩

theorem literal?_of_not_sign (h : endsWithSign before = false) (hv : (literal? before ds).isSome) :
    magnitude ds < 0x8000000000000000 ∧ literal? before ds = some (magnitude ds : Int) := by
  rw [literal?, if_neg (by simp [h])] at hv ⊢
  split at hv
  · rename_i hlt
    exact ⟨hlt, if_pos hlt⟩
  · cases hv

/-- No row of digits above 2^63 stands for something. -/
theorem magnitude_le_of_literal? (hv : (literal? before ds).isSome) :
    magnitude ds ≤ 0x8000000000000000 := by
  cases h : endsWithSign before with
  | true => exact (literal?_of_sign h hv).1
  | false => exact Nat.le_of_lt (literal?_of_not_sign h hv).1

/-- What digits stand for is a number of 64 bits. -/
theorem toInt_ofInt_literal? {v : Int} (hv : literal? before ds = some v) :
    (Int64.ofInt v).toInt = v := by
  have hsome : (literal? before ds).isSome := by rw [hv]; rfl
  cases h : endsWithSign before with
  | true =>
    obtain ⟨hle, heq⟩ := literal?_of_sign h hsome
    cases hv.symm.trans heq
    exact Int64.toInt_ofInt_of_le (by omega) (by omega)
  | false =>
    obtain ⟨hlt, heq⟩ := literal?_of_not_sign h hsome
    cases hv.symm.trans heq
    exact Int64.toInt_ofInt_of_le (by omega) (by omega)

/-- A row of digits that stands for something can be scanned. -/
theorem fits_of_literal? (hv : ∀ ds, p.lexeme? = some (.digits ds) → (literal? before ds).isSome) :
    p.Fits :=
  fun ds hds => magnitude_le_of_literal? (hv ds hds)

theorem Readable.fits (h : Readable before ps) : ∀ p ∈ ps, p.Fits := by
  intro p hp
  obtain ⟨left, right, hps⟩ := List.append_of_mem hp
  exact fits_of_literal? fun ds hds => h left p right ds hps hds

theorem readable_cons (h : Readable before (p :: ps)) :
    (∀ ds, p.lexeme? = some (.digits ds) → (literal? before ds).isSome) ∧
      Readable (before ++ [p]) ps := by
  constructor
  · intro ds hds
    have h := h [] p ps ds rfl hds
    rwa [List.append_nil] at h
  · intro left q right ds hps hds
    have h := h (p :: left) q right ds (by rw [hps]; rfl) hds
    rwa [List.append_assoc]

theorem tokensOf_append : tokensOf before (ps ++ qs) after =
    tokensOf before ps (qs ++ after) ++ tokensOf (before ++ ps) qs after := by
  induction ps generalizing before with
  | nil => rw [List.append_nil]; rfl
  | cons p ps ih =>
    show p.tokens before (ps ++ qs ++ after) ++ tokensOf (before ++ [p]) (ps ++ qs) after = _
    rw [ih, List.append_assoc, List.append_assoc, ← List.append_assoc]
    rfl

end Context

/-! ## Positions -/

theorem byteLength_pos {cs : List Char} (h : cs ≠ []) : 0 < byteLength cs := by
  obtain ⟨c, more, rfl⟩ := List.exists_cons_of_ne_nil h
  exact Nat.add_pos_left c.utf8Size_pos _

/-- The lexemes of pieces do not begin before the pieces. -/
theorem le_start_of_mem_placedAll {ps : List Piece} {start : Nat} {q : Placed}
    (hq : q ∈ placedAll start ps) : start ≤ q.start := by
  induction ps generalizing start with
  | nil => cases hq
  | cons p ps ih =>
    rcases List.mem_append.1 hq with h | h
    · rw [placed] at h
      split at h
      · cases h
      · cases List.mem_singleton.1 h
        exact Nat.le_refl _
    · have := ih h
      omega

/-- Only digits or a token touch what stands before them: what is skipped leaves a gap. -/
theorem lexeme?_of_touching {ps : List Piece} {start : Nat} {q : Placed}
    (hskip : ∀ p ∈ ps, p.lexeme? = none → p.text ≠ []) (hq : q ∈ (placedAll start ps).head?)
    (hstart : q.start = start) : ∃ p more, ps = p :: more ∧ p.lexeme? = some q.lexeme := by
  cases ps with
  | nil => cases hq
  | cons p more =>
    refine ⟨p, more, rfl, ?_⟩
    rw [placedAll, placed] at hq
    split at hq
    · rename_i hnone
      have hle := le_start_of_mem_placedAll (List.mem_of_mem_head? hq)
      have hpos := byteLength_pos (hskip p List.mem_cons_self hnone)
      omega
    · cases hq
      assumption

/-! ## Settling pieces -/

theorem map_append_map_append {ε α : Type} (x : Except ε (List α)) (as bs : List α) :
    (x.map (bs ++ ·)).map (as ++ ·) = x.map (as ++ bs ++ ·) := by
  cases x with
  | error e => rfl
  | ok cs => exact congrArg Except.ok (List.append_assoc _ _ _).symm

/-- A piece is settled, unless it is a sign or the digits behind one. -/
theorem settle_piece {before rest : List Piece} {p : Piece} (start : Nat)
    (hskip : ∀ q ∈ rest, q.lexeme? = none → q.text ≠ [])
    (hread : ∀ ds, p.lexeme? = some (.digits ds) →
      endsWithSign before = false ∧ (literal? before ds).isSome)
    (hsign : endsWithSign (before ++ [p]) = true → beginsWithDigits rest = false) :
    settle (afterOperand before) (placedAll start (p :: rest)) =
      (settle (afterOperand (before ++ [p])) (placedAll (start + byteLength p.text) rest)).map
        (p.tokens before rest ++ ·) := by
  obtain ⟨text, lexeme?⟩ := p
  rw [afterOperand_snoc]
  match lexeme?, hread, hsign with
  | none, _, _ =>
    show settle _ (placedAll (start + byteLength text) rest) = Except.map id _
    cases settle (afterOperand before) (placedAll (start + byteLength text) rest) <;> rfl
  | some (.digits ds), hread, _ =>
    obtain ⟨hbefore, hv⟩ := hread ds rfl
    obtain ⟨hlt, heq⟩ := literal?_of_not_sign hbefore hv
    have htokens : tokens before ⟨text, some (.digits ds)⟩ rest =
        [.number (Int64.ofNat (magnitude ds))] := by
      show (literal? before ds).toList.map _ = _
      rw [heq]
      rfl
    rw [htokens]
    exact settle_digits hlt
  | some (.token t), _, hsign =>
    have htokens : tokens before ⟨text, some (.token t)⟩ rest = [t] := by
      refine if_neg fun h => ?_
      rw [Bool.and_eq_true] at h
      rw [hsign h.1] at h
      cases h.2
    rw [htokens]
    by_cases ht : t = .minus
    · subst ht
      refine settle_minus fun q hq hstart => ?_
      obtain ⟨p, more, rfl, hp⟩ := lexeme?_of_touching hskip hq hstart
      cases hlexeme : q.lexeme with
      | token t => exact Or.inr ⟨t, rfl⟩
      | digits ds =>
        left
        -- without an operand the minus would be the sign of these digits
        have hdigits : beginsWithDigits (p :: more) = true :=
          beginsWithDigits_cons.2 ⟨ds, by rw [hp, hlexeme]⟩
        cases hbefore : afterOperand before with
        | true => rfl
        | false => exact (hsign (by rw [endsWithSign_snoc, hbefore]; rfl)).symm.trans hdigits
    · exact settle_token ht

/-- A sign and its digits are settled together. -/
theorem settle_signed {before rest : List Piece} {p q : Piece} {ds : List Char} (start : Nat)
    (hp : endsWithSign (before ++ [p]) = true) (hq : q.lexeme? = some (.digits ds))
    (hv : (literal? (before ++ [p]) ds).isSome) :
    settle (afterOperand before) (placedAll start (p :: q :: rest)) =
      (settle (afterOperand (before ++ [p] ++ [q]))
        (placedAll (start + byteLength p.text + byteLength q.text) rest)).map
          (tokensOf before [p, q] rest ++ ·) := by
  obtain ⟨text, lexeme?⟩ := p
  obtain ⟨text', lexeme?'⟩ := q
  cases hq
  obtain ⟨-, heq⟩ := literal?_of_sign hp hv
  have hminus := hp
  rw [endsWithSign_snoc, Bool.and_eq_true, beq_iff_eq, Bool.not_eq_true'] at hminus
  obtain ⟨rfl, hbefore⟩ := hminus
  have htokens : tokensOf before [⟨text, some (.token .minus)⟩, ⟨text', some (.digits ds)⟩] rest =
      [.number (Int64.ofInt (-(magnitude ds : Int)))] := by
    show (if _ then [] else _) ++ ((literal? _ ds).toList.map _ ++ []) = _
    rw [hp, heq]
    rfl
  rw [htokens, hbefore, afterOperand_snoc]
  exact settle_sign ds _

/-- Pieces in front of others are settled to their tokens, if no sign is parted from its digits. -/
theorem settle_pieces {before rest : List Piece} (ps : List Piece) (start : Nat)
    (hskip : ∀ q ∈ ps ++ rest, q.lexeme? = none → q.text ≠ []) (hread : Readable before ps)
    (hbefore : endsWithSign before = true → beginsWithDigits (ps ++ rest) = false)
    (hrest : endsWithSign (before ++ ps) = true → beginsWithDigits rest = false) :
    settle (afterOperand before) (placedAll start (ps ++ rest)) =
      (settle (afterOperand (before ++ ps)) (placedAll (start + byteLength (textOf ps)) rest)).map
        (tokensOf before ps rest ++ ·) := by
  match ps with
  | [] =>
    rw [List.append_nil]
    show settle _ (placedAll start rest) = Except.map id (settle _ (placedAll start rest))
    cases settle (afterOperand before) (placedAll start rest) <;> rfl
  | p :: ps =>
    obtain ⟨hp, hps⟩ := readable_cons hread
    have hsnoc : before ++ p :: ps = before ++ [p] ++ ps := List.append_cons _ _ _
    have hskip' : ∀ q ∈ ps ++ rest, q.lexeme? = none → q.text ≠ [] :=
      fun q hq => hskip q (List.mem_cons_of_mem _ hq)
    by_cases hpair : endsWithSign (before ++ [p]) = true ∧ beginsWithDigits (ps ++ rest) = true
    · match ps with
      | [] =>
        have hrest : beginsWithDigits rest = false := hrest hpair.1
        exact absurd (hrest.symm.trans hpair.2) Bool.false_ne_true
      | q :: ps =>
        obtain ⟨hq, hps⟩ := readable_cons hps
        obtain ⟨ds, hds⟩ := beginsWithDigits_cons.1 hpair.2
        have hnot : endsWithSign (before ++ [p] ++ [q]) = false := by
          rw [endsWithSign_snoc, hds]
          rfl
        have hsnoc' : before ++ p :: q :: ps = before ++ [p] ++ [q] ++ ps := by simp
        have hlength : byteLength (textOf (p :: q :: ps)) =
            byteLength p.text + (byteLength q.text + byteLength (textOf ps)) := by
          simp [textOf, byteLength_append]
        rw [hsnoc'] at hrest ⊢
        have ih := settle_pieces ps (start + byteLength p.text + byteLength q.text)
          (fun r hr => hskip' r (List.mem_cons_of_mem _ hr)) hps
          (fun h => absurd (hnot.symm.trans h) Bool.false_ne_true) hrest
        have htokens : tokensOf before (p :: q :: ps) rest =
            tokensOf before [p, q] (ps ++ rest) ++ tokensOf (before ++ [p] ++ [q]) ps rest := by
          rw [← List.append_cons before p [q]]
          exact @tokensOf_append before rest [p, q] ps
        rw [htokens, hlength, ← Nat.add_assoc, ← Nat.add_assoc, ← map_append_map_append, ← ih]
        exact settle_signed start hpair.1 hds (hq ds hds)
    · have hlength : byteLength (textOf (p :: ps)) =
          byteLength p.text + byteLength (textOf ps) := byteLength_append _ _
      have hnext : endsWithSign (before ++ [p]) = true → beginsWithDigits (ps ++ rest) = false :=
        fun h => Bool.eq_false_iff.2 fun h' => hpair ⟨h, h'⟩
      rw [hsnoc] at hrest ⊢
      have ih := settle_pieces ps (start + byteLength p.text) hskip' hps hnext hrest
      show _ = Except.map (p.tokens before (ps ++ rest) ++ tokensOf (before ++ [p]) ps rest ++ ·) _
      rw [hlength, ← Nat.add_assoc, ← map_append_map_append, ← ih]
      refine settle_piece start hskip' (fun ds hds => ⟨Bool.eq_false_iff.2 fun h => ?_, hp ds hds⟩)
        hnext
      have hdigits : beginsWithDigits (p :: (ps ++ rest)) = false := hbefore h
      rw [beginsWithDigits_cons.2 ⟨ds, hds⟩] at hdigits
      cases hdigits
termination_by ps.length

end Piece

/-! ## Lines -/

theorem Spells.ne_nil {cs : List Char} {lexeme? : Option Lexeme} (h : Spells cs lexeme?) :
    cs ≠ [] := by
  cases h with
  | blanks hcs => exact hcs
  | comment hcs => rw [hcs]; exact List.cons_ne_nil _ _
  | name hname =>
    obtain ⟨c, more, rfl, -⟩ := hname
    exact List.cons_ne_nil _ _
  | hash hcs => rw [hcs]; exact List.cons_ne_nil _ _
  | quoted hcs => rw [hcs]; exact List.cons_ne_nil _ _
  | digits hds => exact hds.1
  | offset ho => cases ho; exact List.cons_ne_nil _ _
  | @symbol t s ht hcs =>
    subst hcs
    cases t <;> cases ht <;> decide

theorem Spells.eq_of_digits {cs ds : List Char} (h : Spells cs (some (.digits ds))) : cs = ds := by
  cases h
  rfl

theorem IsCut.spells {cs : List Char} {pieces : List Piece} (h : IsCut cs pieces) :
    ∀ p ∈ pieces, Spells p.text p.lexeme? := by
  induction h with
  | nil => exact nofun
  | cons hspells _ _ ih => exact List.forall_mem_cons.2 ⟨hspells, ih⟩

namespace Piece

theorem eq_nil_of_textOf {ps : List Piece} (hps : ∀ p ∈ ps, p.text ≠ []) (h : textOf ps = []) :
    ps = [] := by
  cases ps with
  | nil => rfl
  | cons p ps => exact absurd (List.append_eq_nil_iff.1 h).1 (hps p List.mem_cons_self)

/-- The text in front of a piece says which pieces these are. -/
theorem eq_of_textOf_eq {left right before after : List Piece} {p q : Piece}
    (hne : ∀ r ∈ before ++ q :: after, r.text ≠ [])
    (hpieces : before ++ q :: after = left ++ p :: right) (htext : textOf left = textOf before) :
    left = before := by
  have happend : ∀ ps qs, textOf (ps ++ qs) = textOf ps ++ textOf qs :=
    fun _ _ => List.flatMap_append
  rcases List.append_eq_append_iff.1 hpieces with ⟨more, rfl, hmore⟩ | ⟨more, rfl, hmore⟩
  · rw [happend, List.append_right_eq_self] at htext
    rw [hmore] at hne
    rw [eq_nil_of_textOf (fun r hr => hne r (by simp [hr])) htext, List.append_nil]
  · rw [happend, List.self_eq_append_right] at htext
    rw [eq_nil_of_textOf (fun r hr => hne r (by simp [hr])) htext, List.append_nil]

end Piece

/-- Digits that no sign belongs to must stand for something below 2^63. -/
theorem settle_digits_error {ds : List Char} (hds : ¬ magnitude ds < 0x8000000000000000)
    (afterOperand : Bool) (start stop : Nat) (rest : List Placed) :
    settle afterOperand (⟨.digits ds, start, stop⟩ :: rest) =
      .error (.numberTooLarge (String.ofList ds) (start + 1)) := by
  simp [settle, unsigned, hds]

namespace Token

open Piece

section Line

variable {line : String} {pieces before after : List Piece} {ds : List Char}

/-- The tokens of a line are those of its pieces, if all rows of digits stand for something. -/
theorem ofLine_of_readable (hcut : IsCut line.toList pieces) (hread : Readable [] pieces) :
    ofLine line = .ok (tokensOf [] pieces [] ++ [eof]) := by
  have hskip : ∀ p ∈ pieces ++ [], p.lexeme? = none → p.text ≠ [] := by
    intro p hp _
    rw [List.append_nil] at hp
    exact (hcut.spells p hp).ne_nil
  have hsettle := settle_pieces pieces 0 hskip hread nofun fun _ => rfl
  rw [List.append_nil] at hsettle
  rw [ofLine, lexemes_of_isCut hcut hread.fits]
  exact hsettle

/-- The first row of digits that stands for nothing is reported, if no later one is too large. -/
theorem ofLine_of_not_readable (hcut : IsCut line.toList (before ++ digits ds :: after))
    (hread : Readable [] before) (hds : literal? before ds = none)
    (hafter : ∀ p ∈ after, p.Fits) : ofLine line = .error
      (.numberTooLarge (String.ofList ds) (byteLength (textOf before) + 1)) := by
  by_cases hlarge : 0x8000000000000000 < magnitude ds
  · rw [ofLine, lexemes_of_large hcut hread.fits hlarge, Nat.zero_add]
  · obtain ⟨hsign, hlt⟩ := literal?_eq_none hds (Nat.not_lt.1 hlarge)
    have hsmall : ∀ p ∈ before ++ digits ds :: after, p.Fits := by
      refine List.forall_mem_append.2 ⟨hread.fits, List.forall_mem_cons.2 ⟨?_, hafter⟩⟩
      intro es hes
      cases hes
      exact Nat.not_lt.1 hlarge
    have hsettle := settle_pieces before 0 (fun p hp _ => (hcut.spells p hp).ne_nil) hread
      Bool.noConfusion fun h => absurd (hsign.symm.trans h) Bool.false_ne_true
    rw [ofLine, lexemes_of_isCut hcut hsmall]
    refine hsettle.trans ?_
    show Except.map _ (settle _ (⟨.digits ds, _, _⟩ :: _)) = _
    rw [settle_digits_error hlt, Nat.zero_add]
    rfl

/-- Take a row of digits in a line, outside of comments, names, constants and offsets, and suppose
    that nothing else is wrong with the line.  If the digits stand for a number, behind the pieces
    before them, it is among the tokens of the line, with the tokens of the other pieces around it.
    If not, they are reported with the column where they begin. -/
theorem ofLine_reads_number {front back : List Char}
    (hcut : IsCut line.toList pieces) (hrun : IsRun line.toList front ds back)
    (hout : LiesOutside pieces front ds)
    (helse : ∀ left es right, pieces = left ++ digits es :: right → textOf left ≠ front →
      (literal? left es).isSome) :
    ∃ before after, pieces = before ++ digits ds :: after ∧ textOf before = front ∧
      match literal? before ds with
      | some v => ∃ n : Int64, n.toInt = v ∧ ofLine line =
          .ok (tokensOf [] before (digits ds :: after) ++ number n ::
            tokensOf (before ++ [digits ds]) after [] ++ [eof])
      | none => ofLine line =
          .error (.numberTooLarge (String.ofList ds) (byteLength front + 1)) := by
  obtain ⟨before, after, rfl, rfl⟩ := exists_piece_of_run hcut hrun hout
  refine ⟨before, after, rfl, rfl, ?_⟩
  have hne : ∀ p ∈ before ++ digits ds :: after, p.text ≠ [] :=
    fun p hp => (hcut.spells p hp).ne_nil
  -- all rows of digits elsewhere are good
  have hothers : ∀ left p right es, before ++ digits ds :: after = left ++ p :: right →
      p.lexeme? = some (.digits es) → left ≠ before → (literal? left es).isSome := by
    intro left p right es hpieces hp hleft
    obtain ⟨text, lexeme?⟩ := p
    have hspells := hcut.spells ⟨text, lexeme?⟩ (by rw [hpieces]; simp)
    cases hp
    obtain rfl : text = es := hspells.eq_of_digits
    exact helse left text right hpieces fun h => hleft (eq_of_textOf_eq hne hpieces h)
  cases hv : literal? before ds with
  | some v =>
    refine ⟨Int64.ofInt v, toInt_ofInt_literal? hv, ?_⟩
    have hread : Readable [] (before ++ digits ds :: after) := by
      intro left p right es hpieces hp
      by_cases hleft : left = before
      · subst hleft
        cases (List.cons.inj (List.append_cancel_left hpieces)).1
        cases hp
        rw [List.nil_append, hv]
        rfl
      · exact hothers left p right es hpieces hp hleft
    have htokens : (digits ds).tokens ([] ++ before) (after ++ []) =
        [number (Int64.ofInt v)] := by
      show (literal? before ds).toList.map _ = _
      rw [hv]
      rfl
    rw [ofLine_of_readable hcut hread, tokensOf_append, tokensOf, htokens, List.append_nil]
    rfl
  | none =>
    refine ofLine_of_not_readable hcut ?_ hv ?_
    · intro left p right es hbefore hp
      refine hothers left p (right ++ digits ds :: after) es (by rw [hbefore]; simp) hp ?_
      rintro rfl
      simp at hbefore
    · intro p hp
      obtain ⟨left, right, rfl⟩ := List.append_of_mem hp
      exact fits_of_literal? fun es hes =>
        hothers (before ++ digits ds :: left) p right es (by simp) hes (by simp)

end Line

/-- Nothing but an arrow is longer than a minus. -/
theorem eq_arrow_of_spells {more : List Char} {lexeme? : Option Lexeme}
    (h : Spells ('-' :: more) lexeme?) : more = [] ∨ more = ['>'] := by
  cases h with
  | blanks _ hcs => exact absurd (hcs '-' List.mem_cons_self) (by decide)
  | comment hcs => cases hcs
  | name hname =>
    obtain ⟨c, cs, hcs, hc, -⟩ := hname
    cases hcs
    cases hc
  | hash hcs => cases hcs
  | quoted hcs => cases hcs
  | digits hds => exact absurd (hds.2 '-' List.mem_cons_self) (by decide)
  | offset ho => cases ho
  | symbol ht hcs =>
    rename_i t s
    revert hcs
    cases t <;> cases ht <;> simp +contextual

/-- The least of all numbers is read. -/
theorem ofLine_reads_number_least :
    ∃ n : Int64, n.toInt = -0x8000000000000000 ∧
      ofLine "-9223372036854775808" = .ok [number n, eof] := by
  have hdigits : IsDigits "9223372036854775808".toList := ⟨by decide, List.all_eq_true.1 rfl⟩
  have hcut : IsCut "-9223372036854775808".toList
      [⟨['-'], some (.token minus)⟩, digits "9223372036854775808".toList] := by
    refine @IsCut.cons ['-'] _ _ _ (@Spells.symbol _ minus "-" rfl rfl) ?_
      (@IsCut.cons _ [] _ _ (.digits hdigits) ?_ .nil)
    · intro more lexeme? hmore h
      rcases eq_arrow_of_spells h with rfl | rfl
      · rfl
      · exact absurd hmore (by decide)
    · exact fun more _ hmore _ => List.prefix_nil.1 hmore
  have hrun : IsRun "-9223372036854775808".toList ['-'] "9223372036854775808".toList [] :=
    ⟨rfl, hdigits, fun _ hc => by cases hc; rfl, nofun⟩
  have hout : LiesOutside [⟨['-'], some (.token minus)⟩, digits "9223372036854775808".toList]
      ['-'] "9223372036854775808".toList := by
    intro left p right hpieces hp
    have hmem : p ∈ left ++ p :: right := by simp
    rw [← hpieces, List.mem_cons, List.mem_singleton] at hmem
    rcases hmem with rfl | rfl <;> exact hp.elim
  have hplace : ∀ left es right, [⟨['-'], some (.token minus)⟩,
      digits "9223372036854775808".toList] = left ++ digits es :: right →
        left = [⟨['-'], some (.token minus)⟩] ∧ right = [] := by
    intro left es right h
    match left, h with
    | [], h => cases congrArg Piece.lexeme? (List.cons.inj h).1
    | [_], h =>
      obtain ⟨hminus, htail⟩ : _ ∧ [digits _] = digits es :: right := List.cons.inj h
      exact ⟨congrArg (fun p => [p]) hminus.symm, (List.cons.inj htail).2.symm⟩
    | _ :: _ :: left, h => simp at h
  obtain ⟨before, after, hpieces, -, hread⟩ := ofLine_reads_number hcut hrun hout fun _ _ _ h hne =>
    absurd (congrArg textOf (hplace _ _ _ h).1) hne
  obtain ⟨rfl, rfl⟩ := hplace _ _ _ hpieces
  exact hread

end Token

end BlockAutomata.Script
