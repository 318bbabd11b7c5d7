/-
  Reasoning about readers of tokens.

  1. **Running.**  `runFrom` runs a reader from a cursor.  One equation for each primitive and one
     for sequencing run any reader step by step.

  2. **What a reader ensures.**  `Ensures t x Q` is said of all tokens at once: started with the
     slot table `t`, the reader `x` leaves a table that continues `t`, even when it fails, and when
     it succeeds, `Q` holds of the result and of that table.  The rules below follow the way readers
     are put together, so a statement about a reader is proved along its definition.
-/
import BlockAutomata.Proofs.Script.SlotTables
import BlockAutomata.Script.Grammar

namespace BlockAutomata.Script.Reading

variable {α β : Type}

/-! ## Running -/

/-- Run the reader from the cursor. -/
def runFrom (x : Reading α) (c : Cursor) : Except Mismatch α × Cursor := x.run.run c

section Running

variable (c : Cursor)

@[simp] theorem runFrom_pure (a : α) : (pure a : Reading α).runFrom c = (.ok a, c) := rfl

@[simp] theorem runFrom_bind (x : Reading α) (f : α → Reading β) :
    (x >>= f).runFrom c =
      match x.runFrom c with
      | (.ok a, c') => (f a).runFrom c'
      | (.error e, c') => (.error e, c') := by
  simp only [runFrom, ExceptT.run_bind, StateT.run_bind]
  obtain ⟨result, c'⟩ : Except Mismatch α × Cursor := x.run.run c
  cases result <;> rfl

@[simp] theorem runFrom_map (f : α → β) (x : Reading α) :
    (f <$> x).runFrom c =
      match x.runFrom c with
      | (.ok a, c') => (.ok (f a), c')
      | (.error e, c') => (.error e, c') := by
  rw [map_eq_pure_bind, runFrom_bind]
  rfl

@[simp] theorem runFrom_lookahead (n : Nat) :
    (lookahead n).runFrom c = (.ok (c.tokens[n]?.getD .eof), c) := rfl

@[simp] theorem runFrom_next : next.runFrom c = (.ok (c.tokens[0]?.getD .eof), c) :=
  runFrom_lookahead c 0

@[simp] theorem runFrom_remaining : remaining.runFrom c = (.ok c.tokens.length, c) := rfl

@[simp] theorem runFrom_skip : skip.runFrom c = (.ok (), ⟨c.tokens.tail, c.slots⟩) := rfl

@[simp] theorem runFrom_slotFor (name : String) :
    (slotFor name).runFrom c =
      (.ok (c.slots.allocate name).1, ⟨c.tokens, (c.slots.allocate name).2⟩) := rfl

@[simp] theorem runFrom_fail (cause : GrammarCause) :
    (fail cause : Reading α).runFrom c = (.error ⟨cause, c.tokens[0]?.getD .eof⟩, c) := by
  rw [fail, runFrom_bind, runFrom_next]
  rfl

@[simp] theorem runFrom_need (t : Token) (what : Wanted) :
    (need t what).runFrom c =
      if c.tokens[0]?.getD .eof = t then (.ok (), ⟨c.tokens.tail, c.slots⟩)
      else (.error ⟨.expected what, c.tokens[0]?.getD .eof⟩, c) := by
  rw [need, runFrom_bind, runFrom_next]
  dsimp only
  split
  · exact runFrom_skip c
  · exact runFrom_fail c _

/-- What a line gives, and the table that it leaves, come from running the reader of lines. -/
theorem ofTokens_eq (palette : Palette) (t : SlotTable) (tokens : List Token) :
    Rule.ofTokens palette t tokens =
      (((line palette).runFrom ⟨tokens, t⟩).1, ((line palette).runFrom ⟨tokens, t⟩).2.slots) :=
  rfl

end Running

/-! ## What a reader ensures -/

/-- From the table `t`, whatever the tokens are: the table afterwards continues `t`, and a result
    has the property `Q`, which may refer to that table. -/
def Ensures (t : SlotTable) (x : Reading α) (Q : α → SlotTable → Prop) : Prop :=
  ∀ tokens, t.Grows (x.runFrom ⟨tokens, t⟩).2.slots ∧
    ∀ a, (x.runFrom ⟨tokens, t⟩).1 = .ok a → Q a (x.runFrom ⟨tokens, t⟩).2.slots

namespace Ensures

variable {t : SlotTable} {x : Reading α} {f : α → Reading β} {P P' : α → SlotTable → Prop}
  {Q : β → SlotTable → Prop}

theorem pure {a : α} (h : P a t) : Ensures t (Pure.pure a) P := by
  intro tokens
  refine ⟨SlotTable.Grows.refl t, fun b hb => ?_⟩
  cases hb
  exact h

theorem throw (e : Mismatch) : Ensures t (MonadExcept.throw e : Reading α) P :=
  fun _ => ⟨SlotTable.Grows.refl t, fun _ h => by cases h⟩

theorem fail (cause : GrammarCause) : Ensures t (fail cause : Reading α) P := by
  intro tokens
  rw [runFrom_fail]
  exact ⟨SlotTable.Grows.refl t, fun _ h => by cases h⟩

/-- First one reader, then the other from where the first one stopped. -/
theorem bind (hx : Ensures t x P)
    (hf : ∀ a t', t.Grows t' → P a t' → Ensures t' (f a) Q) : Ensures t (x >>= f) Q := by
  intro tokens
  rw [runFrom_bind]
  obtain ⟨hgrows, hresult⟩ := hx tokens
  cases hrun : x.runFrom ⟨tokens, t⟩ with
  | mk result c =>
    obtain ⟨tokens', t'⟩ := c
    rw [hrun] at hgrows hresult
    cases result with
    | error e => exact ⟨hgrows, fun _ h => by cases h⟩
    | ok a =>
      obtain ⟨hgrows', hresult'⟩ := hf a t' hgrows (hresult a rfl) tokens'
      exact ⟨hgrows.trans hgrows', hresult'⟩

theorem mono (hx : Ensures t x P) (h : ∀ a t', P a t' → P' a t') : Ensures t x P' :=
  fun tokens => ⟨(hx tokens).1, fun a ha => h a _ ((hx tokens).2 a ha)⟩

/-- A reader that leaves the table alone, followed by another. -/
theorem bind_same {R : α → Prop} (hx : Ensures t x fun a t' => t' = t ∧ R a)
    (hf : ∀ a, R a → Ensures t (f a) Q) : Ensures t (x >>= f) Q := by
  refine hx.bind fun a t' _ h => ?_
  obtain ⟨rfl, ha⟩ := h
  exact hf a ha

theorem bind_keeps (hx : Ensures t x fun _ t' => t' = t) (hf : ∀ a, Ensures t (f a) Q) :
    Ensures t (x >>= f) Q := by
  refine hx.bind fun a t' _ h => ?_
  cases h
  exact hf a

/-! ### Primitives -/

theorem bind_next {f : Token → Reading β} (hf : ∀ token, Ensures t (f token) Q) :
    Ensures t (next >>= f) Q := by
  intro tokens
  rw [runFrom_bind, runFrom_next]
  exact hf _ tokens

theorem bind_lookahead {n : Nat} {f : Token → Reading β} (hf : ∀ token, Ensures t (f token) Q) :
    Ensures t (lookahead n >>= f) Q :=
  fun tokens => hf (tokens[n]?.getD .eof) tokens

theorem bind_remaining {f : Nat → Reading β} (hf : ∀ n, Ensures t (f n) Q) :
    Ensures t (remaining >>= f) Q :=
  fun tokens => hf tokens.length tokens

theorem bind_skip {f : Unit → Reading β} (hf : Ensures t (f ()) Q) : Ensures t (skip >>= f) Q :=
  fun tokens => hf tokens.tail

theorem bind_need {token : Token} {what : Wanted} {f : Unit → Reading β}
    (hf : Ensures t (f ()) Q) : Ensures t (need token what >>= f) Q := by
  intro tokens
  rw [runFrom_bind, runFrom_need]
  by_cases h : tokens[0]?.getD .eof = token
  · rw [if_pos h]
    exact hf tokens.tail
  · rw [if_neg h]
    exact ⟨SlotTable.Grows.refl t, fun _ h => by cases h⟩

/-- The slot of a name is known from then on. -/
theorem slotFor (name : String) : Ensures t (slotFor name) fun s t' => t'.Knows s := by
  intro tokens
  rw [runFrom_slotFor]
  refine ⟨t.grows_allocate name, fun s hs => ?_⟩
  cases hs
  exact t.knows_allocate name

end Ensures

end BlockAutomata.Script.Reading
