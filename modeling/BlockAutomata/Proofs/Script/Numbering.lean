/-
  What reading line after line does to a draft.

  1. A line of tokens is added as a whole or not at all, and in both cases the slot table goes on
     from where it was (`addTokens_cases`).  A line of text that cannot be cut into tokens changes
     nothing but the number of lines.

  2. So every step from one draft to the next continues the slot table and keeps the draft in order
     (`Orderly`): the slots are numbered, and every rule has the shape of the grammar, with slots
     that the table knows.

  3. By induction this holds of every draft that can be reached, also through lines that fail
     (`orderly_after`), and a name keeps its slot from then on (`grows_after`).
-/
import BlockAutomata.Proofs.Script.Shapes
import BlockAutomata.Script.Draft

namespace BlockAutomata.Script.Draft

variable {palette : Palette} {d : Draft}

/-! ## Reachable drafts -/

/-- A line to be added, as tokens or as text. -/
inductive Entry where
  | tokens (tokens : List Token)
  | text (text : String)

/-- The draft after one more line, which may have failed. -/
def add (palette : Palette) (d : Draft) : Entry → Draft
  | .tokens tokens => (d.addTokens palette tokens).2
  | .text text => (d.addLine palette text).2

/-- The draft after the lines. -/
def after (palette : Palette) (entries : List Entry) : Draft := entries.foldl (add palette) empty

/-- The drafts that can be reached. -/
def Reached (palette : Palette) (d : Draft) : Prop := ∃ entries, d = after palette entries

theorem after_append (palette : Palette) (earlier later : List Entry) :
    after palette (earlier ++ later) = later.foldl (add palette) (after palette earlier) :=
  List.foldl_append

/-! ## One line -/

/-- A good line adds its rules, a bad line none.  Either way the slot table goes on. -/
theorem addTokens_cases (palette : Palette) (d : Draft) (tokens : List Token) :
    ∃ slots, d.slots.Grows slots ∧
      ((∃ rules, d.addTokens palette tokens =
          (.ok rules.length, ⟨d.rules ++ rules, slots, d.lines + 1⟩) ∧
            ∀ r ∈ rules, r.IsShaped slots.Knows) ∨
        ∃ e, d.addTokens palette tokens = (.error e, ⟨d.rules, slots, d.lines + 1⟩)) := by
  obtain ⟨hgrows, hshaped⟩ := Reading.ensures_line d.slots palette tokens
  refine ⟨_, hgrows, ?_⟩
  rw [addTokens, Reading.ofTokens_eq]
  cases hresult : ((Reading.line palette).runFrom ⟨tokens, d.slots⟩).1 with
  | ok rules => exact Or.inl ⟨rules, rfl, hshaped rules hresult⟩
  | error e => exact Or.inr ⟨_, rfl⟩

/-- Slots are numbered, and the rules have the shape of rules with known slots. -/
structure Orderly (d : Draft) : Prop where
  numbered : d.slots.Numbered
  shaped : ∀ r ∈ d.rules, r.IsShaped d.slots.Knows

theorem orderly_empty : empty.Orderly :=
  ⟨SlotTable.numbered_empty, fun _ hr => absurd hr List.not_mem_nil⟩

theorem step_addTokens (palette : Palette) (d : Draft) (tokens : List Token) :
    d.slots.Grows (d.addTokens palette tokens).2.slots ∧
      (d.Orderly → (d.addTokens palette tokens).2.Orderly) := by
  obtain ⟨slots, hgrows, ⟨rules, h, hshaped⟩ | ⟨e, h⟩⟩ := addTokens_cases palette d tokens
  · rw [h]
    refine ⟨hgrows, fun hd => ⟨hgrows.numbered hd.numbered, fun r hr => ?_⟩⟩
    rcases List.mem_append.1 hr with hr | hr
    · exact (hd.shaped r hr).mono fun _ => hgrows.knows
    · exact hshaped r hr
  · rw [h]
    exact ⟨hgrows, fun hd => ⟨hgrows.numbered hd.numbered,
      fun r hr => (hd.shaped r hr).mono fun _ => hgrows.knows⟩⟩

/-- One more line, good or bad, continues the slot table and keeps the draft in order. -/
theorem step_add (palette : Palette) (d : Draft) (entry : Entry) :
    d.slots.Grows (d.add palette entry).slots ∧ (d.Orderly → (d.add palette entry).Orderly) := by
  cases entry with
  | tokens tokens => exact step_addTokens palette d tokens
  | text text =>
    rw [add, addLine]
    split
    · exact ⟨SlotTable.Grows.refl _, fun hd => ⟨hd.numbered, hd.shaped⟩⟩
    · exact step_addTokens palette d _

/-! ## All lines -/

theorem step_foldl_add (palette : Palette) (d : Draft) (entries : List Entry) :
    d.slots.Grows (entries.foldl (add palette) d).slots ∧
      (d.Orderly → (entries.foldl (add palette) d).Orderly) := by
  induction entries generalizing d with
  | nil => exact ⟨SlotTable.Grows.refl _, id⟩
  | cons entry entries ih =>
    obtain ⟨hgrows, horderly⟩ := step_add palette d entry
    obtain ⟨hgrows', horderly'⟩ := ih (d.add palette entry)
    exact ⟨hgrows.trans hgrows', horderly' ∘ horderly⟩

/-- Every draft that can be reached is in order. -/
theorem orderly_after (palette : Palette) (entries : List Entry) :
    (after palette entries).Orderly :=
  (step_foldl_add palette empty entries).2 orderly_empty

theorem Reached.orderly (h : d.Reached palette) : d.Orderly := by
  obtain ⟨entries, rfl⟩ := h
  exact orderly_after palette entries

/-- Later lines continue the slot table. -/
theorem grows_after (palette : Palette) (earlier later : List Entry) :
    (after palette earlier).slots.Grows (after palette (earlier ++ later)).slots := by
  rw [after_append]
  exact (step_foldl_add palette (after palette earlier) later).1

end BlockAutomata.Script.Draft
