/-
  Lists of requests that differ in order only.

  1. What may differ is the order between requests for different cells; the requests for one cell
     keep their order.  Two ways of saying so: the lists have the same requests for every cell
     (`SameByCell`), and one list becomes the other by exchanging neighbours that are for different
     cells (`Reordered`).

  2. The first is what one can check of two lists, the second is what one can follow with a proof,
     one exchange at a time.  `reordered_of_sameByCell` leads from the first to the second: the
     head of the one list is moved to the front of the other.
-/
import BlockAutomata.Engine.World

namespace BlockAutomata.Engine

/-- The lists have the same requests for every cell, in the same order. -/
def SameByCell (l₁ l₂ : List Request) : Prop :=
  ∀ p, (l₁.filter fun r => r.cell = p) = l₂.filter fun r => r.cell = p

/-- One list becomes the other by exchanging neighbours that are for different cells. -/
inductive Reordered : List Request → List Request → Prop where
  | nil : Reordered [] []
  | cons (r : Request) {l₁ l₂ : List Request} (h : Reordered l₁ l₂) : Reordered (r :: l₁) (r :: l₂)
  | swap {a b : Request} (l : List Request) (h : a.cell ≠ b.cell) :
      Reordered (a :: b :: l) (b :: a :: l)
  | trans {l₁ l₂ l₃ : List Request} (h₁ : Reordered l₁ l₂) (h₂ : Reordered l₂ l₃) :
      Reordered l₁ l₃

theorem Reordered.refl (l : List Request) : Reordered l l := by
  induction l with
  | nil => exact nil
  | cons r rest ih => exact cons r ih

theorem Reordered.perm {l₁ l₂ : List Request} (h : Reordered l₁ l₂) : l₁.Perm l₂ := by
  induction h with
  | nil => exact List.Perm.nil
  | cons r h ih => exact ih.cons r
  | swap l h => exact List.Perm.swap _ _ _
  | trans h₁ h₂ ih₁ ih₂ => exact ih₁.trans ih₂

/-- A request moves past requests for other cells. -/
theorem reordered_append_cons {r : Request} {pre : List Request} (h : ∀ a ∈ pre, a.cell ≠ r.cell)
    (post : List Request) : Reordered (r :: (pre ++ post)) (pre ++ r :: post) := by
  induction pre with
  | nil => exact Reordered.refl _
  | cons a pre ih =>
    rw [List.forall_mem_cons] at h
    exact (Reordered.swap (pre ++ post) (Ne.symm h.1)).trans (Reordered.cons a (ih h.2))

theorem reordered_of_sameByCell {l₁ l₂ : List Request} (h : SameByCell l₁ l₂) :
    Reordered l₁ l₂ := by
  induction l₁ generalizing l₂ with
  | nil =>
    cases l₂ with
    | nil => exact Reordered.nil
    | cons r rest =>
      have hr := h r.cell
      rw [List.filter_cons_of_pos (by simp)] at hr
      cases hr
  | cons r rest ih =>
    have hr := h r.cell
    rw [List.filter_cons_of_pos (by simp)] at hr
    -- the first request for this cell in the other list is the same one
    obtain ⟨pre, post, rfl, hpre, -, hpost⟩ := List.filter_eq_cons_iff.1 hr.symm
    have hpre : ∀ a ∈ pre, a.cell ≠ r.cell := fun a ha => by simpa using hpre a ha
    refine Reordered.trans (Reordered.cons r (ih fun p => ?_)) (reordered_append_cons hpre post)
    rw [List.filter_append]
    by_cases hp : r.cell = p
    · subst hp
      have hnone : (pre.filter fun a => a.cell = r.cell) = [] :=
        List.filter_eq_nil_iff.2 fun a ha => by simpa using hpre a ha
      rw [hnone, hpost, List.nil_append]
    · have hother := h p
      rw [List.filter_cons_of_neg (by simpa using hp), List.filter_append,
        List.filter_cons_of_neg (by simpa using hp)] at hother
      exact hother

/-! ## What keeps the requests for every cell alike -/

theorem SameByCell.append {l₁ l₂ m₁ m₂ : List Request} (hl : SameByCell l₁ l₂)
    (hm : SameByCell m₁ m₂) : SameByCell (l₁ ++ m₁) (l₂ ++ m₂) := by
  intro p
  rw [List.filter_append, List.filter_append, hl p, hm p]

theorem SameByCell.filter {l₁ l₂ : List Request} (h : SameByCell l₁ l₂) (keep : Request → Bool) :
    SameByCell (l₁.filter keep) (l₂.filter keep) := by
  have hcomm : ∀ (l : List Request) (p : Cell),
      ((l.filter keep).filter fun r => r.cell = p) =
        (l.filter fun r => r.cell = p).filter keep := by
    intro l p
    rw [List.filter_filter, List.filter_filter]
    congr 1
    funext r
    exact Bool.and_comm _ _
  intro p
  rw [hcomm, hcomm, h p]

theorem SameByCell.map {l₁ l₂ : List Request} (h : SameByCell l₁ l₂) {f : Request → Request}
    (hf : ∀ r, (f r).cell = r.cell) : SameByCell (l₁.map f) (l₂.map f) := by
  intro p
  rw [List.filter_map, List.filter_map]
  have hcomp : (fun r : Request => decide (r.cell = p)) ∘ f = fun r => decide (r.cell = p) := by
    funext r
    rw [Function.comp_apply, hf]
  rw [hcomp, h p]

theorem SameByCell.perm {l₁ l₂ : List Request} (h : SameByCell l₁ l₂) : l₁.Perm l₂ :=
  (reordered_of_sameByCell h).perm

end BlockAutomata.Engine
