/-
  Where pushed blocks go.

  1. At one cell the answer of the rule has at most one action (`outcome_eq`), and what it makes of
     the block is `settled`: air takes over the block that enters, a block that leaves makes room
     for air, and every other block stays.

  2. Leaving and entering are judged at two cells, but from the same world.  Whatever enters a cell
     leaves the cell behind it (`leaving_of_entering`), and when a block leaves, some block enters
     the air in front of it (`exists_entering`) — the same block, unless several push into this air.
     Then the first direction has it, and the other blocks are crowded out.

  3. So the blocks after the step are those before, each in its old or its new place, but for the
     crowded-out ones, which are nowhere (`census_settled`).
-/
import BlockAutomata.Native.Sliding
import BlockAutomata.Proofs.Actions
import BlockAutomata.Proofs.Engine.Census
import BlockAutomata.Proofs.Engine.Sections

namespace BlockAutomata

namespace Native

/-! ## Directions -/

namespace Direction

theorem code_of_ofCode? {n : Int64} {d : Direction} (h : ofCode? n = some d) : n = d.code := by
  have hcode := List.find?_some h
  exact (beq_iff_eq.1 hcode).symm

theorem mem_all (d : Direction) : d ∈ all := by
  cases d <;> decide

end Direction

namespace Sliding

/-! ## Answers -/

/-- What the rule asks for at a cell. -/
def answer (v : View) : Option Action :=
  if v.own 0 = air then (received v true).map adopt
  else
    match pushing v with
    | some d => some (push v d)
    | none => (received v false).map inherit

/-- The outcome has at most one action. -/
theorem outcome_eq (v : View) : outcome v = .ofOption (answer v) := by
  unfold outcome answer
  split
  · rfl
  · cases pushing v <;> rfl

theorem actions_outcome (v : View) : (outcome v).actions = (answer v).toList := by
  rw [outcome_eq]
  cases answer v <;> rfl

/-- The direction in which a block pushes; air pushes nowhere. -/
def driving (v : View) : Option Direction := if v.own 0 = air then none else pushing v

/-- The direction in which a block leaves: it pushes, and there is air in front. -/
def leaving (v : View) : Option Direction :=
  (driving v).filter fun d => v.read d.offset 0 == air

/-- The push by which a block enters: there is air to enter. -/
def entering (v : View) : Option Push := if v.own 0 = air then received v true else none

/-- The block of the cell when the step is over. -/
def settled (v : View) : Int64 :=
  match entering v with
  | some p => p.block
  | none => if (leaving v).isSome then air else v.own 0

theorem own_ne_air_of_driving {v : View} {d : Direction} (h : driving v = some d) :
    v.own 0 ≠ air ∧ pushing v = some d := by
  unfold driving at h
  split at h
  · cases h
  · exact ⟨‹_›, h⟩

theorem leaving_eq_some_iff {v : View} {d : Direction} :
    leaving v = some d ↔ driving v = some d ∧ v.read d.offset 0 = air := by
  rw [leaving, Option.filter_eq_some_iff, beq_iff_eq]

/-- Each answer is to adopt what enters, to push, or to inherit a push. -/
theorem answer_cases {v : View} {a : Action} (h : answer v = some a) :
    (∃ p, entering v = some p ∧ a = adopt p) ∨ (∃ d, driving v = some d ∧ a = push v d) ∨
      (driving v = none ∧ entering v = none ∧ ∃ p, a = inherit p) := by
  unfold answer at h
  unfold driving entering
  split at h
  · rename_i hair
    obtain ⟨p, hp, rfl⟩ := Option.map_eq_some_iff.1 h
    exact Or.inl ⟨p, by rw [if_pos hair, hp], rfl⟩
  · rename_i hair
    rw [if_neg hair, if_neg hair]
    cases hd : pushing v with
    | some d =>
      rw [hd] at h
      exact Or.inr (Or.inl ⟨d, rfl, (Option.some.inj h).symm⟩)
    | none =>
      rw [hd] at h
      obtain ⟨p, -, rfl⟩ := Option.map_eq_some_iff.1 h
      exact Or.inr (Or.inr ⟨rfl, rfl, p, rfl⟩)

/-- Where nothing is answered, no block pushes and none enters. -/
theorem of_answer_eq_none {v : View} (h : answer v = none) :
    driving v = none ∧ entering v = none := by
  unfold answer at h
  unfold driving entering
  split at h
  · rename_i hair
    rw [if_pos hair, if_pos hair]
    exact ⟨rfl, Option.map_eq_none_iff.1 h⟩
  · rename_i hair
    rw [if_neg hair, if_neg hair]
    cases hd : pushing v with
    | some d => rw [hd] at h; cases h
    | none => exact ⟨rfl, rfl⟩

theorem answer_of_driving {v : View} {d : Direction} (h : driving v = some d) :
    answer v = some (push v d) := by
  obtain ⟨hsolid, hd⟩ := own_ne_air_of_driving h
  rw [answer, if_neg hsolid, hd]

/-- A block that is still there when the step is over has not left. -/
theorem leaving_eq_none_of_settled {v : View} (hsolid : v.own 0 ≠ air) (h : settled v ≠ air) :
    leaving v = none := by
  rw [settled, entering, if_neg hsolid] at h
  rw [← Option.not_isSome_iff_eq_none]
  intro hleaves
  rw [if_pos hleaves] at h
  exact h rfl

/-- The outcome makes of the block what it is when the step is over. -/
theorem applied_outcome (v : View) : (outcome v).applied v.own 0 = settled v := by
  rw [outcome_eq, settled]
  cases ha : answer v with
  | none =>
    obtain ⟨hd, he⟩ := of_answer_eq_none ha
    rw [he, leaving, hd]
    rfl
  | some a =>
    show a.applied v.own 0 = _
    rcases answer_cases ha with ⟨p, hp, rfl⟩ | ⟨d, hd, rfl⟩ | ⟨hd, he, p, rfl⟩
    · rw [hp]
      rfl
    · have he : entering v = none := if_neg (own_ne_air_of_driving hd).1
      have hpush : (push v d).applied v.own 0 =
          if (v.read d.offset 0 == air) = true then air else v.own 0 := rfl
      rw [he, leaving, hd, hpush, Option.filter_some]
      split <;> rfl
    · rw [he, leaving, hd]
      rfl

/-- Answers are due at once and without a condition. -/
theorem answer_unguarded {v : View} {a : Action} (h : answer v = some a) :
    a.delay = 0 ∧ a.guard = none := by
  rcases answer_cases h with ⟨p, -, rfl⟩ | ⟨d, -, rfl⟩ | ⟨-, -, p, rfl⟩ <;> exact ⟨rfl, rfl⟩

/-! ## Pushes -/

/-- The push of a direction comes from the cell behind. -/
theorem pushFrom_eq_some {v : View} {carrying : Bool} {d : Direction} {p : Push}
    (h : pushFrom v carrying d = some p) :
    (carrying = true → v.read (-d.offset) 0 ≠ air) ∧
      v.read (-d.offset) directionSlot = d.code ∧ 0 < v.read (-d.offset) strengthSlot ∧
      p.direction = d ∧ p.block = v.read (-d.offset) 0 := by
  unfold pushFrom at h
  dsimp only at h
  split at h
  · rename_i hpush
    obtain rfl := Option.some.inj h
    exact ⟨hpush.1, hpush.2.1, hpush.2.2, rfl, rfl⟩
  · cases h

/-- What enters does so by the push of its direction, into air. -/
theorem pushFrom_of_entering {v : View} {p : Push} (h : entering v = some p) :
    v.own 0 = air ∧ pushFrom v true p.direction = some p := by
  unfold entering at h
  split at h
  · obtain ⟨d, -, hd⟩ := List.exists_of_findSome?_eq_some h
    rw [(pushFrom_eq_some hd).2.2.2.1]
    exact ⟨‹_›, hd⟩
  · cases h

end Sliding

end Native

/-! ## Leaving and entering -/

namespace Engine.World

open Native Native.Sliding

variable {w : World} {p : Cell}

/-- What enters a cell leaves the cell behind it. -/
theorem leaving_of_entering {push : Push} (h : entering (w.viewAt p) = some push) :
    leaving (w.viewAt (p.move (-push.direction.offset))) = some push.direction ∧
      w.read (p.move (-push.direction.offset)) 0 = push.block := by
  obtain ⟨hair, hpush⟩ := pushFrom_of_entering h
  obtain ⟨hsolid, hcode, hstrength, -, hblock⟩ := pushFrom_eq_some hpush
  have hbehind : ∀ slot, (w.viewAt p).read (-push.direction.offset) slot =
      (w.viewAt (p.move (-push.direction.offset))).own slot := fun slot => (own_viewAt _ _ _).symm
  rw [hbehind] at hsolid hcode hstrength hblock
  refine ⟨leaving_eq_some_iff.2 ⟨?_, ?_⟩, by rw [← own_viewAt, hblock]⟩
  · rw [driving, if_neg (hsolid rfl), pushing, if_pos hstrength, hcode, Direction.ofCode?_code]
  · show w.read ((p.move (-push.direction.offset)).move push.direction.offset) 0 = air
    rw [Cell.move_neg_move, ← own_viewAt]
    exact hair

/-- When a block leaves, some block enters the air in front of it. -/
theorem exists_entering {d : Direction} (h : leaving (w.viewAt p) = some d) :
    ∃ push, entering (w.viewAt (p.move d.offset)) = some push := by
  obtain ⟨hdriving, hair⟩ := leaving_eq_some_iff.1 h
  obtain ⟨hsolid, hpushing⟩ := own_ne_air_of_driving hdriving
  have hbehind : ∀ slot, (w.viewAt (p.move d.offset)).read (-d.offset) slot =
      (w.viewAt p).own slot := by
    intro slot
    show w.read ((p.move d.offset).move (-d.offset)) slot = _
    rw [Cell.move_move_neg, own_viewAt]
  have hpush : (pushFrom (w.viewAt (p.move d.offset)) true d).isSome = true := by
    unfold pushing at hpushing
    split at hpushing
    · rename_i hstrength
      unfold pushFrom
      dsimp only
      rw [hbehind, hbehind, hbehind,
        if_pos ⟨fun _ => hsolid, Direction.code_of_ofCode? hpushing, hstrength⟩]
      rfl
    · cases hpushing
  have hown : (w.viewAt (p.move d.offset)).own 0 = air := by
    rw [own_viewAt]
    exact hair
  rw [entering, if_pos hown, ← Option.isSome_iff_exists, received, List.findSome?_isSome_iff]
  exact ⟨d, d.mem_all, hpush⟩

/-- The block leaves, but another one enters the air in front of it. -/
def crowdedOut (w : World) (p : Cell) : Bool :=
  match leaving (w.viewAt p) with
  | some d => (entering (w.viewAt (p.move d.offset))).map Push.direction != some d
  | none => false

/-- The blocks of the cells that are crowded out. -/
def lost (w : World) : Multiset Int64 :=
  (w.terrain.solid.val.filter fun p => w.crowdedOut p = true).map w.terrain.block

/-- Where the block of a cell is when the step is over. -/
def destination (w : World) (p : Cell) : Cell :=
  match leaving (w.viewAt p) with
  | some d => p.move d.offset
  | none => p

/-- Where the block that is in a cell when the step is over was before. -/
def origin (w : World) (p : Cell) : Cell :=
  match entering (w.viewAt p) with
  | some push => p.move (-push.direction.offset)
  | none => p

/-- Every block that is there in the end was there before, was not crowded out, and has reached its
    destination. -/
theorem origin_spec (h : settled (w.viewAt p) ≠ air) :
    settled (w.viewAt p) = w.read (w.origin p) 0 ∧ w.crowdedOut (w.origin p) = false ∧
      w.destination (w.origin p) = p := by
  unfold settled at h ⊢
  unfold origin
  cases hentering : entering (w.viewAt p) with
  | some push =>
    obtain ⟨hleaving, hblock⟩ := leaving_of_entering hentering
    dsimp only
    rw [crowdedOut, destination, hleaving]
    dsimp only
    rw [Cell.move_neg_move, hentering]
    exact ⟨hblock.symm, bne_self_eq_false _, rfl⟩
  | none =>
    rw [hentering] at h
    dsimp only at h ⊢
    cases hleaving : leaving (w.viewAt p) with
    | some d =>
      rw [hleaving] at h
      exact absurd rfl h
    | none =>
      rw [crowdedOut, destination, hleaving, own_viewAt]
      exact ⟨rfl, rfl, rfl⟩

/-- Every block that is not crowded out is at its destination in the end. -/
theorem destination_spec (hsolid : w.read p 0 ≠ air) (hkept : w.crowdedOut p = false) :
    settled (w.viewAt (w.destination p)) ≠ air ∧ w.origin (w.destination p) = p := by
  unfold crowdedOut at hkept
  unfold destination
  cases hleaving : leaving (w.viewAt p) with
  | some d =>
    rw [hleaving] at hkept
    obtain ⟨push, hentering⟩ := exists_entering hleaving
    dsimp only at hkept ⊢
    rw [hentering] at hkept
    have hd : push.direction = d := Option.some.inj (bne_eq_false_iff_eq.1 hkept)
    have hblock := (leaving_of_entering hentering).2
    rw [hd, Cell.move_move_neg] at hblock
    rw [settled, origin, hentering]
    dsimp only
    rw [hd, Cell.move_move_neg, ← hblock]
    exact ⟨hsolid, rfl⟩
  | none =>
    have hentering : entering (w.viewAt p) = none := by
      rw [entering, own_viewAt, if_neg hsolid]
    dsimp only
    rw [settled, origin, hentering, hleaving, own_viewAt]
    exact ⟨hsolid, rfl⟩

/-- If each cell settles, the blocks are those from before without the crowded-out ones. -/
theorem census_settled (hblock : ∀ p, w.read p 0 = w.terrain.block p) {t : Terrain}
    (ht : ∀ p, t.block p = settled (w.viewAt p)) : t.census + w.lost = w.terrain.census := by
  refine Terrain.census_add_of_matching w.origin w.destination ?_ ?_
  · intro p hp
    rw [ht] at hp ⊢
    rw [← hblock]
    exact origin_spec hp
  · intro p hp hkept
    rw [← hblock] at hp
    rw [ht]
    exact destination_spec hp hkept

/-- Nothing is lost if, and only if, no block is crowded out. -/
theorem lost_eq_zero_iff (hblock : ∀ p, w.read p 0 = w.terrain.block p) :
    w.lost = 0 ↔ ∀ p, w.crowdedOut p = false := by
  rw [lost, Multiset.map_eq_zero, Multiset.filter_eq_nil]
  constructor
  · intro h p
    refine Bool.eq_false_iff.2 fun hp => h p (Terrain.mem_solid.2 ?_) hp
    unfold crowdedOut at hp
    cases hleaving : leaving (w.viewAt p) with
    | some d =>
      rw [← hblock, ← own_viewAt]
      exact (own_ne_air_of_driving (leaving_eq_some_iff.1 hleaving).1).1
    | none =>
      rw [hleaving] at hp
      cases hp
  · exact fun h p _ hp => Bool.false_ne_true ((h p).symm.trans hp)

end Engine.World

end BlockAutomata
