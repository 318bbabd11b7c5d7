/-
  A window shows rules all that they can see.

  1. Every read that an evaluation comes to lies within a distance that the tree names, for the
     norm of a sum of displacements is at most the sum of their norms (`reads_lieWithin`).
     Together with the bound on slots, a radius and a number of channels enclose all reads.

  2. Views that show the same inside these bounds therefore have the same outcome
     (`outcome_of_agreeWithin`).

  3. A window shows what the view showed from which it was copied, inside its cube and in the
     channels of the view, and 0 elsewhere (`read_ofView`).  So rules answer to the window as they
     answer to the view.

  4. A view can be copied out as far as the places in the window are numbers of 32 bits, which is up
     to a radius of 644 (`Window.volume_lt_iff`).  Rules may look further, and then no window shows
     what they see (`exists_window_too_large`).
-/
import BlockAutomata.Proofs.Script.Footprint
import BlockAutomata.Proofs.Script.Locality
import BlockAutomata.Proofs.Script.SlotTables
import BlockAutomata.Proofs.Windows

namespace BlockAutomata

/-- The views show the same in the channels below a bound, at every offset within a radius. -/
def View.AgreeWithin (radius channels : Nat) (v₁ v₂ : View) : Prop :=
  ∀ o : Offset, o.norm ≤ radius → ∀ slot < channels, v₁.read o slot = v₂.read o slot

/-! ## Windows copied from views -/

section

variable {radius : Nat} (hsize : windowVolume radius < 0x80000000)

/-- The planes of a window that was copied from a view. -/
theorem Window.getElem?_planes_ofView (v : View) (slot : Nat) :
    (ofView v radius hsize).planes[slot]? =
      if slot < max v.channels 1 then
        some (Vector.ofFn fun i : Fin (windowVolume radius) => v.read (offsetOf radius i) slot)
      else none := by
  show (((List.range (max v.channels 1)).map fun k =>
    Vector.ofFn fun i : Fin (windowVolume radius) => v.read (offsetOf radius i) k).toArray)[slot]?
      = _
  rw [List.getElem?_toArray, List.getElem?_map]
  split
  · rename_i hslot
    rw [List.getElem?_range hslot]
    rfl
  · rename_i hslot
    have hlength : (List.range (max v.channels 1)).length ≤ slot := by
      rw [List.length_range]
      exact Nat.le_of_not_lt hslot
    rw [List.getElem?_eq_none hlength]
    rfl

/-- What a window shows that was copied from a view. -/
theorem Window.read_ofView (v : View) (o : Offset) (slot : Nat) :
    (ofView v radius hsize).read o slot =
      if o.norm ≤ radius ∧ slot < max v.channels 1 then v.read o slot else 0 := by
  by_cases hnorm : o.norm ≤ radius
  case neg => rw [read_of_lt_norm (Nat.lt_of_not_le hnorm), if_neg fun h => hnorm h.1]
  case pos =>
    obtain ⟨i, hi⟩ : ∃ i, (ofView v radius hsize).position? o = some i :=
      exists_position?_iff.2 hnorm
    obtain ⟨ho, hbound⟩ : offsetOf radius i = o ∧ i < windowVolume radius :=
      offsetOf_of_position? hi
    rw [read_eq, hi, Option.bind_some, getElem?_planes_ofView]
    by_cases hslot : slot < max v.channels 1
    · have hentry : (Vector.ofFn fun i : Fin (windowVolume radius) =>
          v.read (offsetOf radius i) slot)[i]? = some (v.read o slot) := by
        rw [Vector.getElem?_ofFn, dif_pos hbound, ho]
      rw [if_pos hslot, if_pos ⟨hnorm, hslot⟩]
      exact congrArg (Option.getD · 0) hentry
    · rw [if_neg hslot, if_neg fun h => hslot h.2]
      rfl

/-- Inside its cube, a window agrees with the view from which it was copied. -/
theorem View.agreeWithin_ofView {v : View} {channels : Nat} (h : channels ≤ v.channels) :
    (Window.ofView v radius hsize).view.AgreeWithin radius channels v := by
  intro o ho slot hslot
  show (Window.ofView v radius hsize).read o slot = _
  rw [Window.read_ofView, if_pos ⟨ho, by omega⟩]

end

namespace Script

/-! ## How far the reads lie -/

/-- Every read lies within one of the distances. -/
def LieWithin (distances : List Nat) (reads : List (Offset × Nat)) : Prop :=
  ∀ r ∈ reads, ∃ d ∈ distances, r.1.norm ≤ d

theorem lieWithin_nil (distances : List Nat) : LieWithin distances [] :=
  fun _ hr => absurd hr List.not_mem_nil

theorem lieWithin_self (o : Offset) (slots : List Nat) :
    LieWithin [o.norm] (slots.map fun s => (o, s)) := by
  intro r hr
  obtain ⟨s, -, rfl⟩ := List.mem_map.1 hr
  exact ⟨o.norm, List.mem_cons_self, Nat.le_refl _⟩

theorem LieWithin.append {d₁ d₂ : List Nat} {r₁ r₂ : List (Offset × Nat)}
    (h₁ : LieWithin d₁ r₁) (h₂ : LieWithin d₂ r₂) : LieWithin (d₁ ++ d₂) (r₁ ++ r₂) := by
  intro r hr
  rcases List.mem_append.1 hr with hr | hr
  · obtain ⟨d, hd, hnorm⟩ := h₁ r hr
    exact ⟨d, List.mem_append_left _ hd, hnorm⟩
  · obtain ⟨d, hd, hnorm⟩ := h₂ r hr
    exact ⟨d, List.mem_append_right _ hd, hnorm⟩

theorem LieWithin.flatMap {α : Type} {l : List α} {d : α → List Nat}
    {r : α → List (Offset × Nat)} (h : ∀ a ∈ l, LieWithin (d a) (r a)) :
    LieWithin (l.flatMap d) (l.flatMap r) := by
  intro x hx
  obtain ⟨a, ha, hx⟩ := List.mem_flatMap.1 hx
  obtain ⟨k, hk, hnorm⟩ := h a ha x hx
  exact ⟨k, List.mem_flatMap.2 ⟨a, ha, hk⟩, hnorm⟩

/-- Reads that are made from a neighbour lie further away by the norm of its offset. -/
theorem LieWithin.shift {distances : List Nat} {reads : List (Offset × Nat)}
    (h : LieWithin distances reads) (o : Offset) :
    LieWithin (distances.map (o.norm + ·)) (reads.map fun r => (o + r.1, r.2)) := by
  intro x hx
  obtain ⟨r, hr, rfl⟩ := List.mem_map.1 hx
  obtain ⟨d, hd, hnorm⟩ := h r hr
  have hsum := o.norm_add_le r.1
  exact ⟨o.norm + d, List.mem_map.2 ⟨d, hd, rfl⟩, by dsimp only; omega⟩

/-- Reads that are not made lie within any distances. -/
theorem LieWithin.ite {distances : List Nat} {reads : List (Offset × Nat)}
    (h : LieWithin distances reads) (made : Bool) :
    LieWithin distances (if made then reads else []) := by
  cases made with
  | true => exact h
  | false => exact lieWithin_nil distances

mutual

/-- No read of an expression lies further away than the distances in it say. -/
theorem Expr.reads_lieWithin : ∀ (e : Expr) (v : View), LieWithin e.distances (e.reads v)
  | .literal _, _ => lieWithin_nil _
  | .channel s, _ => lieWithin_self Offset.zero [s]
  | .neighbor o s, _ => lieWithin_self o [s]
  | .count _ c, v => LieWithin.flatMap fun o _ => (c.reads_lieWithin (v.shift o)).shift o
  | .sign l r, v => (l.reads_lieWithin v).append (r.reads_lieWithin v)
  | .arith l r _, v => (l.reads_lieWithin v).append (r.reads_lieWithin v)

theorem Cond.reads_lieWithin : ∀ (c : Cond) (v : View), LieWithin c.distances (c.reads v)
  | .all cs, v => Cond.readsAll_lieWithin cs v
  | .not c, v => c.reads_lieWithin v
  | .equal l r, v => (l.reads_lieWithin v).append (r.reads_lieWithin v)

theorem Cond.readsAll_lieWithin : ∀ (cs : List Cond) (v : View),
    LieWithin (Cond.distancesAll cs) (Cond.readsAll cs v)
  | [], _ => lieWithin_nil _
  | c :: cs, v => (c.reads_lieWithin v).append ((Cond.readsAll_lieWithin cs v).ite _)

end

theorem Effect.reads_lieWithin (channels : Nat) (v : View) :
    ∀ e : Effect, LieWithin e.distances (e.reads channels v)
  | .set _ e => e.reads_lieWithin v
  | .copy o => lieWithin_self o (List.range channels)
  | .raise _ none => lieWithin_nil _
  | .raise _ (some e) => e.reads_lieWithin v

theorem Rule.reads_lieWithin (channels : Nat) (v : View) (r : Rule) :
    LieWithin r.distances (r.reads channels v) :=
  (r.condition.reads_lieWithin v).append
    ((LieWithin.flatMap fun e _ => e.reads_lieWithin channels v).ite _)

namespace Interpreter

variable {i : Interpreter} {radius : Nat}

/-- No read of an interpreter lies outside the radius of its rules. -/
theorem norm_le_of_mem_reads (hreads : ReadsWithin i.rules radius) {v : View}
    {r : Offset × Nat} (hr : r ∈ i.reads v) : r.1.norm ≤ radius := by
  rcases List.mem_append.1 hr with hr | hr
  · obtain ⟨q, hq, hr⟩ := List.mem_flatMap.1 hr
    obtain ⟨d, hd, hnorm⟩ := q.reads_lieWithin i.channels v r hr
    exact Nat.le_trans hnorm (hreads q hq d hd)
  · obtain ⟨e, -, rfl⟩ := List.mem_map.1 hr
    exact Nat.zero_le radius

/-- Views that agree within the radius and the channels of an interpreter have the same outcome. -/
theorem outcome_of_agreeWithin (hcovers : i.Covers) (hreads : ReadsWithin i.rules radius)
    {v₁ v₂ : View} (h : v₁.AgreeWithin radius i.channels v₂) : i.outcome v₁ = i.outcome v₂ :=
  outcome_of_agreeOn fun r hr =>
    h r.1 (norm_le_of_mem_reads hreads hr) r.2 (lt_channels_of_mem_reads hcovers hr)

/-- Rules that look no further than a radius answer to a window of this radius as they answer to the
    view from which it was copied, provided that the view has their channels and the window is not
    too large to be copied out; and they answer alike to any two views that agree within the radius
    in these channels. -/
theorem outcome_decided_within {rules : List Rule} {radius : Nat}
    (hreads : ReadsWithin rules radius) (slots : SlotTable) :
    (windowVolume radius < 0x80000000 →
      ∀ v : View, (ofRules rules slots).channels ≤ v.channels →
        ∃ w, Window.ofView? v radius = some w ∧
          (ofRules rules slots).outcome w.view = (ofRules rules slots).outcome v) ∧
    ∀ v₁ v₂ : View, v₁.AgreeWithin radius (ofRules rules slots).channels v₂ →
      (ofRules rules slots).outcome v₁ = (ofRules rules slots).outcome v₂ := by
  have hcovers := covers_ofRules rules slots
  refine ⟨fun hsize v hchannels => ⟨Window.ofView v radius hsize, dif_pos hsize, ?_⟩,
    fun v₁ v₂ h => outcome_of_agreeWithin hcovers hreads h⟩
  exact outcome_of_agreeWithin hcovers hreads (View.agreeWithin_ofView hsize hchannels)

/-- A cell becomes 3 when its eastern neighbour has an eastern neighbour of block 1. -/
def farRules : List Rule :=
  [⟨.equal (.count [⟨1, 0, 0⟩] (.equal (.count [⟨1, 0, 0⟩] (.isBlock 1)) (.literal 1)))
      (.literal 1), [.set 0 (.literal 3)]⟩]

/-- The only block is a 1, two cells to the east. -/
def farView : View := ⟨fun o slot => if o = ⟨2, 0, 0⟩ ∧ slot = 0 then 1 else 0, 1⟩

theorem channels_farRules_le :
    (ofRules farRules OrderedMap.empty).channels ≤ farView.channels := by
  show max (channelsNeeded farRules) (SlotTable.namesBySlot OrderedMap.empty).length.succ ≤ 1
  rw [SlotTable.numbered_empty.namesBySlot_eq]
  decide

/-- Nested counts look two cells far: a window of radius 2 shows what they need, and one of radius 1
    does not. -/
theorem outcome_decided_within_far :
    ReadsWithin farRules 2 ∧
      (ofRules farRules OrderedMap.empty).outcome (Window.ofView farView 2).view =
        .one (Action.write (SlotMap.ofList [(0, 3)])) ∧
      (ofRules farRules OrderedMap.empty).outcome (Window.ofView farView 1).view = .idle := by
  have hreads : ReadsWithin farRules 2 := by unfold ReadsWithin; decide
  refine ⟨hreads, ?_, by decide⟩
  obtain ⟨w, hw, houtcome⟩ :=
    (outcome_decided_within hreads OrderedMap.empty).1 (by decide) farView channels_farRules_le
  obtain rfl : Window.ofView farView 2 = w := Option.some.inj hw
  rw [houtcome]
  decide

/-- The same rules look no further than 645 or 600000 cells and have an outcome, but windows of
    these radii are too large to be copied out: on 32 bits, the place of the last corner wraps
    around to one that is beyond the window. -/
theorem exists_window_too_large :
    ReadsWithin farRules 645 ∧ ReadsWithin farRules 600000 ∧ 600000 < 0x20000000 ∧
      (ofRules farRules OrderedMap.empty).channels ≤ farView.channels ∧
      (ofRules farRules OrderedMap.empty).outcome farView =
        .one (Action.write (SlotMap.ofList [(0, 3)])) ∧
      (∃ i, Window.indexOf? 645 ⟨645, 645, 645⟩ = some i ∧ windowVolume 645 ≤ i) ∧
      Window.ofView? farView 645 = none ∧ Window.ofView? farView 600000 = none := by
  refine ⟨by unfold ReadsWithin; decide, by unfold ReadsWithin; decide, by decide,
    channels_farRules_le, by decide, ⟨_, rfl, by decide⟩, dif_neg (by decide),
    dif_neg (by decide)⟩

end Interpreter

end Script

end BlockAutomata
