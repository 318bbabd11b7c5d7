/-
  Turns that differ only in the order of things.

  1. Two worlds have the same cells when every question about a cell or a section has the same
     answer in both (`SameCells`).  How the sections are ordered is not asked.

  2. Two turns are alike when their worlds have the same cells, the counts are the same, and for
     each cell the events and the change records that came since the beginning are the same, in the
     same order (`Turn.Alike`).

  3. Applying a request respects this (`Alike.apply`).  Two requests for different cells may be
     exchanged (`alike_swap`), provided that neither waits for storage which the other might bring
     about.
-/
import BlockAutomata.Proofs.Engine.Phases
import BlockAutomata.Proofs.Engine.Reordering
import BlockAutomata.Proofs.Records

namespace BlockAutomata.Engine

/-! ## Records of one cell -/

/-- The records of a cell, out of the records of its section. -/
def recordsOf (p : Cell) (records : List Int64) : List Int64 :=
  records.filter fun record => ChangeRecord.offset record = Offset.ofIndex p.index

/-- Among the cells of a section, a record belongs to the one that it was made for. -/
theorem recordsOf_singleton {p q : Cell} (h : p.home = q.home) (value : Int64) :
    recordsOf p [ChangeRecord.encode q value] =
      if q = p then [ChangeRecord.encode q value] else [] := by
  have hiff : Offset.ofIndex q.index = Offset.ofIndex p.index ↔ q = p := by
    constructor
    · intro ho
      rw [← q.home_cell_index, ← p.home_cell_index, Section.cell, Section.cell, ho, h]
    · intro hqp
      rw [hqp]
  rw [recordsOf, List.filter_cons, List.filter_nil, ChangeRecord.offset_encode]
  simp only [hiff, decide_eq_true_eq]

/-! ## Worlds with the same cells -/

namespace World

/-- The events raised at a cell. -/
def eventsAt (w : World) (p : Cell) : List Event :=
  (w.events.toList.filter fun e => e.cell = p).map RaisedEvent.event

/-- Every question about a cell or a section has the same answer. -/
structure SameCells (w₁ w₂ : World) : Prop where
  rule : w₁.rule = w₂.rule
  channelsAt : ∀ s, w₁.channelsAt s = w₂.channelsAt s
  read : ∀ p slot, w₁.read p slot = w₂.read p slot
  tracks : ∀ p, w₁.tracks p = w₂.tracks p
  block : ∀ p, w₁.terrain.block p = w₂.terrain.block p
  isLoaded : ∀ s, w₁.terrain.isLoaded s = w₂.terrain.isLoaded s

namespace SameCells

variable {w₁ w₂ w₃ : World}

theorem refl (w : World) : SameCells w w :=
  ⟨rfl, fun _ => rfl, fun _ _ => rfl, fun _ => rfl, fun _ => rfl, fun _ => rfl⟩

theorem trans (h : SameCells w₁ w₂) (h' : SameCells w₂ w₃) : SameCells w₁ w₃ where
  rule := h.rule.trans h'.rule
  channelsAt := fun s => (h.channelsAt s).trans (h'.channelsAt s)
  read := fun p slot => (h.read p slot).trans (h'.read p slot)
  tracks := fun p => (h.tracks p).trans (h'.tracks p)
  block := fun p => (h.block p).trans (h'.block p)
  isLoaded := fun s => (h.isLoaded s).trans (h'.isLoaded s)

variable (h : SameCells w₁ w₂)

include h

theorem keeps (s : Section) : w₁.keeps s = w₂.keeps s := by
  rw [World.keeps, World.keeps, h.channelsAt, h.isLoaded]

theorem admits (r : Request) : w₁.admits r = w₂.admits r := by
  rw [World.admits, World.admits, h.channelsAt, funext (h.read r.cell)]

theorem attempted (r : Request) : w₁.attempted r = w₂.attempted r := by
  rw [World.attempted, World.attempted, h.channelsAt, funext (h.read r.cell)]

theorem modifiedBy (r : Request) : w₁.modifiedBy r = w₂.modifiedBy r := by
  rw [World.modifiedBy, World.modifiedBy, h.channelsAt, funext (h.read r.cell)]

theorem evaluate (p : Cell) : Turn.evaluate w₁ p = Turn.evaluate w₂ p := by
  have hview : w₁.viewAt p = w₂.viewAt p := by
    have hread : (w₁.viewAt p).read = (w₂.viewAt p).read := by
      funext o slot
      exact h.read (p.move o) slot
    have hchannels : (w₁.viewAt p).channels = (w₂.viewAt p).channels :=
      congrArg LocalRule.channels h.rule
    cases h₁ : w₁.viewAt p
    cases h₂ : w₂.viewAt p
    rw [h₁, h₂] at hread hchannels
    exact congr (congrArg View.mk hread) hchannels
  rw [Turn.evaluate, Turn.evaluate, h.rule, hview]

theorem provide (s : Section) : SameCells (w₁.provide s) (w₂.provide s) where
  rule := by rw [rule_provide, rule_provide, h.rule]
  channelsAt := fun a => by
    rw [channelsAt_provide, channelsAt_provide, h.rule]
    simp only [h.channelsAt, h.isLoaded]
  read := fun p slot => by rw [read_provide, read_provide, h.read]
  tracks := fun p => by rw [tracks_provide, tracks_provide, h.tracks]
  block := fun p => by rw [terrain_provide, terrain_provide, h.block]
  isLoaded := fun a => by rw [terrain_provide, terrain_provide, h.isLoaded]

omit h in
/-- A request does the same to the same cells. -/
theorem apply {t₁ t₂ : Turn} (h : SameCells t₁.world t₂.world) (r : Request) :
    SameCells (t₁.apply r).2.world (t₂.apply r).2.world where
  rule := by rw [Turn.rule_apply, Turn.rule_apply, h.rule]
  channelsAt := fun s => by
    rw [Turn.channelsAt_apply, Turn.channelsAt_apply, h.rule]
    simp only [h.channelsAt, h.isLoaded, h.admits]
  read := fun p slot => by rw [Turn.read_apply, Turn.read_apply, h.attempted, h.read]
  tracks := fun p => by
    rw [Bool.eq_iff_iff, Turn.tracks_apply, Turn.tracks_apply, h.tracks, h.admits, h.keeps]
  block := fun p => by
    rw [Turn.block_apply, Turn.block_apply, h.attempted]
    simp only [h.isLoaded, h.read, h.block]
  isLoaded := fun s => by rw [Turn.isLoaded_apply, Turn.isLoaded_apply, h.isLoaded]

end SameCells

end World

/-! ## Turns that are alike -/

namespace Turn

/-- The records made of a cell so far. -/
def recordsAt (t : Turn) (p : Cell) : List Int64 :=
  recordsOf p ((t.changes.find? p.home).getD #[]).toList

theorem eventsAt_apply (t : Turn) (r : Request) (p : Cell) :
    (t.apply r).2.world.eventsAt p =
      t.world.eventsAt p ++
        if t.world.admits r = true ∧ r.cell = p then r.action.events else [] := by
  rw [World.eventsAt, events_apply, List.filter_append, List.map_append]
  congr 1
  cases t.world.admits r with
  | false => simp
  | true =>
    by_cases hp : r.cell = p
    · rw [if_pos rfl, if_pos ⟨rfl, hp⟩, List.filter_eq_self.2, List.map_map]
      · exact List.map_id _
      · intro e he
        obtain ⟨event, -, rfl⟩ := List.mem_map.1 he
        simpa using hp
    · simp [hp]

theorem recordsAt_apply (t : Turn) (r : Request) (p : Cell) :
    (t.apply r).2.recordsAt p =
      t.recordsAt p ++
        if r.cell = p ∧ t.world.attempted r 0 ≠ t.world.read r.cell 0 then
          [ChangeRecord.encode r.cell (t.world.attempted r 0)] else [] := by
  show recordsOf p ((t.apply r).2.recordsIn p.home) = recordsOf p (t.recordsIn p.home) ++ _
  rw [recordsIn_apply]
  by_cases hhome : p.home = r.cell.home
  · simp only [hhome, true_and]
    split
    · rename_i hb
      have hone := recordsOf_singleton hhome (t.world.attempted r 0)
      rw [recordsOf, List.filter_append, ← recordsOf, ← recordsOf, hone]
      by_cases hp : r.cell = p
      · rw [if_pos hp, if_pos ⟨hp, hb⟩]
      · rw [if_neg hp, if_neg fun h => hp h.1]
    · rename_i hb
      rw [if_neg fun h => hb h.2, List.append_nil]
  · have hne : r.cell ≠ p := fun h => hhome (congrArg Cell.home h).symm
    rw [if_neg fun h => hhome h.1, if_neg fun h => hne h.1, List.append_nil]

/-- The turns have gone alike since their worlds had the given events: they have the same cells,
    have raised the same events and recorded the same changes at each cell, and have counted
    alike. -/
structure Alike (before₁ before₂ : Cell → List Event) (t₁ t₂ : Turn) : Prop where
  cells : World.SameCells t₁.world t₂.world
  events : ∃ new : Cell → List Event,
    (∀ p, t₁.world.eventsAt p = before₁ p ++ new p) ∧
      ∀ p, t₂.world.eventsAt p = before₂ p ++ new p
  records : ∀ p, t₁.recordsAt p = t₂.recordsAt p
  changed : ∀ s, t₁.changes.contains s = t₂.changes.contains s
  report : t₁.report = { t₂.report with tick := t₁.report.tick }

namespace Alike

variable {before₁ before₂ before₃ : Cell → List Event} {t₁ t₂ t₃ : Turn}

theorem refl_left (h : Alike before₁ before₂ t₁ t₂) : Alike before₁ before₁ t₁ t₁ := by
  obtain ⟨new, h₁, -⟩ := h.events
  exact ⟨World.SameCells.refl _, ⟨new, h₁, h₁⟩, fun _ => rfl, fun _ => rfl, rfl⟩

theorem trans (h : Alike before₁ before₂ t₁ t₂) (h' : Alike before₂ before₃ t₂ t₃) :
    Alike before₁ before₃ t₁ t₃ := by
  refine ⟨h.cells.trans h'.cells, ?_, fun p => (h.records p).trans (h'.records p),
    fun s => (h.changed s).trans (h'.changed s), ?_⟩
  · obtain ⟨new, h₁, h₂⟩ := h.events
    obtain ⟨new', h₂', h₃⟩ := h'.events
    have hnew : new = new' := funext fun p => List.append_cancel_left ((h₂ p).symm.trans (h₂' p))
    exact ⟨new, h₁, by rw [hnew]; exact h₃⟩
  · rw [h.report, h'.report]

/-- A request goes alike in turns that are alike. -/
theorem apply (h : Alike before₁ before₂ t₁ t₂) (r : Request) :
    Alike before₁ before₂ (t₁.apply r).2 (t₂.apply r).2 := by
  have hadmits := h.cells.admits r
  refine ⟨h.cells.apply r, ?_, ?_, ?_, ?_⟩
  · obtain ⟨new, h₁, h₂⟩ := h.events
    refine ⟨fun p => new p ++ if t₂.world.admits r = true ∧ r.cell = p then r.action.events else [],
      ?_, ?_⟩
    · intro p
      rw [eventsAt_apply, h₁, List.append_assoc, hadmits]
    · intro p
      rw [eventsAt_apply, h₂, List.append_assoc]
  · intro p
    rw [recordsAt_apply, recordsAt_apply, h.records, h.cells.attempted, h.cells.read]
  · intro s
    rw [contains_changes_apply, contains_changes_apply, h.changed, h.cells.attempted,
      h.cells.read]
  · rw [report_apply, report_apply, hadmits, h.cells.modifiedBy, h.report]
    split <;> rfl

theorem applyAll (h : Alike before₁ before₂ t₁ t₂) (due : List Request) :
    Alike before₁ before₂ (t₁.applyAll due) (t₂.applyAll due) := by
  induction due generalizing t₁ t₂ with
  | nil => exact h
  | cons r rest ih => exact ih (h.apply r)

end Alike

/-! ## Exchanging requests -/

end Turn

/-- The section of the request has storage already, or will not get any. -/
def World.Settled (w : World) (r : Request) : Prop :=
  w.terrain.isLoaded r.cell.home = true → (w.channelsAt r.cell.home).isSome = true

namespace Turn

variable {t : Turn} {a b : Request}

/-- Nobody brings about storage for a settled request. -/
theorem channelsAt_apply_of_settled (hb : t.world.Settled b) (a : Request) :
    (t.apply a).2.world.channelsAt b.cell.home = t.world.channelsAt b.cell.home := by
  rw [channelsAt_apply, if_neg]
  rintro ⟨hnone, hloaded, -⟩
  have hstored := hb hloaded
  rw [hnone] at hstored
  cases hstored

theorem settled_apply (hb : t.world.Settled b) (a : Request) :
    (t.apply a).2.world.Settled b := by
  rw [World.Settled, channelsAt_apply_of_settled hb, isLoaded_apply]
  exact hb

section

variable (hne : a.cell ≠ b.cell) (hb : t.world.Settled b)

include hne hb

theorem admits_apply_of_ne : (t.apply a).2.world.admits b = t.world.admits b := by
  rw [World.admits, World.admits, channelsAt_apply_of_settled hb,
    funext fun slot => (read_apply t a b.cell slot).trans (if_neg (Ne.symm hne))]

theorem attempted_apply_of_ne : (t.apply a).2.world.attempted b = t.world.attempted b := by
  rw [World.attempted, World.attempted, channelsAt_apply_of_settled hb,
    funext fun slot => (read_apply t a b.cell slot).trans (if_neg (Ne.symm hne))]

theorem modifiedBy_apply_of_ne : (t.apply a).2.world.modifiedBy b = t.world.modifiedBy b := by
  rw [World.modifiedBy, World.modifiedBy, channelsAt_apply_of_settled hb,
    funext fun slot => (read_apply t a b.cell slot).trans (if_neg (Ne.symm hne))]

end

/-- Whoever is first to bring something new about, the outcome is the same. -/
theorem new_or_new {α : Type} (byA byB : Prop) [Decidable byA] [Decidable byB] (x : α) :
    (if (if byA then some x else none) = none ∧ byB then some x
      else if byA then some x else none) =
      if (if byB then some x else none) = none ∧ byA then some x
      else if byB then some x else none := by
  by_cases hA : byA <;> by_cases hB : byB <;> simp [hA, hB]

/-- Settled requests for different cells may be exchanged, as far as cells are concerned. -/
theorem sameCells_swap (hne : a.cell ≠ b.cell) (ha : t.world.Settled a) (hb : t.world.Settled b) :
    World.SameCells ((t.apply a).2.apply b).2.world ((t.apply b).2.apply a).2.world where
  rule := by rw [rule_apply, rule_apply, rule_apply, rule_apply]
  channelsAt := fun s => by
    -- either way, a section gets storage if it is loaded and one of the two wakes a cell in it
    simp only [channelsAt_apply, isLoaded_apply, rule_apply, admits_apply_of_ne hne hb,
      admits_apply_of_ne (Ne.symm hne) ha]
    by_cases hs : t.world.channelsAt s = none ∧ t.world.terrain.isLoaded s = true
    · simp only [hs.1, hs.2, true_and]
      exact new_or_new _ _ _
    · have hs' : ∀ c : Prop, ¬ (t.world.channelsAt s = none ∧
          t.world.terrain.isLoaded s = true ∧ c) := fun c h => hs ⟨h.1, h.2.1⟩
      simp only [hs', if_false]
  read := fun p slot => by
    simp only [read_apply, attempted_apply_of_ne hne hb, attempted_apply_of_ne (Ne.symm hne) ha]
    by_cases hpa : p = a.cell
    · rw [if_pos hpa, if_pos hpa, if_neg fun hpb => hne (hpa.symm.trans hpb)]
    · rw [if_neg hpa, if_neg hpa]
  tracks := fun p => by
    rw [Bool.eq_iff_iff]
    simp only [tracks_apply, keeps_apply, admits_apply_of_ne hne hb,
      admits_apply_of_ne (Ne.symm hne) ha]
    rw [or_assoc, or_assoc, or_comm (a := _ ∧ _)]
  block := fun p => by
    simp only [block_apply, isLoaded_apply, read_apply, attempted_apply_of_ne hne hb,
      attempted_apply_of_ne (Ne.symm hne) ha]
    by_cases hpa : p = a.cell
    · have hpb : p ≠ b.cell := fun hpb => hne (hpa.symm.trans hpb)
      simp only [hpa, hne, true_and, false_and, if_false]
    · simp only [hpa, false_and, if_false]
  isLoaded := fun s => by rw [isLoaded_apply, isLoaded_apply, isLoaded_apply, isLoaded_apply]

/-- Settled requests for different cells may be exchanged. -/
theorem alike_swap {before : Cell → List Event} (h : Alike before before t t)
    (hne : a.cell ≠ b.cell) (ha : t.world.Settled a) (hb : t.world.Settled b) :
    Alike before before ((t.apply a).2.apply b).2 ((t.apply b).2.apply a).2 := by
  have hab := ((h.apply a).apply b).refl_left.events
  refine ⟨sameCells_swap hne ha hb, ?_, ?_, ?_, ?_⟩
  · obtain ⟨new, hnew, -⟩ := hab
    refine ⟨new, hnew, fun p => ?_⟩
    rw [← hnew, eventsAt_apply, eventsAt_apply, eventsAt_apply, eventsAt_apply,
      admits_apply_of_ne hne hb, admits_apply_of_ne (Ne.symm hne) ha]
    -- at most one of the two is for this cell
    by_cases hpa : a.cell = p
    · have hpb : b.cell ≠ p := fun hpb => hne (hpa.trans hpb.symm)
      simp only [hpb, and_false, if_false, List.append_nil]
    · simp only [hpa, and_false, if_false, List.append_nil]
  · intro p
    rw [recordsAt_apply, recordsAt_apply, recordsAt_apply, recordsAt_apply,
      attempted_apply_of_ne hne hb, attempted_apply_of_ne (Ne.symm hne) ha, read_apply, read_apply,
      if_neg (Ne.symm hne), if_neg hne]
    by_cases hpa : a.cell = p
    · have hpb : b.cell ≠ p := fun hpb => hne (hpa.trans hpb.symm)
      simp only [hpb, false_and, if_false, List.append_nil]
    · simp only [hpa, false_and, if_false, List.append_nil]
  · intro s
    rw [contains_changes_apply, contains_changes_apply, contains_changes_apply,
      contains_changes_apply, attempted_apply_of_ne hne hb, attempted_apply_of_ne (Ne.symm hne) ha,
      read_apply, read_apply, if_neg (Ne.symm hne), if_neg hne, Bool.or_assoc, Bool.or_assoc]
    congr 1
    exact Bool.or_comm _ _
  · rw [report_apply, report_apply, report_apply, report_apply, admits_apply_of_ne hne hb,
      admits_apply_of_ne (Ne.symm hne) ha, modifiedBy_apply_of_ne hne hb,
      modifiedBy_apply_of_ne (Ne.symm hne) ha]
    cases t.world.admits a <;> cases t.world.admits b <;> cases t.world.modifiedBy a <;>
      cases t.world.modifiedBy b <;> simp [Nat.add_right_comm]

/-- The order of settled requests for different cells does not matter. -/
theorem alike_applyAll_of_reordered {before : Cell → List Event} {l₁ l₂ : List Request}
    (hl : Reordered l₁ l₂) {t : Turn} (h : Alike before before t t)
    (hsettled : ∀ r ∈ l₁, t.world.Settled r) :
    Alike before before (t.applyAll l₁) (t.applyAll l₂) := by
  induction hl generalizing t with
  | nil => exact h
  | cons r hl ih =>
    rw [List.forall_mem_cons] at hsettled
    exact ih (h.apply r) fun b hb => settled_apply (hsettled.2 b hb) r
  | swap l hne =>
    rw [List.forall_mem_cons, List.forall_mem_cons] at hsettled
    exact (alike_swap h hne hsettled.1 hsettled.2.1).applyAll l
  | trans h₁ h₂ ih₁ ih₂ =>
    exact (ih₁ h hsettled).trans (ih₂ h fun r hr => hsettled r (h₁.perm.mem_iff.2 hr))

end Turn

end BlockAutomata.Engine
