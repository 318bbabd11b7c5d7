/-
  A step does not depend on the order in which sections and tasks are kept.

  1. Two worlds are alike when they have the same cells, settings and placements, and their wheels
     hold the same tasks, up to the order of tasks for different cells (`World.Alike`).  How the
     sections are ordered is not asked.

  2. Alike worlds stay alike through the phases of a step.  The placements come in the same order.
     The tracked cells come in any order, but all of them see the same world, so that each asks for
     the same (`sameByCell_asked`).  The due requests differ in the order of different cells only,
     and these may be exchanged.

  3. It follows that a step of alike worlds leads to alike worlds, with the same report, and with
     the same events and records at each cell (`step_alike`).  What becomes of a cell is decided by
     its own requests alone (`read_step`).
-/
import BlockAutomata.Proofs.Engine.Alike
import BlockAutomata.Proofs.Engine.Reachability
import BlockAutomata.Proofs.Engine.Scheduling

namespace BlockAutomata.Engine

/-! ## Placements -/

namespace Turn.Alike

variable {before₁ before₂ : Cell → List Event} {t₁ t₂ : Turn}

theorem provided (h : Alike before₁ before₂ t₁ t₂) (r : Request) :
    Alike before₁ before₂ (t₁.provided r) (t₂.provided r) := by
  have hevents : ∀ t : Turn, (t.provided r).world.events = t.world.events := fun t =>
    t.world.events_provide r.cell.home
  refine ⟨h.cells.provide r.cell.home, ?_, h.records, h.changed, h.report⟩
  obtain ⟨new, h₁, h₂⟩ := h.events
  refine ⟨new, fun p => ?_, fun p => ?_⟩
  · rw [World.eventsAt, hevents]
    exact h₁ p
  · rw [World.eventsAt, hevents]
    exact h₂ p

theorem applyPlacement (h : Alike before₁ before₂ t₁ t₂) (r : Request) :
    Alike before₁ before₂ (t₁.applyPlacement r) (t₂.applyPlacement r) := by
  have hprovided := h.provided r
  have happlied := hprovided.apply r
  rw [applyPlacement_eq, applyPlacement_eq, hprovided.cells.admits]
  refine ⟨happlied.cells, happlied.events, happlied.records, happlied.changed, ?_⟩
  show (if _ then _ else _) = _
  rw [happlied.report]
  split <;> rfl

theorem foldl_applyPlacement (h : Alike before₁ before₂ t₁ t₂) (waiting : List Request) :
    Alike before₁ before₂ (waiting.foldl Turn.applyPlacement t₁)
      (waiting.foldl Turn.applyPlacement t₂) := by
  induction waiting generalizing t₁ t₂ with
  | nil => exact h
  | cons r rest ih => exact ih (h.applyPlacement r)

end Turn.Alike

namespace World

/-- The worlds differ only in the order of their sections, and of tasks for different cells. -/
structure Alike (w₁ w₂ : World) : Prop extends SameCells w₁ w₂ where
  config : w₁.config = w₂.config
  placements : w₁.placements = w₂.placements
  size : w₁.wheel.size = w₂.wheel.size
  cursor : w₁.wheel.cursor = w₂.wheel.cursor
  pending : ∀ d < w₁.wheel.size, SameByCell (w₁.wheel.pending d) (w₂.wheel.pending d)

variable {w₁ w₂ : World}

theorem Alike.placed (h : Alike w₁ w₂) :
    Turn.Alike w₁.eventsAt w₂.eventsAt w₁.placed w₂.placed := by
  have hopening : Turn.Alike w₁.eventsAt w₂.eventsAt w₁.opening w₂.opening := by
    refine ⟨⟨h.rule, h.channelsAt, h.read, h.tracks, h.block, h.isLoaded⟩, ?_, fun _ => rfl,
      fun _ => rfl, rfl⟩
    exact ⟨fun _ => [], fun p => (List.append_nil _).symm, fun p => (List.append_nil _).symm⟩
  have hfold := hopening.foldl_applyPlacement w₁.placements
  have hwaiting : w₂.placed = w₁.placements.foldl Turn.applyPlacement w₂.opening := by
    rw [h.placements]
    rfl
  rw [hwaiting]
  exact hfold

/-! ## Evaluation -/

/-- The sections in which a cell is tracked. -/
def busySections (w : World) : List Section :=
  (w.sections.entries.filter fun e => !e.2.tracked.isEmpty).map Prod.fst

theorem mem_busySections {w : World} (hplace : w.TrackedInPlace) {s : Section} :
    s ∈ w.busySections ↔ ∃ p : Cell, p.home = s ∧ w.tracks p = true := by
  rw [busySections, List.mem_map]
  constructor
  · rintro ⟨⟨s, storage⟩, he, rfl⟩
    obtain ⟨hentry, hbusy⟩ := List.mem_filter.1 he
    have hfind := OrderedMap.find?_eq_some_iff.2 hentry
    have hsome : ∃ i, storage.tracked.contains i = true := by
      refine Classical.byContradiction fun hnone => ?_
      have hempty : storage.tracked.isEmpty = true :=
        CellSet.isEmpty_iff.2 fun i => by simpa using fun hi => hnone ⟨i, hi⟩
      rw [hempty] at hbusy
      cases hbusy
    obtain ⟨i, hi⟩ := hsome
    exact ⟨s.cell i, hplace.tracks_cell hfind hi⟩
  · rintro ⟨p, rfl, hp⟩
    obtain ⟨storage, hs, hindex⟩ := exists_storage_of_tracks hp
    refine ⟨(p.home, storage), List.mem_filter.2 ⟨OrderedMap.find?_eq_some_iff.1 hs, ?_⟩, rfl⟩
    cases hempty : storage.tracked.isEmpty with
    | false => rfl
    | true =>
      rw [CellSet.isEmpty_iff.1 hempty] at hindex
      cases hindex

theorem nodup_busySections (w : World) : w.busySections.Nodup :=
  List.Sublist.nodup (List.filter_sublist.map Prod.fst) w.sections.nodup

/-- As many sections are busy, and as many cells are tracked. -/
theorem SameCells.count_eq (h : SameCells w₁ w₂) (h₁ : w₁.TrackedInPlace)
    (h₂ : w₂.TrackedInPlace) :
    (w₁.sections.entries.countP fun e => !e.2.tracked.isEmpty) =
        (w₂.sections.entries.countP fun e => !e.2.tracked.isEmpty) ∧
      (Turn.cellsToEvaluate w₁).length = (Turn.cellsToEvaluate w₂).length := by
  have hbusy : w₁.busySections.Perm w₂.busySections := by
    rw [List.perm_ext_iff_of_nodup w₁.nodup_busySections w₂.nodup_busySections]
    intro s
    simp only [mem_busySections h₁, mem_busySections h₂, h.tracks]
  have hcells : (Turn.cellsToEvaluate w₁).Perm (Turn.cellsToEvaluate w₂) := by
    rw [List.perm_ext_iff_of_nodup (nodup_cellsToEvaluate h₁) (nodup_cellsToEvaluate h₂)]
    intro p
    rw [mem_cellsToEvaluate h₁, mem_cellsToEvaluate h₂, h.tracks]
  have hlength := hbusy.length_eq
  rw [busySections, busySections, List.length_map, List.length_map] at hlength
  rw [List.countP_eq_length_filter, List.countP_eq_length_filter]
  exact ⟨hlength, hcells.length_eq⟩

/-- Each cell asks for the same. -/
theorem sameByCell_asked (h : Alike w₁ w₂) (h₁ : w₁.TrackedInPlace) (h₂ : w₂.TrackedInPlace) :
    SameByCell w₁.asked w₂.asked := by
  intro p
  rw [filter_asked h₁, filter_asked h₂, h.placed.cells.tracks, h.placed.cells.evaluate]

/-! ## From the placements to what is due -/

/-- When the due requests are about to be applied, the turns are alike. -/
theorem Alike.ready (h : Alike w₁ w₂) (h₁ : w₁.TrackedInPlace) (h₂ : w₂.TrackedInPlace) :
    Turn.Alike w₁.eventsAt w₂.eventsAt w₁.ready w₂.ready := by
  have hplaced := h.placed
  have hasked := sameByCell_asked h h₁ h₂
  refine ⟨⟨?_, ?_, ?_, ?_, ?_, ?_⟩, ?_, ?_, ?_, ?_⟩
  · rw [rule_ready, rule_ready, hplaced.cells.rule]
  · intro s
    rw [channelsAt_ready, channelsAt_ready, hplaced.cells.channelsAt]
  · intro p slot
    rw [read_ready, read_ready, hplaced.cells.read]
  · intro p
    rw [not_tracks_ready, not_tracks_ready]
  · intro p
    rw [terrain_ready, terrain_ready, hplaced.cells.block]
  · intro s
    rw [terrain_ready, terrain_ready, hplaced.cells.isLoaded]
  · obtain ⟨new, hnew₁, hnew₂⟩ := hplaced.events
    refine ⟨new, fun p => ?_, fun p => ?_⟩
    · rw [eventsAt, events_ready]
      exact hnew₁ p
    · rw [eventsAt, events_ready]
      exact hnew₂ p
  · intro p
    rw [Turn.recordsAt, Turn.recordsAt, changes_ready, changes_ready]
    exact hplaced.records p
  · intro s
    rw [changes_ready, changes_ready, hplaced.changed]
  · -- the counts of requests do not depend on their order
    obtain ⟨hbusy, hcells⟩ := hplaced.cells.count_eq h₁.placed h₂.placed
    have hreport := hplaced.report
    have hscheduled := (hasked.filter fun r =>
      0 < r.action.delay ∧ r.action.delay < w₂.wheel.size).perm.length_eq
    have hrejected := (hasked.filter fun r => w₂.wheel.size ≤ r.action.delay).perm.length_eq
    rw [report_ready, report_ready, h.size, hscheduled, hrejected]
    simp only [Turn.evaluateTracked, hbusy, hcells]
    rw [hreport]

/-- What is due differs in the order of different cells only. -/
theorem sameByCell_due (h : Alike w₁ w₂) (h₁ : w₁.TrackedInPlace) (h₂ : w₂.TrackedInPlace) :
    SameByCell (w₁.immediate ++ w₁.fired) (w₂.immediate ++ w₂.fired) := by
  refine SameByCell.append ((sameByCell_asked h h₁ h₂).filter _) ?_
  rw [fired_eq, fired_eq]
  exact h.pending 0 w₁.wheel.size_pos

/-- No task waits for a loaded section to get storage. -/
def NoTaskStranded (w : World) : Prop :=
  ∀ d < w.wheel.size, ∀ r ∈ w.wheel.pending d, w.Settled r

/-- Whatever is due is for a section that has storage already, or will not get any. -/
theorem settled_of_mem_due {w : World} (hplace : w.TrackedInPlace) (htasks : w.NoTaskStranded)
    {r : Request} (hr : r ∈ w.immediate ++ w.fired) : w.ready.world.Settled r := by
  intro hloaded
  rw [channelsAt_ready]
  rcases List.mem_append.1 hr with hr | hr
  · have hasked := (List.mem_filter.1 hr).1
    exact channelsAt_isSome_of_tracks (tracks_of_mem_asked hplace hasked).1
  · rw [fired_eq] at hr
    rw [terrain_ready, isLoaded_placed] at hloaded
    obtain ⟨n, hn⟩ := Option.isSome_iff_exists.1 (htasks 0 w.wheel.size_pos r hr hloaded)
    rw [channelsAt_placed_of_some hn]
    rfl

/-! ## Records -/

/-- The records of a cell in the batches that have been passed on. -/
def recordsAt (w : World) (p : Cell) : List Int64 :=
  recordsOf p ((w.terrain.batches.toList.filter fun b => b.position = p.home).flatMap Batch.records)

/-- Of all batches of a step, one has the records of a cell. -/
theorem flatMap_records_entries (m : OrderedMap Section (Array Int64)) (s : Section) :
    ((m.entries.map fun e => (⟨e.1, e.2.toList⟩ : Batch)).filter fun b => b.position = s).flatMap
        Batch.records =
      ((m.find? s).getD #[]).toList := by
  obtain ⟨entries, hn⟩ := m
  show _ = ((entries.lookup s).getD #[]).toList
  induction entries with
  | nil => rfl
  | cons e rest ih =>
    obtain ⟨a, records⟩ := e
    rw [List.map_cons, List.nodup_cons] at hn
    have hrest := ih hn.2
    rw [lookup_cons_if, List.map_cons]
    by_cases ha : a = s
    · subst ha
      -- the keys are distinct, so no later batch is for the same section
      rw [lookup_eq_none_iff_not_mem.2 hn.1] at hrest
      rw [List.filter_cons_of_pos (by simp), List.flatMap_cons, hrest, if_pos rfl]
      simp
    · rw [List.filter_cons_of_neg (by simpa using ha), hrest, if_neg (Ne.symm ha)]

/-- At the end of a step, the records of each cell are added to those that were passed on before. -/
theorem recordsAt_flush (t : Turn) (p : Cell) :
    t.flush.1.recordsAt p = t.world.recordsAt p ++ t.recordsAt p := by
  rw [recordsAt, batches_flush, List.filter_append, List.flatMap_append, flatMap_records_entries,
    recordsOf, List.filter_append]
  rfl

/-! ## The whole step -/

theorem eventsAt_flush (t : Turn) (p : Cell) : t.flush.1.eventsAt p = t.world.eventsAt p := rfl

/-- The due requests of the second world are first brought into the order of the first one. -/
theorem Alike.done (h : Alike w₁ w₂) (h₁ : w₁.TrackedInPlace) (h₂ : w₂.TrackedInPlace)
    (htasks : w₁.NoTaskStranded) : Turn.Alike w₁.eventsAt w₂.eventsAt w₁.done w₂.done := by
  have hready := h.ready h₁ h₂
  have hreordered := reordered_of_sameByCell (sameByCell_due h h₁ h₂)
  have hexchanged := Turn.alike_applyAll_of_reordered hreordered hready.refl_left
    fun r hr => settled_of_mem_due h₁ htasks hr
  exact hexchanged.trans (hready.applyAll (w₂.immediate ++ w₂.fired))

theorem sameCells_flush {t₁ t₂ : Turn} (h : SameCells t₁.world t₂.world) :
    SameCells t₁.flush.1 t₂.flush.1 where
  rule := h.rule
  channelsAt := h.channelsAt
  read := fun p slot => by rw [read_flush, read_flush, h.read]
  tracks := h.tracks
  block := fun p => by rw [block_flush, block_flush, h.block]
  isLoaded := fun s => by rw [isLoaded_flush, isLoaded_flush, h.isLoaded]

/-- A step of alike worlds leads to alike worlds. -/
theorem Alike.step (h : Alike w₁ w₂) (h₁ : w₁.TrackedInPlace) (h₂ : w₂.TrackedInPlace)
    (htasks : w₁.NoTaskStranded) : Alike w₁.step.1 w₂.step.1 := by
  have hcells : SameCells w₁.step.1 w₂.step.1 := by
    rw [step_eq_flush, step_eq_flush]
    exact sameCells_flush (h.done h₁ h₂ htasks).cells
  refine ⟨hcells, ?_, ?_, ?_, ?_, ?_⟩
  · rw [config_step, config_step, h.config]
  · rw [placements_step, placements_step]
  · rw [size_step, size_step, h.size]
  · rw [cursor_step, cursor_step, h.cursor, h.size]
  · intro d hd
    rw [size_step] at hd
    have hd₂ : d < w₂.wheel.size := by rw [← h.size]; exact hd
    rw [pending_step _ hd, pending_step _ hd₂, h.size]
    split
    · exact fun _ => rfl
    · have hnext : d + 1 < w₁.wheel.size := by rw [h.size]; omega
      have hasked := ((sameByCell_asked h h₁ h₂).filter fun r => r.action.delay = d + 1).map
        (f := Request.undelayed) fun _ => rfl
      exact (h.pending (d + 1) hnext).append hasked

/-- A step of alike worlds is reported alike. -/
theorem Alike.report_step (h : Alike w₁ w₂) (h₁ : w₁.TrackedInPlace) (h₂ : w₂.TrackedInPlace)
    (htasks : w₁.NoTaskStranded) : w₁.step.2 = { w₂.step.2 with tick := w₁.tick } := by
  have hdone := h.done h₁ h₂ htasks
  have hsize := OrderedMap.size_eq_of_contains_eq hdone.changed
  rw [← w₁.tick_report_step, step_eq_flush, step_eq_flush, report_flush, report_flush, hsize]
  rw [hdone.report]

/-! ## What becomes of one cell -/

theorem attempt_zero (own : Nat → Int64) (a : Action) : a.attempt 0 own = own := by
  unfold Action.attempt
  split <;> simp

theorem foldl_attempt_zero (own : Nat → Int64) (actions : List Action) :
    actions.foldl (Action.attempt 0) own = own := by
  induction actions with
  | nil => rfl
  | cons a rest ih => rw [List.foldl_cons, attempt_zero, ih]

/-- Where there will be no storage, nothing is written. -/
theorem read_applyAll_of_unloaded {t : Turn} {p : Cell}
    (hnone : t.world.channelsAt p.home = none) (hout : t.world.terrain.isLoaded p.home = false)
    (due : List Request) : (t.applyAll due).world.read p = t.world.read p := by
  induction due generalizing t with
  | nil => rfl
  | cons r rest ih =>
    have hnone' : (t.apply r).2.world.channelsAt p.home = none := by
      rw [Turn.channelsAt_apply, hout]
      simpa using hnone
    have hout' : (t.apply r).2.world.terrain.isLoaded p.home = false := by
      rw [Turn.isLoaded_apply, hout]
    refine (ih hnone' hout').trans ?_
    funext slot
    rw [Turn.read_apply]
    split
    · rename_i hp
      have hadmits : t.world.admits r = false := by
        rw [admits, ← hp, hnone]
        rfl
      rw [attempted_of_not_admits hadmits, hp]
    · rfl

/-- The requests for a cell among those that are due. -/
theorem filter_due {w : World} (hplace : w.TrackedInPlace) (p : Cell) :
    ((w.immediate ++ w.fired).filter fun r => r.cell = p).map Request.action =
      (if w.placed.world.tracks p then
          (w.rule.outcome (w.placed.world.viewAt p)).actions.filter fun a => !a.waits
        else []) ++
        (w.fired.filter fun r => r.cell = p).map Request.action := by
  have hrule : w.placed.world.rule = w.rule := by rw [placed_frame]
  have hcomm : (w.immediate.filter fun r => r.cell = p) =
      (w.asked.filter fun r => r.cell = p).filter fun r => !r.action.waits := by
    rw [immediate, List.filter_filter, List.filter_filter]
    congr 1
    funext r
    exact Bool.and_comm _ _
  rw [List.filter_append, List.map_append, hcomm, filter_asked hplace, ← hrule]
  congr 1
  split
  · rw [Turn.evaluate, List.filter_map, List.map_map]
    exact List.map_id _
  · rfl

/-- What becomes of a cell in a step is decided by its own requests: first what it asks for without
    delay, then what fires for it. -/
theorem read_step {w : World} (hplace : w.TrackedInPlace) (htasks : w.NoTaskStranded) (p : Cell) :
    w.step.1.read p =
      ((if w.placed.world.tracks p then
          (w.rule.outcome (w.placed.world.viewAt p)).actions.filter fun a => !a.waits
        else []) ++
        (w.fired.filter fun r => r.cell = p).map Request.action).foldl
          (Action.attempt ((w.placed.world.channelsAt p.home).getD 0)) (w.placed.world.read p) := by
  have hread : w.ready.world.read p = w.placed.world.read p := funext (read_ready w p)
  have hflush : w.step.1.read p = w.done.world.read p := by
    rw [step_eq_flush]
    exact funext (read_flush w.done p)
  rw [hflush, ← filter_due hplace, ← hread, ← channelsAt_ready]
  cases hstored : w.ready.world.channelsAt p.home with
  | some n => exact Turn.read_applyAll hstored _
  | none =>
    rw [Option.getD_none, foldl_attempt_zero]
    cases hloaded : w.ready.world.terrain.isLoaded p.home with
    | false => exact read_applyAll_of_unloaded hstored hloaded _
    | true =>
      -- a due request would have been settled, but there is no storage
      have hne : ∀ r ∈ w.immediate ++ w.fired, r.cell ≠ p := by
        intro r hr hp
        have hsettled := settled_of_mem_due hplace htasks hr
        rw [Settled, hp, hstored] at hsettled
        cases hsettled hloaded
      exact funext (Turn.read_applyAll_of_forall_ne hne)

/-! ## Many steps -/

/-- A step strands no task: who asks for one has storage. -/
theorem NoTaskStranded.step {w : World} (h : w.NoTaskStranded) (hplace : w.TrackedInPlace) :
    w.step.1.NoTaskStranded := by
  intro d hd r hr
  rw [size_step] at hd
  rw [pending_step _ hd] at hr
  split at hr
  · cases hr
  · intro hloaded
    rcases List.mem_append.1 hr with hr | hr
    · rw [isLoaded_step] at hloaded
      obtain ⟨n, hn⟩ := Option.isSome_iff_exists.1 (h (d + 1) (by omega) r hr hloaded)
      rw [channelsAt_step_of_some (channelsAt_placed_of_some hn)]
      rfl
    · obtain ⟨asked, hasked, rfl⟩ := List.mem_map.1 hr
      -- who asks is tracked, and only cells with storage are
      have htracked := (tracks_of_mem_asked hplace (List.mem_filter.1 hasked).1).1
      obtain ⟨n, hn⟩ := exists_channelsAt_of_tracks htracked
      show (w.step.1.channelsAt asked.cell.home).isSome = true
      rw [channelsAt_step_of_some hn]
      rfl

/-- Alike worlds stay alike, however many steps they make. -/
theorem Alike.stepped (n : Nat) (h : Alike w₁ w₂) (h₁ : w₁.TrackedInPlace)
    (h₂ : w₂.TrackedInPlace) (htasks : w₁.NoTaskStranded) :
    Alike (stepped n w₁) (stepped n w₂) := by
  induction n generalizing w₁ w₂ with
  | zero => exact h
  | succ n ih =>
    exact ih (h.step h₁ h₂ htasks) (TrackedInPlace.step w₁) (TrackedInPlace.step w₂)
      (htasks.step h₁)

/-! ## The law -/

/-- A step does not depend on the order in which sections are kept, nor on the order of tasks for
    different cells.  It leaves alike worlds alike, with the same report, and with the same new
    events and records at each cell.  Each cell is on its own: its channels go through what the cell
    asks for at once, seeing the world after the placements, and then through its own tasks. -/
theorem step_alike (h₁ : Reachable w₁) (h₂ : Reachable w₂) (h : Alike w₁ w₂)
    (htasks : w₁.NoTaskStranded) :
    Alike w₁.step.1 w₂.step.1 ∧
      w₁.step.2 = { w₂.step.2 with tick := w₁.tick } ∧
      (∃ new : Cell → List Event, ∀ p,
        w₁.step.1.eventsAt p = w₁.eventsAt p ++ new p ∧
          w₂.step.1.eventsAt p = w₂.eventsAt p ++ new p) ∧
      (∃ new : Cell → List Int64, ∀ p,
        w₁.step.1.recordsAt p = w₁.recordsAt p ++ new p ∧
          w₂.step.1.recordsAt p = w₂.recordsAt p ++ new p) ∧
      ∀ p, w₁.step.1.read p =
        ((if w₁.placed.world.tracks p then
            (w₁.rule.outcome (w₁.placed.world.viewAt p)).actions.filter fun a => !a.waits
          else []) ++
          (w₁.fired.filter fun r => r.cell = p).map Request.action).foldl
            (Action.attempt ((w₁.placed.world.channelsAt p.home).getD 0))
              (w₁.placed.world.read p) := by
  have hplace₁ := h₁.trackedInPlace
  have hplace₂ := h₂.trackedInPlace
  have hdone := h.done hplace₁ hplace₂ htasks
  have hbatches : ∀ (w : World) (p : Cell), w.done.world.recordsAt p = w.recordsAt p := by
    intro w p
    rw [recordsAt, done, Turn.batches_applyAll, terrain_ready, batches_placed]
    rfl
  refine ⟨h.step hplace₁ hplace₂ htasks, h.report_step hplace₁ hplace₂ htasks, ?_, ?_,
    read_step hplace₁ htasks⟩
  · obtain ⟨new, hnew₁, hnew₂⟩ := hdone.events
    refine ⟨new, fun p => ?_⟩
    rw [step_eq_flush, step_eq_flush, eventsAt_flush, eventsAt_flush]
    exact ⟨hnew₁ p, hnew₂ p⟩
  · refine ⟨w₁.done.recordsAt, fun p => ⟨?_, ?_⟩⟩
    · rw [step_eq_flush, recordsAt_flush, hbatches]
    · rw [step_eq_flush, recordsAt_flush, hbatches, hdone.records]

/-- However the sections of a world are ordered, it is alike. -/
theorem alike_of_find?_eq {w : World} {sections : Sections}
    (h : ∀ s, w.sections.find? s = sections.find? s) : Alike w { w with sections := sections } where
  rule := rfl
  channelsAt := fun s => by rw [channelsAt, channelsAt, h]
  read := fun p slot => by rw [read, read, readCell, readCell, h]
  tracks := fun p => by rw [tracks, tracks, h]
  block := fun _ => rfl
  isLoaded := fun _ => rfl
  config := rfl
  placements := rfl
  size := rfl
  cursor := rfl
  pending := fun _ _ _ => rfl

/-- Every cell takes over the block of the next one. -/
def shiftRule : LocalRule where
  names := []
  channels := 1
  watches := fun _ => false
  outcome := fun v => .one (Action.write (SlotMap.ofList [(0, v.read ⟨1, 0, 0⟩ 0)]))

/-- Two neighbouring sections are loaded, and a block is placed between them. -/
def shiftRun (s s' : Section) : List Command :=
  [.load s, .load s', .place ⟨16, 0, 0⟩ (SlotMap.ofList [(0, 1)])]

theorem step_alike_two_orders :
    ∃ w₁ w₂ : World, w₁.sections.keys = [⟨0, 0, 0⟩, ⟨1, 0, 0⟩] ∧
      w₂.sections.keys = [⟨1, 0, 0⟩, ⟨0, 0, 0⟩] ∧ Alike w₁ w₂ ∧ Alike w₁.step.1 w₂.step.1 := by
  obtain ⟨w, hw⟩ : ∃ w, ofTerrain Terrain.empty shiftRule Config.fast = .ok w := ⟨_, rfl⟩
  have hnew := (eq_of_ofTerrain hw).1
  -- nothing is watched, so a section is not seeded when it is loaded
  have hload : ∀ (v : World) (s : Section), v.rule = shiftRule → v.sections.contains s = false →
      v.terrain = Terrain.empty →
        v.sectionLoaded s = { v with sections := v.sections.insert s (w.newStorage s) } := by
    intro v s hrule hs hterrain
    have hseeds : ∀ (v : World), v.rule = shiftRule → v.seeds s = [] := by
      intro v hrule
      have hnone : ∀ block, v.isSeed block = false := by
        intro block
        rw [isSeed, hrule]
        exact Bool.and_false _
      unfold seeds
      split
      · simp [hnone]
      · rfl
    have hstorage : v.newStorage s = w.newStorage s := by
      rw [newStorage, newStorage, hrule, hterrain, hnew]
    unfold sectionLoaded
    rw [hs, hterrain, hstorage]
    show World.seed _ s = _
    rw [seed, hseeds]
    · rw [← hterrain]
      rfl
    · exact hrule
  have hboth : ∀ s s' : Section, s ≠ s' →
      w.after (shiftRun s s') =
        { w.place ⟨16, 0, 0⟩ (SlotMap.ofList [(0, 1)]) with
          sections := (w.sections.insert s (w.newStorage s)).insert s' (w.newStorage s') } := by
    intro s s' hne
    show ((w.sectionLoaded s).sectionLoaded s').place _ _ = _
    rw [hload w s (by rw [hnew]) (by rw [hnew]; rfl) (by rw [hnew])]
    rw [hload _ s' (by rw [hnew]) ?_ (by rw [hnew])]
    · rfl
    · rw [OrderedMap.contains, OrderedMap.find?_insert, if_neg (Ne.symm hne), hnew]
      rfl
  have h₁ := hboth ⟨0, 0, 0⟩ ⟨1, 0, 0⟩ (by decide)
  have h₂ := hboth ⟨1, 0, 0⟩ ⟨0, 0, 0⟩ (by decide)
  have hlike : Alike (w.after (shiftRun ⟨0, 0, 0⟩ ⟨1, 0, 0⟩))
      (w.after (shiftRun ⟨1, 0, 0⟩ ⟨0, 0, 0⟩)) := by
    rw [h₁, h₂]
    refine alike_of_find?_eq fun s => ?_
    rw [OrderedMap.find?_insert, OrderedMap.find?_insert, OrderedMap.find?_insert,
      OrderedMap.find?_insert]
    by_cases h0 : s = ⟨0, 0, 0⟩
    · have h1 : s ≠ ⟨1, 0, 0⟩ := by rw [h0]; decide
      rw [if_neg h1, if_pos h0, if_pos h0]
    · rw [if_neg h0, if_neg h0]
  have htasks : (w.after (shiftRun ⟨0, 0, 0⟩ ⟨1, 0, 0⟩)).NoTaskStranded := by
    intro d _ r hr
    rw [h₁, hnew] at hr
    have hr : r ∈ (TimingWheel.ofSize _).pending d := hr
    rw [TimingWheel.pending_ofSize] at hr
    cases hr
  refine ⟨_, _, ?_, ?_, hlike,
    (step_alike ((Reachable.new hw).after _) ((Reachable.new hw).after _) hlike htasks).1⟩
  · rw [h₁, hnew]
    rfl
  · rw [h₂, hnew]
    rfl

end World

end BlockAutomata.Engine
