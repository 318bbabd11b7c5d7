/-
  Kernels mean what their rules mean.

  1. A kernel, run on any flattened window, gives the block that the rules mean in words: this is
     the simulation, started at the centre of the window with an empty memory.

  2. Rules that a kernel can be made of hold only literals of 32 bits and read only the block
     channel (`Supported.isWordTerm`).  So where the interpreter never leaves the words either,
     kernel and interpreter agree on the block.
-/
import BlockAutomata.Proofs.Kernel.Acceptance
import BlockAutomata.Proofs.Kernel.SharedLayout
import BlockAutomata.Proofs.Kernel.Simulation

namespace BlockAutomata.Kernel

open Script (Expr Cond Effect Rule FitsWord SlotTable)

/-! ## What supported rules are made of -/

/-- Supported rules are made of word terms. -/
theorem Supported.isWordTerm {radius : Nat} {rules : List Rule} (h : Supported radius rules) :
    ∀ r ∈ rules, ∀ x ∈ r.subterms, x.IsWordTerm := by
  intro r hr x hx
  cases x with
  | literal n => exact h.literals r hr n (List.mem_filterMap.2 ⟨_, hx, rfl⟩)
  | channel s => exact h.slots r hr s (List.mem_append_left _ (List.mem_filterMap.2 ⟨_, hx, rfl⟩))
  | neighbor o s =>
    exact h.slots r hr s (List.mem_append_left _ (List.mem_filterMap.2 ⟨_, hx, rfl⟩))
  | count os c => trivial
  | sign l r => trivial
  | arith l r op => trivial

/-! ## Kernels -/

/-- A machine with a flattened window reads its entries in the order of the listed displacements. -/
theorem Machine.block_eq_ofWindow {radius : Nat} (hsize : windowVolume radius < 0x80000000)
    (offsets : Array Offset) (window : List Int64) :
    Machine.block ⟨radius, offsets, window.toArray⟩ = WordBlocks.ofWindow radius window := by
  funext o
  rw [Machine.block_eq, WordBlocks.ofWindow, Window.indexOf?_eq_place? hsize,
    Window.idxOf?_windowOffsets (Window.radius_lt_of_volume_lt hsize)]
  cases Window.place? radius o with
  | none => rfl
  | some i => cases h : window[i]? <;> simp [h]

/-- A kernel that has been built has the settings of its builder, and the code that the lowering
    gives. -/
theorem Builder.gives_of_build {b b' : Builder} {rules : List Rule} {shader : Shader}
    (h : b.build rules = (.ok shader, b')) :
    shader.config = b.config ∧ shader.offsets = windowOffsets b.config.radius ∧
      ∃ n', (lower b.config.radius rules).Gives b.nextId shader.rules n' := by
  have hbuild : (build ⟨b.config, b.nextId⟩ rules).1 = .ok shader := congrArg Prod.fst h
  obtain ⟨codes, n', hrun, rfl⟩ := exists_of_build hbuild
  exact ⟨rfl, rfl, n', hrun⟩

/-- The blocks of a window, in words. -/
theorem seesWords_ofWindow {w : Window} (hfits : ∀ x ∈ w.blocks, FitsWord x) :
    Script.SeesWords w.view (WordBlocks.ofWindow w.radius w.blocks) := by
  intro o
  have hp := w.planes_pos
  show w.read o 0 = (WordBlocks.ofWindow w.radius w.blocks o).toInt64
  rw [Window.read, Array.getElem?_eq_getElem hp, w.position?_eq_place?, WordBlocks.ofWindow,
    Window.idxOf?_windowOffsets (Window.radius_lt_of_volume_lt w.volume_lt)]
  cases Window.place? w.radius o with
  | none => rfl
  | some i =>
    have hget : w.planes[0][i]? = w.blocks[i]? := (Vector.getElem?_toList).symm
    simp only [hget]
    cases h : w.blocks[i]? with
    | none => rfl
    | some x => exact (Script.toInt64_toInt32 (hfits x (List.mem_of_getElem? h))).symm

/-- A kernel gives, on every flattened window, the block that the rules mean in words; and where
    neither the window nor the interpreter leaves the words, the block that the interpreter's
    outcome leaves. -/
theorem run_of_build {config : Config} (hconfig : config.check = .ok ()) {nextId : Nat}
    {rules : List Rule} {shader : Shader} {b : Builder}
    (hbuild : Builder.build ⟨config, nextId⟩ rules = (.ok shader, b)) :
    (∀ window : List Int64, shader.run window =
      (Script.wordAfterRules rules (WordBlocks.ofWindow config.radius window)).toInt64) ∧
    ∀ (w : Window) (slots : SlotTable), w.radius = config.radius →
      (∀ x ∈ w.blocks, FitsWord x) → (∀ r ∈ rules, r.StaysNarrow w.view) →
      shader.run w.blocks =
        ((Script.Interpreter.ofRules rules slots).outcome w.view).applied w.view.own 0 := by
  obtain ⟨hc, hoffsets, n', hlower⟩ := Builder.gives_of_build hbuild
  have hsize := Config.volume_lt_of_check hconfig
  have hradius := Config.radius_lt_of_check hconfig
  have hsupported : Supported config.radius rules :=
    supported_iff.2 ((Builder.lower_decides hradius rules).gives hlower).2
  have hrun : ∀ window : List Int64, shader.run window =
      (Script.wordAfterRules rules (WordBlocks.ofWindow config.radius window)).toInt64 := by
    intro window
    rw [Shader.run, hc, hoffsets, ← Machine.block_eq_ofWindow hsize,
      run_of_gives_lower rfl hlower]
  refine ⟨hrun, fun w slots hw hfits hnarrow => ?_⟩
  rw [hrun, ← hw]
  exact (Script.Interpreter.outcome_eq_word (seesWords_ofWindow hfits) rules slots
    hsupported.isWordTerm hnarrow).symm

/-! ### A cell between two others, each of which has one neighbour of a kind -/

/-- A block 3 becomes 7 when both of its neighbours to the sides have exactly one block 5 above or
    below them. -/
def flankedRules : List Rule := [
  ⟨.all [.isBlock 3, .equal (.count [⟨1, 0, 0⟩, ⟨-1, 0, 0⟩]
      (.equal (.count [⟨0, 1, 0⟩, ⟨0, -1, 0⟩] (.isBlock 5)) (.literal 1))) (.literal 2)],
    [.set 0 (.arith (.channel 0) (.literal 4) .add)]⟩]

/-- A block 3 for which that is so. -/
def flankedWindow : Window :=
  (((Window.zero 1 1).set Offset.zero 0 3).set ⟨1, 1, 0⟩ 0 5).set ⟨-1, -1, 0⟩ 0 5

theorem flankedRules_stayNarrow : ∀ r ∈ flankedRules, r.StaysNarrow flankedWindow.view := by
  intro r hr
  rw [flankedRules, List.mem_singleton] at hr
  subst hr
  constructor
  · simp only [Cond.isBlock, Cond.StaysNarrow, Cond.AllStayNarrow, Expr.StaysNarrow, true_and,
      and_true, List.mem_cons, List.not_mem_nil, or_false, forall_eq_or_imp, forall_eq]
    decide +kernel
  · intro _ e he
    rw [List.mem_singleton] at he
    subst he
    simp only [Effect.StaysNarrow, Expr.StaysNarrow, true_and]
    decide +kernel

theorem run_flanked : Config.standard.check = .ok () ∧ (∀ x ∈ flankedWindow.blocks, FitsWord x) ∧
    (∀ r ∈ flankedRules, r.StaysNarrow flankedWindow.view) ∧
    ∃ shader b, Builder.build ⟨.standard, 7⟩ flankedRules = (.ok shader, b) ∧
      shader.run flankedWindow.blocks = 7 := by
  have hall : (flankedWindow.blocks.all fun x => decide (FitsWord x)) = true := by decide +kernel
  have hfits : ∀ x ∈ flankedWindow.blocks, FitsWord x :=
    fun x hx => of_decide_eq_true (List.all_eq_true.1 hall x hx)
  obtain ⟨shader, b, hbuild⟩ :
      ∃ shader b, Builder.build ⟨.standard, 7⟩ flankedRules = (.ok shader, b) := ⟨_, _, rfl⟩
  refine ⟨rfl, hfits, flankedRules_stayNarrow, shader, b, hbuild, ?_⟩
  have h := (run_of_build rfl hbuild).2 flankedWindow OrderedMap.empty rfl hfits
    flankedRules_stayNarrow
  refine h.trans ?_
  decide +kernel

end BlockAutomata.Kernel
