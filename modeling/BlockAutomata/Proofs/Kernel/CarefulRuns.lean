/-
  Kernels never fall back on defaults.

  1. A machine reads 0 for the result of a loop that has not run, the centre for the place of a loop
     that has not begun, and no displacement for an index outside of its table.  The careful machine
     (`run?`) is the same machine without these defaults: it stops.

  2. A memory covers a scope when it holds all that the scope knows.  Code in scope, run from such a
     memory, does not stop (`loop?_eq_some`), and leaves a memory that covers the scope behind it.

  3. One builder numbers its loops through, from one kernel to the next and past what it refuses.
     So all of its kernels are well scoped, and no two loops in them share a name
     (`builds_fresh_and_wellScoped`).
-/
import BlockAutomata.Proofs.Kernel.Acceptance
import BlockAutomata.Proofs.Kernel.Scoping
import BlockAutomata.Proofs.Kernel.Simulation
import Mathlib.Data.List.Forall2

namespace BlockAutomata.Kernel

open Script (Rule)

/-! ## The careful machine -/

namespace Machine

/-- The cell that an anchor stands for. -/
def place? (s : Memory) : Anchor → Option Offset
  | .center => some Offset.zero
  | .loop id => s.places.find? id

/-- The value of a term. -/
def term? (m : Machine) (s : Memory) : Term → Option Int32
  | .word n => some n
  | .block anchor o => (place? s anchor).map fun here => m.block (here + o)
  | .result id => s.counts.find? id
  | .sign l r => do return Script.sign32 (← m.term? s l) (← m.term? s r)
  | .arith op l r => do return op.on32 (← m.term? s l) (← m.term? s r)

mutual

/-- Whether a test holds. -/
def test? (m : Machine) (s : Memory) : Test → Option Bool
  | .eq l r => do return (← m.term? s l) == (← m.term? s r)
  | .all ts => m.tests? s ts
  | .not t => (m.test? s t).map not

/-- Whether all tests hold.  Those after one that fails are not looked at. -/
def tests? (m : Machine) (s : Memory) : List Test → Option Bool
  | [] => some true
  | t :: ts => do if ← m.test? s t then m.tests? s ts else return false

end

mutual

/-- Run one loop. -/
def loop? (m : Machine) (s : Memory) : Loop → Option Memory
  | .mk id anchor indices body test => do
    let base ← place? s anchor
    let (s, n) ← indices.foldlM (fun (acc : Memory × Int32) i => do
      let here := base + (← m.offsets[i]?)
      let s ← m.loops? { acc.1 with places := acc.1.places.insert id here } body
      return (s, if ← m.test? s test then acc.2 + 1 else acc.2)) (s, 0)
    return { s with counts := s.counts.insert id n }

/-- Run loops one after the other. -/
def loops? (m : Machine) (s : Memory) : List Loop → Option Memory
  | [] => some s
  | c :: cs => do m.loops? (← m.loop? s c) cs

end

/-- One round: the loop moves on to an offset, its body runs, and its test tells whether to
    count. -/
def round? (m : Machine) (id : Nat) (base : Offset) (body : List Loop) (test : Test)
    (acc : Memory × Int32) (i : Nat) : Option (Memory × Int32) := do
  let here := base + (← m.offsets[i]?)
  let s ← m.loops? { acc.1 with places := acc.1.places.insert id here } body
  return (s, if ← m.test? s test then acc.2 + 1 else acc.2)

/-- A loop leaves the memory of its rounds, with the count under its own name. -/
theorem loop?_eq_rounds (m : Machine) (s : Memory) (id : Nat) (anchor : Anchor)
    (indices : List Nat) (body : List Loop) (test : Test) :
    m.loop? s (.mk id anchor indices body test) = do
      let base ← place? s anchor
      let acc ← indices.foldlM (m.round? id base body test) (s, 0)
      return { acc.1 with counts := acc.1.counts.insert id acc.2 } := by
  rw [loop?]
  rfl

/-- Run one rule on what is remembered and the result so far. -/
def code? (m : Machine) (acc : Memory × Int32) (c : Code) : Option (Memory × Int32) := do
  let s ← m.loops? acc.1 c.loops
  if ← m.test? s c.test then return (s, ← c.values.foldlM (fun _ t => m.term? s t) acc.2)
  else return (s, acc.2)

/-- Run the rules. -/
def run? (m : Machine) (rules : List Code) : Option Int32 := do
  return (← rules.foldlM m.code? (Memory.empty, m.block Offset.zero)).2

end Machine

/-- The next block of the cell at the centre of a flattened window. -/
def Shader.run? (s : Shader) (window : List Int64) : Option Int64 :=
  (Machine.run? ⟨s.config.radius, s.offsets.toArray, window.toArray⟩ s.rules).map Int32.toInt64

/-! ## Memories that cover a scope -/

/-- The memory holds results and places of all loops that the scope knows. -/
structure Memory.Covers (s : Memory) (sc : Scope) : Prop where
  counts : ∀ id ∈ sc.counted, ∃ n, s.counts.find? id = some n
  places : ∀ id ∈ sc.around, ∃ o, s.places.find? id = some o

namespace Memory

variable {s : Memory} {sc sc' : Scope}

theorem covers_empty (s : Memory) : s.Covers Scope.empty where
  counts _ h := nomatch h
  places _ h := nomatch h

theorem Covers.mono (hle : sc.Le sc') (h : s.Covers sc') : s.Covers sc :=
  ⟨fun id hid => h.counts id (hle.1 hid), fun id hid => h.places id (hle.2 hid)⟩

theorem Covers.inside (h : s.Covers sc) (id : Nat) (here : Offset) :
    Covers { s with places := s.places.insert id here } (sc.inside id) where
  counts := h.counts
  places id' hid' := by
    simp only [OrderedMap.find?_insert]
    split
    · exact ⟨_, rfl⟩
    · rename_i hne
      rcases List.mem_cons.1 hid' with heq | hmem
      · exact absurd heq (by simpa using hne)
      · exact h.places id' hmem

theorem Covers.after (h : s.Covers sc) (c : Loop) (n : Int32) :
    Covers { s with counts := s.counts.insert c.id n } (sc.after [c]) where
  counts id' hid' := by
    simp only [OrderedMap.find?_insert]
    split
    · exact ⟨_, rfl⟩
    · rename_i hne
      rcases List.mem_append.1 hid' with hmem | heq
      · exact h.counts id' hmem
      · exact absurd (List.mem_singleton.1 heq) (by simpa using hne)
  places := h.places

end Memory

/-! ## Careful runs of code in scope -/

namespace Machine

variable {m : Machine} {s : Memory} {sc : Scope}

theorem place?_eq_some (hs : s.Covers sc) {a : Anchor} (ha : a.InScope sc) :
    place? s a = some (place s a) := by
  cases a with
  | center => rfl
  | loop id =>
    obtain ⟨o, ho⟩ := hs.places id ha
    rw [place?, place, ho]
    rfl

theorem term?_eq_some (hs : s.Covers sc) {t : Term} (ht : t.InScope sc) :
    m.term? s t = some (m.term s t) := by
  induction t with
  | word n => rfl
  | block a o =>
    rw [term?, term, place?_eq_some hs ht]
    rfl
  | result id =>
    obtain ⟨n, hn⟩ := hs.counts id ht
    rw [term?, term, hn]
    rfl
  | sign l r ihl ihr =>
    rw [term?, term, ihl ht.1, ihr ht.2]
    rfl
  | arith op l r ihl ihr =>
    rw [term?, term, ihl ht.1, ihr ht.2]
    rfl

mutual

theorem test?_eq_some (hs : s.Covers sc) : ∀ {t : Test}, t.InScope sc →
    m.test? s t = some (m.test s t)
  | .eq l r, ht => by
    rw [test?, test, term?_eq_some hs ht.1, term?_eq_some hs ht.2]
    rfl
  | .all ts, ht => by
    rw [test?, test, tests?_eq_some hs ht]
  | .not t, ht => by
    rw [test?, test, test?_eq_some (t := t) hs ht]
    rfl

theorem tests?_eq_some (hs : s.Covers sc) : ∀ {ts : List Test}, Test.AllInScope sc ts →
    m.tests? s ts = some (m.tests s ts)
  | [], _ => by rw [tests?, tests]
  | t :: ts, hts => by
    rw [tests?, tests, test?_eq_some hs hts.1, tests?_eq_some hs hts.2]
    cases m.test s t <;> rfl

end

/-- A careful fold of steps that do not stop is the fold of the steps, and keeps what they keep. -/
theorem foldlM_eq_some_foldl {α β : Type} {f : β → α → Option β} {g : β → α → β} {P : β → Prop}
    {as : List α} (hstep : ∀ b, ∀ a ∈ as, P b → f b a = some (g b a) ∧ P (g b a)) {b : β}
    (hb : P b) : as.foldlM f b = some (as.foldl g b) ∧ P (as.foldl g b) := by
  induction as generalizing b with
  | nil => exact ⟨rfl, hb⟩
  | cons a as ih =>
    obtain ⟨hf, hg⟩ := hstep b a List.mem_cons_self hb
    rw [List.foldlM_cons, hf, List.foldl_cons]
    exact ih (fun b a ha => hstep b a (List.mem_cons_of_mem _ ha)) hg

/-- All indices of the loops are places in the table. -/
def InTable (m : Machine) (cs : List Loop) : Prop :=
  ∀ c ∈ cs, ∀ i ∈ c.indices, i < m.offsets.size

/-- A round of a loop runs without stopping, given that the body does so where the loop stands.  It
    starts and ends in a memory that covers what is known outside of the loop. -/
theorem round?_eq_some {id i : Nat} {body : List Loop} {test : Test} {acc : Memory × Int32}
    (hbody : ∀ s : Memory, s.Covers (sc.inside id) →
      m.loops? s body = some (m.loops s body) ∧
        (m.loops s body).Covers ((sc.inside id).after body))
    (htest : test.InScope ((sc.inside id).after body)) (base : Offset) (hi : i < m.offsets.size)
    (hacc : acc.1.Covers sc) :
    m.round? id base body test acc i = some (m.round id base body test acc i) ∧
      (m.round id base body test acc i).1.Covers sc := by
  have hget : m.offsets[i]? = some m.offsets[i] := Array.getElem?_eq_getElem hi
  obtain ⟨hrun, hcovers⟩ := hbody _ (hacc.inside id (base + m.offsets[i]))
  simp only [round?, round, hget, Option.getD_some, Option.bind_eq_bind, Option.bind_some, hrun,
    test?_eq_some hcovers htest]
  exact ⟨rfl, hcovers.mono ((sc.le_inside id).trans ((sc.inside id).le_after body))⟩

mutual

/-- A loop in scope runs without stopping, and its result is there afterwards. -/
theorem loop?_eq_some : ∀ {c : Loop} {s : Memory} {sc : Scope}, s.Covers sc → c.InScope sc →
    m.InTable c.subloops →
    m.loop? s c = some (m.loop s c) ∧ (m.loop s c).Covers (sc.after [c])
  | .mk id anchor indices body test, s, sc, hs, hc, htable => by
    rw [Loop.InScope] at hc
    obtain ⟨hanchor, hbody, htest⟩ := hc
    rw [Loop.subloops] at htable
    obtain ⟨hindices, htable⟩ := List.forall_mem_cons.1 htable
    have hround : ∀ acc : Memory × Int32, ∀ i ∈ indices, acc.1.Covers sc → _ :=
      fun acc i hi hacc => round?_eq_some (fun s hs => loops?_eq_some hs hbody htable) htest
        (place s anchor) (hindices i hi) hacc
    obtain ⟨hrounds, hcovers⟩ := foldlM_eq_some_foldl hround (b := (s, 0)) hs
    rw [loop?_eq_rounds, loop_eq_rounds, place?_eq_some hs hanchor, Option.bind_eq_bind,
      Option.bind_some, hrounds]
    exact ⟨rfl, hcovers.after (.mk id anchor indices body test) _⟩

/-- Loops in scope run without stopping, and their results are there afterwards. -/
theorem loops?_eq_some : ∀ {cs : List Loop} {s : Memory} {sc : Scope}, s.Covers sc →
    Loop.AllInScope sc cs → m.InTable (Loop.subloopsAll cs) →
    m.loops? s cs = some (m.loops s cs) ∧ (m.loops s cs).Covers (sc.after cs)
  | [], s, sc, hs, _, _ => by
    rw [loops?, loops, Scope.after_nil]
    exact ⟨rfl, hs⟩
  | c :: cs, s, sc, hs, hcs, htable => by
    rw [Loop.AllInScope] at hcs
    rw [Loop.subloopsAll] at htable
    obtain ⟨hrun, hcovers⟩ := loop?_eq_some (c := c) hs hcs.1
      (fun c' hc' => htable c' (List.mem_append_left _ hc'))
    have hrest := loops?_eq_some hcovers hcs.2 fun c' hc' => htable c' (List.mem_append_right _ hc')
    rw [← Scope.after_append] at hrest
    rw [loops?, loops, hrun]
    exact hrest

end

theorem values?_eq_some (hs : s.Covers sc) {ts : List Term} (hts : ∀ t ∈ ts, t.InScope sc)
    (n : Int32) :
    ts.foldlM (fun _ t => m.term? s t) n = some (ts.foldl (fun _ t => m.term s t) n) :=
  (foldlM_eq_some_foldl (P := fun _ => True)
    (fun _ t ht _ => ⟨term?_eq_some hs (hts t ht), trivial⟩) trivial).1

/-- A rule that is well scoped runs without stopping, whatever memory it starts from. -/
theorem code?_eq_some {c : Code} (hc : c.WellScoped) (htable : m.InTable (Loop.subloopsAll c.loops))
    (acc : Memory × Int32) : m.code? acc c = some (m.code acc c) := by
  obtain ⟨hrun, hcovers⟩ := loops?_eq_some acc.1.covers_empty hc.loops htable
  have htest := test?_eq_some (m := m) hcovers hc.test
  have hvalues := values?_eq_some (m := m) hcovers hc.values acc.2
  simp only [code?, code, Option.bind_eq_bind, hrun, Option.bind_some, htest, hvalues]
  cases m.test (m.loops acc.1 c.loops) c.test <;> rfl

/-- Rules that are well scoped run without stopping. -/
theorem run?_eq_some {codes : List Code} (hcodes : ∀ c ∈ codes, c.WellScoped)
    (htable : m.InTable (codes.flatMap fun c => Loop.subloopsAll c.loops)) :
    m.run? codes = some (m.run codes) := by
  have hstep : ∀ acc, ∀ c ∈ codes, True → m.code? acc c = some (m.code acc c) ∧ True :=
    fun acc c hc _ => ⟨code?_eq_some (hcodes c hc)
      (fun c' hc' => htable c' (List.mem_flatMap.2 ⟨c, hc, hc'⟩)) acc, trivial⟩
  rw [run?, (foldlM_eq_some_foldl hstep trivial).1, run]
  rfl

end Machine

/-! ## Kernels -/

/-- The kernel is well scoped, its indices are places in its table, and what stands there are the
    offsets that the rules count over. -/
structure Shader.WellScoped (s : Shader) (rules : List Rule) : Prop where
  codes : ∀ c ∈ s.rules, c.WellScoped
  inTable : ∀ c ∈ s.loops, ∀ i ∈ c.indices, i < s.offsets.length
  offsets : s.loops.map (fun c => c.indices.map fun i => s.offsets[i]?) =
    ((rules.flatMap Rule.subterms).filterMap Script.Expr.counted?).map fun os => os.map some

/-- A kernel that is well scoped runs without stopping on every window. -/
theorem Shader.WellScoped.run?_eq_some {s : Shader} {rules : List Rule} (h : s.WellScoped rules)
    (window : List Int64) : s.run? window = some (s.run window) := by
  rw [Shader.run?, Machine.run?_eq_some h.codes fun c hc i hi => h.inTable c hc i hi]
  rfl

/-- Lowered rules make a kernel that is well scoped. -/
theorem Shader.wellScoped_ofCode {config : Config} {rules : List Rule} {n n' : Nat}
    {codes : List Code} (h : (Builder.lower config.radius rules).Gives n codes n') :
    (Shader.ofCode config codes).WellScoped rules := by
  obtain ⟨hcodes, hnumbered⟩ := lower_lowered h
  exact ⟨hcodes, hnumbered.index_lt, hnumbered.offsets⟩

/-! ## Many kernels from one builder -/

/-- Make kernels of several lists of rules, one after the other. -/
def Builder.builds (b : Builder) : List (List Rule) → List (Except Refusal Shader)
  | [] => []
  | rules :: calls => (b.build rules).1 :: (b.build rules).2.builds calls

/-- The names of the loops of all kernels among the results. -/
def loopNames (results : List (Except Refusal Shader)) : List Nat :=
  (results.filterMap Except.toOption).flatMap fun s => s.loops.map Loop.id

theorem loopNames_cons_ok (s : Shader) (results : List (Except Refusal Shader)) :
    loopNames (.ok s :: results) = s.loops.map Loop.id ++ loopNames results := rfl

theorem loopNames_cons_error (e : Refusal) (results : List (Except Refusal Shader)) :
    loopNames (.error e :: results) = loopNames results := rfl

/-- The names ascend from the first free one on, through all kernels. -/
theorem loopNames_builds {config : Config} (hradius : config.radius < 0x40000000) (n : Nat)
    (calls : List (List Rule)) :
    (∀ id ∈ loopNames (Builder.builds ⟨config, n⟩ calls), n ≤ id) ∧
      (loopNames (Builder.builds ⟨config, n⟩ calls)).Pairwise (· < ·) := by
  induction calls generalizing n with
  | nil => exact ⟨List.forall_mem_nil _, List.Pairwise.nil⟩
  | cons rules calls ih =>
    have hdecides := Builder.lower_decides hradius rules
    rw [Builder.builds]
    rcases Lowering.gives_or_refuses (Builder.lower config.radius rules) n with
      ⟨codes, n', hrun⟩ | ⟨e, n', hrun⟩
    · obtain ⟨hrest, hpairwise⟩ := ih n'
      have hnumbered := (lower_lowered hrun).2
      have hnames : ∀ id ∈ (Shader.ofCode config codes).loops.map Loop.id, n ≤ id ∧ id < n' :=
        hnumbered.name_lt
      rw [Builder.build_of_gives hrun, loopNames_cons_ok]
      refine ⟨fun id hid => ?_, List.pairwise_append.2 ⟨hnumbered.pairwise_names, hpairwise, ?_⟩⟩
      · rcases List.mem_append.1 hid with hid | hid
        · exact (hnames id hid).1
        · exact Nat.le_trans (hdecides.gives hrun).1 (hrest id hid)
      · intro id hid id' hid'
        exact Nat.lt_of_lt_of_le (hnames id hid).2 (hrest id' hid')
    · -- names that went into refused rules are not used again
      obtain ⟨hrest, hpairwise⟩ := ih n'
      rw [Builder.build_of_refuses hrun, loopNames_cons_error]
      exact ⟨fun id hid => Nat.le_trans (hdecides.refuses hrun).1 (hrest id hid), hpairwise⟩

/-- What is built from a list of rules is well scoped, for each of the lists. -/
theorem forall₂_wellScoped_builds (config : Config) (n : Nat) (calls : List (List Rule)) :
    List.Forall₂ (fun rules result => ∀ shader, result = .ok shader → shader.WellScoped rules)
      calls (Builder.builds ⟨config, n⟩ calls) := by
  induction calls generalizing n with
  | nil => exact .nil
  | cons rules calls ih =>
    rw [Builder.builds]
    rcases Lowering.gives_or_refuses (Builder.lower config.radius rules) n with
      ⟨codes, n', hrun⟩ | ⟨e, n', hrun⟩
    · rw [Builder.build_of_gives hrun]
      refine .cons (fun shader hshader => ?_) (ih n')
      cases hshader
      exact Shader.wellScoped_ofCode hrun
    · rw [Builder.build_of_refuses hrun]
      exact .cons (fun shader hshader => by cases hshader) (ih n')

/-- No two loops in the kernels of one builder share a name, whatever it refuses in between; and
    each kernel is well scoped, so that it runs on every window without falling back on a
    default. -/
theorem builds_fresh_and_wellScoped {config : Config} (hconfig : config.check = .ok ())
    (nextId : Nat) (calls : List (List Rule)) :
    (loopNames (Builder.builds ⟨config, nextId⟩ calls)).Nodup ∧
      List.Forall₂ (fun rules result => ∀ shader, result = .ok shader →
          shader.WellScoped rules ∧ ∀ window, shader.run? window = some (shader.run window))
        calls (Builder.builds ⟨config, nextId⟩ calls) := by
  constructor
  · exact (loopNames_builds (Config.radius_lt_of_check hconfig) nextId calls).2.imp Nat.ne_of_lt
  · refine (forall₂_wellScoped_builds config nextId calls).imp fun rules result h shader hok => ?_
    exact ⟨h shader hok, (h shader hok).run?_eq_some⟩

/-- Rules that are built, rules that are refused after their first loop has got its name, and the
    first rules once more. -/
def climbingCalls : List (List Rule) :=
  [climbingRules ⟨0, 1, 0⟩, climbingRules ⟨0, 2, 0⟩, climbingRules ⟨0, 1, 0⟩]

theorem builds_climbingCalls : Config.standard.check = .ok () ∧
    loopNames (Builder.builds ⟨.standard, 3⟩ climbingCalls) = [3, 4, 6, 7] ∧
    (loopNames (Builder.builds ⟨.standard, 3⟩ climbingCalls)).Nodup ∧
    ∃ shader, (Builder.build ⟨.standard, 3⟩ (climbingRules ⟨0, 1, 0⟩)).1 = .ok shader ∧
      ∀ window, shader.run? window = some (shader.run window) := by
  have hconfig : Config.standard.check = .ok () := rfl
  obtain ⟨hfresh, hall⟩ := builds_fresh_and_wellScoped hconfig 3 climbingCalls
  obtain ⟨hfirst, _⟩ := List.forall₂_cons.1 hall
  exact ⟨hconfig, by decide +kernel, hfresh, _, rfl, (hfirst _ rfl).2⟩

end BlockAutomata.Kernel
