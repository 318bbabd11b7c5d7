/-
  Writing rules down and reading them back.

  1. **Writing.**  `Rule.tokens` writes a rule with the names of a slot table: literals as numbers,
     operators between their operands and without parentheses, the test of a count in brackets in
     front of what is counted, conditions joined by `&` and effects by commas.  `lineTokens` joins
     the rules of a line.

  2. **Reading back.**  A reader that starts where its tree has been written takes exactly the
     tokens of the tree, provided that what follows cannot belong to it.  After an operand this
     means that no `@` follows; after a part of a chain, also that no operator of the part follows;
     after a condition or an effect, that one of the closing tokens follows.

  3. Hence the trees of a line are exactly the trees of the grammar's shape
     (`addTokens_exactly_shaped`).
-/
import BlockAutomata.Proofs.Script.Numbering

namespace BlockAutomata.Script

/-! ## Writing -/

/-- The token of an operator. -/
def Operator.token : Operator → Token
  | add => .plus
  | sub => .minus
  | mul => .star
  | div => .slash
  | rem => .percent

/-- The name of a neighbourhood, or an offset. -/
def targetToken : List Offset → Token
  | [o] => .offset o
  | os => .identifier (((Neighborhood.named.find? fun e => e.2 == os).map Prod.fst).getD "")

/-- The parts with a token between any two. -/
def separated (sep : Token) : List (List Token) → List Token
  | [] => []
  | part :: rest => part ++ rest.flatMap (sep :: ·)

/-- A comparison, from the tokens of its sides.  When the left side is a count, the rest of the
    comparison stands before it, in brackets and without a sign for equality. -/
def comparisonTokens (sign : Token) (left : Expr) (ls rs : List Token) : List Token :=
  match left with
  | .count _ _ =>
    .leftBracket :: (if sign = .equals then rs else sign :: rs) ++ .rightBracket :: ls
  | _ => ls ++ sign :: rs

/-- The tokens of a count test, without its brackets. -/
def Reading.CountTest.tokens : Reading.CountTest → List Token
  | exactly n => [.number n]
  | not n => [.exclamation, .number n]
  | greater n => [.greaterThan, .number n]
  | less n => [.lessThan, .number n]

section Writing

variable (t : SlotTable)

mutual

/-- The tokens of an expression; signs only stand in comparisons. -/
def Expr.tokens : Expr → List Token
  | .literal n => [.number n]
  | .channel s => [.identifier (t.nameOf s)]
  | .neighbor o s => [.offset o, .atSign, .identifier (t.nameOf s)]
  | .count os c => targetToken os :: .atSign :: c.tokens
  | .sign _ _ => []
  | .arith l r op => l.tokens ++ op.token :: r.tokens

/-- The tokens of a condition. -/
def Cond.tokens : Cond → List Token
  | .all cs => separated .and (Cond.tokensAll cs)
  | .not (.equal l r) => comparisonTokens .exclamation l l.tokens r.tokens
  | .not _ => []
  | .equal (.sign l r) (.literal n) =>
    comparisonTokens (if n = 1 then .greaterThan else .lessThan) l l.tokens r.tokens
  | .equal l r => comparisonTokens .equals l l.tokens r.tokens

/-- The tokens of each condition. -/
def Cond.tokensAll : List Cond → List (List Token)
  | [] => []
  | c :: cs => c.tokens :: Cond.tokensAll cs

end

/-- The tokens of an effect. -/
def Effect.tokens : Effect → List Token
  | .set s e => .identifier (t.nameOf s) :: .equals :: e.tokens t
  | .copy o => [.tilde, .offset o]
  | .raise name none => [.dollar, .identifier name]
  | .raise name (some e) => .dollar :: .identifier name :: .equals :: e.tokens t

/-- The tokens of a rule. -/
def Rule.tokens (r : Rule) : List Token :=
  r.condition.tokens t ++ .arrow :: separated .comma (r.effects.map (Effect.tokens t))

/-- The tokens of a line of rules. -/
def lineTokens (rules : List Rule) : List Token :=
  separated .separator (rules.map (Rule.tokens t)) ++ [.eof]

end Writing

/-- Whether the token can follow a condition or an effect. -/
def Token.closes : Token → Bool
  | and | arrow | comma | separator | eof => true
  | _ => false

/-- Each part behind a separator takes at least one token. -/
theorem length_le_length_flatMap (sep : Token) (parts : List (List Token)) :
    parts.length ≤ (parts.flatMap (sep :: ·)).length := by
  induction parts with
  | nil => exact Nat.le_refl 0
  | cons part parts ih =>
    rw [List.flatMap_cons, List.length_append, List.length_cons, List.length_cons]
    omega

theorem length_le_length_separated (sep : Token) {parts : List (List Token)}
    (hparts : ∀ part ∈ parts, 0 < part.length) : parts.length ≤ (separated sep parts).length := by
  cases parts with
  | nil => exact Nat.zero_le _
  | cons part parts =>
    have hpart := hparts part List.mem_cons_self
    have htail := length_le_length_flatMap sep parts
    rw [separated, List.length_append, List.length_cons]
    omega

theorem Effect.length_tokens_pos (t : SlotTable) (e : Effect) : 0 < (e.tokens t).length := by
  cases e with
  | set s e => exact Nat.succ_pos _
  | copy o => exact Nat.succ_pos _
  | raise name e => cases e <;> exact Nat.succ_pos _

/-- A token that can follow a condition or an effect comes next. -/
def Closing (rest : List Token) : Prop := (rest[0]?.getD Token.eof).closes = true

theorem closing_arrow (rest : List Token) : Closing (.arrow :: rest) := rfl

theorem closing_flatMap (sep : Token) (hsep : sep.closes = true) (parts : List (List Token))
    {rest : List Token} (hrest : Closing rest) : Closing (parts.flatMap (sep :: ·) ++ rest) := by
  cases parts with
  | nil => exact hrest
  | cons part parts => exact hsep

/-- A comparison of a count with a literal is a count test, and is written with the test in front of
    what is counted. -/
theorem Cond.Compares.exists_countTest (t : SlotTable) {os : List Offset} {inner : Cond} {n : Int64}
    {c : Cond} (hc : Cond.Compares (.count os inner) (.literal n) c) :
    ∃ test : Reading.CountTest, c = test.condition (.count os inner) ∧
      c.tokens t = .leftBracket ::
        (test.tokens ++ .rightBracket :: targetToken os :: .atSign :: inner.tokens t) := by
  cases hc with
  | equal => exact ⟨.exactly n, rfl, rfl⟩
  | differ => exact ⟨.not n, rfl, rfl⟩
  | greater => exact ⟨.greater n, rfl, rfl⟩
  | less => exact ⟨.less n, rfl, rfl⟩

namespace Reading

variable {t : SlotTable} (palette : Palette)

/-! ## Operands and targets -/

/-- The name under which a target is written belongs to its offsets. -/
theorem find?_targetName {os : List Offset} {name : String}
    (h : Neighborhood.find? name = some os) :
    ∃ name', ((Neighborhood.named.find? fun e => e.2 == os).map Prod.fst).getD "" = name' ∧
      Neighborhood.find? name' = some os := by
  have hn : (Neighborhood.named.map Prod.fst).Nodup := by decide
  obtain ⟨e, he⟩ : ∃ e, (Neighborhood.named.find? fun e => e.2 == os) = some e := by
    rw [← Option.isSome_iff_exists, List.find?_isSome]
    exact ⟨_, (lookup_eq_some_iff_mem hn).1 h, beq_self_eq_true os⟩
  have hos : e.2 = os := by simpa using List.find?_some he
  refine ⟨e.1, by rw [he]; rfl, (lookup_eq_some_iff_mem hn).2 ?_⟩
  exact hos ▸ List.mem_of_find?_eq_some he

/-- A target is read back from its token, which may stand before an `@`. -/
theorem runFrom_target {os : List Offset} (h : IsTarget os) (rest : List Token) :
    target.runFrom ⟨targetToken os :: rest, t⟩ = (.ok os, ⟨rest, t⟩) ∧
      atPath.runFrom ⟨targetToken os :: .atSign :: rest, t⟩ =
        (.ok true, ⟨targetToken os :: .atSign :: rest, t⟩) := by
  by_cases hone : ∃ o, os = [o]
  · obtain ⟨o, rfl⟩ := hone
    simp [targetToken, target, atPath]
  · obtain ⟨name, hname⟩ := h.resolve_right hone
    obtain ⟨name', hname', hfind⟩ := find?_targetName hname
    have htoken : targetToken os = .identifier name' := by
      rw [← hname', targetToken]
      exact fun o hos => hone ⟨o, hos⟩
    simp [htoken, target, atPath, hfind]

/-- An operand is read back, unless an `@` follows. -/
theorem runFrom_operand (hblock : blockName ∉ t.keys) {e : Expr} (he : e.IsOperand t.Knows)
    {rest : List Token} (hrest : rest[0]?.getD .eof ≠ .atSign) :
    (operand palette).runFrom ⟨e.tokens t ++ rest, t⟩ = (.ok e, ⟨rest, t⟩) := by
  cases he with
  | literal n => simp [Expr.tokens, operand, atPath]
  | channel hs => simp [Expr.tokens, operand, atPath, hrest, SlotTable.allocate_nameOf hblock hs]
  | neighbor o hs =>
    simp [Expr.tokens, operand, atPath, oneCell, target, SlotTable.allocate_nameOf hblock hs]

/-! ## Chains -/

/-- Along a chain of parts and operators, the loop takes what is written after the first part.  It
    uses up one round for each operator, so at most one for each token. -/
theorem runFrom_chain_tail {operator? : Token → Option Operator} {binds : Operator → Bool}
    {part : Expr → Prop} {x : Reading Expr} (follow : Token → Prop)
    (hop : ∀ op, binds op = true → operator? op.token = some op ∧ follow op.token)
    (hx : ∀ (e : Expr) (rest : List Token), part e → follow (rest[0]?.getD .eof) →
      x.runFrom ⟨e.tokens t ++ rest, t⟩ = (.ok e, ⟨rest, t⟩))
    {e : Expr} (he : e.IsChain binds part) :
    ∃ first tail rounds, part first ∧ e.tokens t = first.tokens t ++ tail ∧ rounds ≤ tail.length ∧
      ∀ rest : List Token, follow (rest[0]?.getD .eof) → follow ((tail ++ rest)[0]?.getD .eof) ∧
        ∀ n, (chain operator? x (n + rounds) first).runFrom ⟨tail ++ rest, t⟩ =
          (chain operator? x n e).runFrom ⟨rest, t⟩ := by
  induction he with
  | @one e he => exact ⟨e, [], 0, he, by simp, Nat.le_refl 0, fun _ h => ⟨h, fun _ => rfl⟩⟩
  | @more l r op hl hbinds hr ih =>
    obtain ⟨first, tail, rounds, hfirst, htokens, hrounds, htail⟩ := ih
    obtain ⟨hsome, hfollow⟩ := hop op hbinds
    refine ⟨first, tail ++ op.token :: r.tokens t, rounds + 1, hfirst, ?_, ?_, fun rest hrest => ?_⟩
    · rw [Expr.tokens, htokens, List.append_assoc]
    · rw [List.length_append, List.length_cons]
      omega
    · obtain ⟨hhead, hrun⟩ := htail (op.token :: (r.tokens t ++ rest)) hfollow
      rw [List.append_assoc, List.cons_append]
      refine ⟨hhead, fun n => ?_⟩
      have hl := hrun (n + 1)
      rw [Nat.add_right_comm] at hl
      rw [← Nat.add_assoc, hl]
      simp [chain, hsome, hx r rest hr hrest]

/-- A chain is read back, unless something follows that could go on with it. -/
theorem runFrom_chain {operator? : Token → Option Operator} {binds : Operator → Bool}
    {part : Expr → Prop} {x : Reading Expr} (follow : Token → Prop)
    (hop : ∀ op, binds op = true → operator? op.token = some op ∧ follow op.token)
    (hx : ∀ (e : Expr) (rest : List Token), part e → follow (rest[0]?.getD .eof) →
      x.runFrom ⟨e.tokens t ++ rest, t⟩ = (.ok e, ⟨rest, t⟩))
    {e : Expr} (he : e.IsChain binds part) {rest : List Token}
    (hrest : follow (rest[0]?.getD .eof)) (hstop : operator? (rest[0]?.getD .eof) = none) :
    (do
      let first ← x
      chain operator? x (← remaining) first).runFrom ⟨e.tokens t ++ rest, t⟩ =
        (.ok e, ⟨rest, t⟩) := by
  obtain ⟨first, tail, rounds, hfirst, htokens, hrounds, htail⟩ :=
    runFrom_chain_tail follow hop hx he
  obtain ⟨hhead, hrun⟩ := htail rest hrest
  obtain ⟨n, hn⟩ : ∃ n, (tail ++ rest).length = n + rounds :=
    ⟨(tail ++ rest).length - rounds, by rw [List.length_append]; omega⟩
  have hend : (chain operator? x n e).runFrom ⟨rest, t⟩ = (.ok e, ⟨rest, t⟩) := by
    cases n with
    | zero => rfl
    | succ n => simp [chain, hstop]
  rw [htokens, List.append_assoc, runFrom_bind, hx first _ hfirst hhead]
  simp only [runFrom_bind, runFrom_remaining, hn, hrun n, hend]

/-- A product is read back, unless an operator of products or an `@` follows. -/
theorem runFrom_product (hblock : blockName ∉ t.keys) {e : Expr} (he : e.IsProduct t.Knows)
    {rest : List Token} (hat : rest[0]?.getD .eof ≠ .atSign)
    (hstop : productOperator? (rest[0]?.getD .eof) = none) :
    (product palette).runFrom ⟨e.tokens t ++ rest, t⟩ = (.ok e, ⟨rest, t⟩) := by
  refine runFrom_chain (· ≠ .atSign) ?_ ?_ he hat hstop
  · intro op hop
    cases op <;> cases hop <;> exact ⟨rfl, by decide⟩
  · intro e rest he hrest
    exact runFrom_operand palette hblock he hrest

/-- A sum is read back in front of a closing token. -/
theorem runFrom_sum (hblock : blockName ∉ t.keys) {e : Expr} (he : e.IsSum t.Knows)
    {rest : List Token} (hrest : Closing rest) :
    (sum palette).runFrom ⟨e.tokens t ++ rest, t⟩ = (.ok e, ⟨rest, t⟩) := by
  have hclose : ∀ token : Token, token.closes = true →
      (token ≠ .atSign ∧ productOperator? token = none) ∧ sumOperator? token = none := by
    intro token h
    cases token <;> cases h <;> exact ⟨⟨by decide, rfl⟩, rfl⟩
  obtain ⟨hfollow, hstop⟩ := hclose _ hrest
  refine runFrom_chain (fun token => token ≠ .atSign ∧ productOperator? token = none) ?_
    ?_ he hfollow hstop
  · intro op hop
    cases op <;> cases hop <;> exact ⟨rfl, by decide, rfl⟩
  · intro e rest he hrest
    exact runFrom_product palette hblock he hrest.1 hrest.2

/-! ## Conditions -/

/-- A count test is read back with its brackets. -/
theorem runFrom_countTest? (test : CountTest) (rest : List Token) :
    countTest?.runFrom ⟨.leftBracket :: (test.tokens ++ .rightBracket :: rest), t⟩ =
      (.ok (some test), ⟨rest, t⟩) := by
  cases test <;> rfl

/-- A simple condition is read back in front of a closing token. -/
theorem runFrom_condition (hblock : blockName ∉ t.keys) {c : Cond} (hc : c.IsSimple t.Knows)
    {n : Nat} (hn : (c.tokens t).length ≤ n) {rest : List Token}
    (hrest : Closing rest) :
    (condition palette n).runFrom ⟨c.tokens t ++ rest, t⟩ = (.ok c, ⟨rest, t⟩) := by
  induction hc generalizing n with
  | own hs he hc =>
    have hname := SlotTable.allocate_nameOf hblock hs
    have hsum := runFrom_sum palette hblock he hrest
    cases n with
    | zero => cases hc <;> simp [Cond.tokens, comparisonTokens, Expr.tokens] at hn
    | succ n =>
      cases hc <;>
        simp [Cond.tokens, comparisonTokens, Expr.tokens, condition, countTest?, atPath,
          ownCondition, comparison?, hname, hsum, Cond.differ, Cond.greater, Cond.less]
  | @counted os inner _ _ hos _ hc ih =>
    obtain ⟨test, rfl, htokens⟩ := hc.exists_countTest t
    cases n with
    | zero => simp [htokens] at hn
    | succ n =>
      have hinner : (inner.tokens t).length ≤ n := by
        simp only [htokens, List.length_cons, List.length_append] at hn
        omega
      have htest := runFrom_countTest? (t := t) test
      have htarget := fun rest => runFrom_target (t := t) hos rest
      simp [htokens, condition, htest, htarget, ih hinner]

/-- A simple condition begins with a name, an offset or a bracket. -/
theorem tokens_eq_cons {c : Cond} (hc : c.IsSimple t.Knows) :
    ∃ token tail, c.tokens t = token :: tail ∧ token ≠ .arrow ∧ token ≠ .eof := by
  cases hc with
  | own _ _ hc => cases hc <;> exact ⟨_, _, rfl, nofun, nofun⟩
  | counted _ _ hc => cases hc <;> exact ⟨_, _, rfl, nofun, nofun⟩

/-- Further conditions are read back up to the arrow. -/
theorem runFrom_conditions_tail (hblock : blockName ∉ t.keys) {cs : List Cond}
    (hcs : ∀ c ∈ cs, c.IsSimple t.Knows) {n : Nat} (hn : cs.length < n) (rest : List Token) :
    (conditions palette n false).runFrom
        ⟨(cs.map (Cond.tokens t)).flatMap (Token.and :: ·) ++ .arrow :: rest, t⟩ =
      (.ok cs, ⟨.arrow :: rest, t⟩) := by
  induction cs generalizing n with
  | nil =>
    obtain ⟨n, rfl⟩ := Nat.exists_eq_add_of_lt hn
    simp [conditions]
  | cons c cs ih =>
    rw [List.forall_mem_cons] at hcs
    obtain ⟨n, rfl⟩ : ∃ m, n = m + 1 := ⟨n - 1, by omega⟩
    have hclose := closing_flatMap .and rfl (cs.map (Cond.tokens t)) (closing_arrow rest)
    have hc := fun m hm => runFrom_condition palette hblock hcs.1 (n := m) hm hclose
    have hrest := ih hcs.2 (n := n) (by simpa using hn)
    simp [conditions, hc, hrest]

theorem tokensAll_eq_map (t : SlotTable) (cs : List Cond) :
    Cond.tokensAll t cs = cs.map (Cond.tokens t) := by
  induction cs with
  | nil => rfl
  | cons c cs ih => rw [Cond.tokensAll, ih, List.map_cons]

/-- The simple conditions that a rule's condition consists of are written one after the other. -/
theorem parts_of_isConjunction {c : Cond} (hc : c.IsConjunction t.Knows) :
    ∃ first others, (∀ d ∈ first :: others, d.IsSimple t.Knows) ∧
      Cond.conjunction? (first :: others) = some c ∧
      c.tokens t = first.tokens t ++ (others.map (Cond.tokens t)).flatMap (Token.and :: ·) := by
  cases hc with
  | one hc => exact ⟨c, [], List.forall_mem_singleton.2 hc, rfl, (List.append_nil _).symm⟩
  | @several cs htwo hcs =>
    match cs, htwo, hcs with
    | first :: second :: others, _, hcs =>
      exact ⟨first, second :: others, hcs, rfl, by rw [Cond.tokens, tokensAll_eq_map]; rfl⟩

/-- The conditions of a rule are read back up to the arrow. -/
theorem runFrom_conditions (hblock : blockName ∉ t.keys) {first : Cond} {others : List Cond}
    (hcs : ∀ c ∈ first :: others, c.IsSimple t.Knows) {n : Nat} (hn : others.length + 1 < n)
    (rest : List Token) :
    (conditions palette n true).runFrom ⟨first.tokens t ++
        ((others.map (Cond.tokens t)).flatMap (Token.and :: ·) ++ .arrow :: rest), t⟩ =
      (.ok (first :: others), ⟨.arrow :: rest, t⟩) := by
  rw [List.forall_mem_cons] at hcs
  obtain ⟨n, rfl⟩ : ∃ m, n = m + 1 := ⟨n - 1, by omega⟩
  obtain ⟨token, tail, htokens, harrow, -⟩ := tokens_eq_cons hcs.1
  have hclose := closing_flatMap .and rfl (others.map (Cond.tokens t)) (closing_arrow rest)
  have hfirst := fun m hm => runFrom_condition palette hblock hcs.1 (n := m) hm hclose
  have hothers := runFrom_conditions_tail palette hblock hcs.2 (n := n) (by omega) rest
  rw [htokens, List.cons_append] at hfirst ⊢
  simp [conditions, harrow, hfirst, hothers]

/-! ## Effects -/

/-- An effect is read back in front of a closing token. -/
theorem runFrom_effect (hblock : blockName ∉ t.keys) {e : Effect} (he : e.IsShaped t.Knows)
    {rest : List Token} (hrest : Closing rest) :
    (effect palette).runFrom ⟨e.tokens t ++ rest, t⟩ = (.ok e, ⟨rest, t⟩) := by
  cases he with
  | set hs he =>
    have hname := SlotTable.allocate_nameOf hblock hs
    simp [Effect.tokens, effect, hname, runFrom_sum palette hblock he hrest]
  | copy o => simp [Effect.tokens, effect, oneCell, target]
  | announce name =>
    have hequals : rest[0]?.getD .eof ≠ .equals := by
      intro h
      rw [Closing, h] at hrest
      cases hrest
    simp [Effect.tokens, effect, hequals]
  | report name he => simp [Effect.tokens, effect, runFrom_sum palette hblock he hrest]

/-- The end of a rule comes next. -/
def EndsRule (rest : List Token) : Prop :=
  rest[0]?.getD .eof = .eof ∨ rest[0]?.getD .eof = .separator

theorem endsRule_eof : EndsRule [.eof] := Or.inl rfl

theorem endsRule_separator (rest : List Token) : EndsRule (.separator :: rest) := Or.inr rfl

theorem EndsRule.closing {rest : List Token} (h : EndsRule rest) : Closing rest := by
  rcases h with h | h <;> rw [Closing, h] <;> rfl

/-- Further effects are read back up to the end of the rule. -/
theorem runFrom_effects_tail (hblock : blockName ∉ t.keys) {es : List Effect}
    (hes : ∀ e ∈ es, e.IsShaped t.Knows) {n : Nat} (hn : es.length ≤ n) {rest : List Token}
    (hrest : EndsRule rest) :
    (effects palette n false).runFrom
        ⟨(es.map (Effect.tokens t)).flatMap (Token.comma :: ·) ++ rest, t⟩ =
      (.ok es, ⟨rest, t⟩) := by
  induction es generalizing n with
  | nil =>
    cases n with
    | zero => simp [effects]
    | succ n => rcases hrest with h | h <;> simp [effects, h]
  | cons e es ih =>
    rw [List.forall_mem_cons] at hes
    obtain ⟨n, rfl⟩ : ∃ m, n = m + 1 := ⟨n - 1, by simp at hn; omega⟩
    have hclose := closing_flatMap .comma rfl (es.map (Effect.tokens t)) hrest.closing
    have he := runFrom_effect palette hblock hes.1 hclose
    have htail := ih hes.2 (n := n) (by simpa using hn)
    simp [effects, he, htail]

/-- The effects of a rule are read back up to its end. -/
theorem runFrom_effects (hblock : blockName ∉ t.keys) {es : List Effect}
    (hes : ∀ e ∈ es, e.IsShaped t.Knows) (hne : es ≠ []) {n : Nat} (hn : es.length ≤ n)
    {rest : List Token} (hrest : EndsRule rest) :
    (effects palette n true).runFrom ⟨separated .comma (es.map (Effect.tokens t)) ++ rest, t⟩ =
      (.ok es, ⟨rest, t⟩) := by
  cases es with
  | nil => exact absurd rfl hne
  | cons e es =>
    rw [List.forall_mem_cons] at hes
    obtain ⟨n, rfl⟩ : ∃ m, n = m + 1 := ⟨n - 1, by simp at hn; omega⟩
    have hclose := closing_flatMap .comma rfl (es.map (Effect.tokens t)) hrest.closing
    have he := runFrom_effect palette hblock hes.1 hclose
    have htail := runFrom_effects_tail palette hblock hes.2 (n := n)
      (by simpa using hn) hrest
    simp [effects, separated, he, htail]

/-! ## Rules and lines -/

/-- A rule is read back in front of a separator or the end of the line. -/
theorem runFrom_rule (hblock : blockName ∉ t.keys) {r : Rule} (hr : r.IsShaped t.Knows)
    {rest : List Token} (hrest : EndsRule rest) :
    (rule palette).runFrom ⟨r.tokens t ++ rest, t⟩ = (.ok r, ⟨rest, t⟩) := by
  obtain ⟨first, others, hsimple, hall, htokens⟩ := parts_of_isConjunction hr.condition
  obtain ⟨token, tail, hfirst, -, -⟩ := tokens_eq_cons (hsimple first List.mem_cons_self)
  -- every condition after the first and every effect takes a token, so the loops do not run dry
  have hothers := length_le_length_flatMap .and (others.map (Cond.tokens t))
  have heffects : (r.effects.map (Effect.tokens t)).length ≤ _ :=
    length_le_length_separated .comma (by simp [Effect.length_tokens_pos])
  rw [List.length_map] at hothers heffects
  have hcs := fun n hn => runFrom_conditions palette hblock hsimple (n := n) hn
    (separated .comma (r.effects.map (Effect.tokens t)) ++ rest)
  have hes := fun n hn => runFrom_effects palette hblock hr.effects hr.nonempty
    (n := n) hn hrest
  rw [rule, Rule.tokens, htokens, List.append_assoc, List.append_assoc]
  simp only [runFrom_bind, runFrom_remaining, List.cons_append]
  rw [hcs _ (by simp only [hfirst, List.length_append, List.length_cons]; omega)]
  simp only [hall, runFrom_bind, runFrom_skip, runFrom_remaining, List.tail_cons]
  rw [hes _ (by rw [List.length_append]; omega)]
  rfl

/-- A rule begins with what its condition begins with, so not with the end of the line. -/
theorem tokens_eq_cons_of_isShaped {r : Rule} (hr : r.IsShaped t.Knows) :
    ∃ token tail, r.tokens t = token :: tail ∧ token ≠ .eof := by
  obtain ⟨first, others, hsimple, -, htokens⟩ := parts_of_isConjunction hr.condition
  obtain ⟨token, tail, hfirst, -, heof⟩ := tokens_eq_cons (hsimple first List.mem_cons_self)
  exact ⟨token, _, by rw [Rule.tokens, htokens, hfirst, List.cons_append, List.cons_append], heof⟩

theorem lineTokens_cons_cons (t : SlotTable) (r s : Rule) (others : List Rule) :
    lineTokens t (r :: s :: others) = r.tokens t ++ .separator :: lineTokens t (s :: others) := by
  simp [lineTokens, separated]

/-- The rules of a line are read back up to its end. -/
theorem runFrom_rules (hblock : blockName ∉ t.keys) {r : Rule} {others : List Rule}
    (hrs : ∀ q ∈ r :: others, q.IsShaped t.Knows) {n : Nat} (hn : others.length < n) :
    (rules palette n).runFrom ⟨lineTokens t (r :: others), t⟩ =
      (.ok (r :: others), ⟨[.eof], t⟩) := by
  induction others generalizing n r with
  | nil =>
    obtain ⟨n, rfl⟩ : ∃ m, n = m + 1 := ⟨n - 1, by omega⟩
    have hr := runFrom_rule palette hblock (hrs r List.mem_cons_self) endsRule_eof
    simp [rules, lineTokens, separated, hr]
  | cons s others ih =>
    obtain ⟨n, rfl⟩ : ∃ m, n = m + 1 := ⟨n - 1, by omega⟩
    rw [List.forall_mem_cons] at hrs
    have hr := runFrom_rule palette hblock hrs.1
      (endsRule_separator (lineTokens t (s :: others)))
    have hrest := ih hrs.2 (n := n) (by simpa using hn)
    rw [lineTokens_cons_cons]
    simp [rules, hr, hrest]

/-- A line of rules is read back, and the slot table stays as it is. -/
theorem ofTokens_lineTokens (hblock : blockName ∉ t.keys) {rs : List Rule}
    (hrs : ∀ r ∈ rs, r.IsShaped t.Knows) :
    Rule.ofTokens palette t (lineTokens t rs) = (.ok rs, t) := by
  rw [ofTokens_eq]
  cases rs with
  | nil => simp [line, lineTokens, separated]
  | cons r others =>
    obtain ⟨token, tail, htokens, heof⟩ :=
      tokens_eq_cons_of_isShaped (hrs r List.mem_cons_self)
    have hne : (lineTokens t (r :: others))[0]?.getD .eof ≠ .eof := by
      simp [lineTokens, separated, htokens, heof]
    have hothers := length_le_length_flatMap .separator (others.map (Rule.tokens t))
    rw [List.length_map] at hothers
    have hfuel : others.length < (lineTokens t (r :: others)).length := by
      simp only [lineTokens, List.map_cons, separated, List.length_append, List.length_cons]
      omega
    simp [line, hne, runFrom_rules palette hblock hrs hfuel]

end Reading

/-! ## Exactly these trees -/

namespace Draft

/-- What a good line adds to a draft has the shape of the grammar, with slots that are known
    afterwards.  And all rules of this shape whose slots are known already can be added, by writing
    them down: exactly they are added then, and no slot. -/
theorem addTokens_exactly_shaped {palette : Palette} {d : Draft} (hd : d.Reached palette) :
    (∀ tokens n, (d.addTokens palette tokens).1 = .ok n →
      ∃ rules, rules.length = n ∧
        (d.addTokens palette tokens).2.rules = d.rules ++ rules ∧
        ∀ r ∈ rules, r.IsShaped (d.addTokens palette tokens).2.slots.Knows) ∧
    ∀ rules, (∀ r ∈ rules, r.IsShaped d.slots.Knows) →
      d.addTokens palette (lineTokens d.slots rules) =
        (.ok rules.length, ⟨d.rules ++ rules, d.slots, d.lines + 1⟩) := by
  constructor
  · intro tokens n hok
    obtain ⟨slots, -, ⟨rules, h, hshaped⟩ | ⟨e, h⟩⟩ := addTokens_cases palette d tokens
    · rw [h] at hok ⊢
      cases hok
      exact ⟨rules, rfl, rfl, hshaped⟩
    · rw [h] at hok
      cases hok
  · intro rules hrules
    rw [addTokens, Reading.ofTokens_lineTokens palette hd.orderly.numbered.block hrules]

/-- A line in which a name gets its slot. -/
def firstLine : List Token :=
  [.identifier "age", .equals, .number 0, .arrow, .identifier "age", .equals, .number 1, .eof]

/-- A rule that refers to the slot: it counts neighbours of age 1, and grows older. -/
def agingRule : Rule where
  condition := .equal (.count [⟨1, 0, 0⟩] (.equal (.channel 1) (.literal 1))) (.literal 1)
  effects := [.set 1 (.arith (.channel 1) (.literal 1) .add)]

theorem addTokens_exactly_shaped_aging :
    (∃ rules, rules.length = 1 ∧
      (empty.addTokens Palette.standard firstLine).2.rules = [] ++ rules ∧
      ∀ r ∈ rules, r.IsShaped (empty.addTokens Palette.standard firstLine).2.slots.Knows) ∧
    let d := after Palette.standard [.tokens firstLine]
    d.addTokens Palette.standard (lineTokens d.slots [agingRule]) =
      (.ok 1, ⟨d.rules ++ [agingRule], d.slots, 2⟩) := by
  have hknown : (after Palette.standard [.tokens firstLine]).slots.Knows 1 :=
    Or.inr ⟨"age", by decide⟩
  refine ⟨(addTokens_exactly_shaped ⟨[], rfl⟩).1 firstLine 1 (by rfl), ?_⟩
  refine (addTokens_exactly_shaped ⟨[.tokens firstLine], rfl⟩).2 [agingRule]
    (List.forall_mem_singleton.2 ⟨?_, List.forall_mem_singleton.2 ?_, List.cons_ne_nil _ _⟩)
  · exact .one (.counted (Or.inr ⟨_, rfl⟩) (.own hknown (.one (.one (.literal 1))) .equal) .equal)
  · exact .set hknown (.more (.one (.one (.channel hknown))) rfl (.one (.literal 1)))

end Draft

end BlockAutomata.Script
