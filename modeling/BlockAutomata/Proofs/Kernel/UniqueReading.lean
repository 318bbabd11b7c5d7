/-
  The text of a kernel determines its code.

  1. Every part of the text can be read off from its front: if the texts of two parts, each with
     something behind it that cannot belong to it, are the same altogether, then the parts are the
     same, and so is what stands behind them.  For numbers, what follows must not be a digit; for
     tests, it must be a closing bracket; for loops, the "if" at their depth.

  2. The first two characters of a term say of which kind it is (`kindOf_term`), so terms are read
     by induction.  An equality and a conjunction may both begin with a bracket.  But what is inside
     of the brackets of a term goes on with an arithmetic operator, and no test does
     (`term_ne_bracket`).

  3. Loops, rules and whole texts are read line by line.
-/
import BlockAutomata.Proofs.Script.Lexemes
import BlockAutomata.Kernel.Shader

namespace BlockAutomata.Kernel.ShaderText

open Script (StopsAt IsDigits signedDigits isDigits_toDigits magnitude_toDigits toList_toString
  takeWhile_append_of_stopsAt)

variable {rest rest' : List Char}

/-! ## Numbers and vectors -/

theorem stopsAt_cons {p : Char → Bool} {c : Char} (h : p c = false) : StopsAt p (c :: rest) := by
  rintro d ⟨⟩
  exact h

theorem stopsAt_text {p : Char → Bool} {s : String}
    (h : (s.toList.head?.any fun c => !p c) = true) : StopsAt p (s.toList ++ rest) := by
  cases hs : s.toList with
  | nil =>
    rw [hs] at h
    cases h
  | cons c more =>
    rw [hs] at h
    exact stopsAt_cons (by simpa using h)

theorem toList_toString_nat (n : Nat) : (toString n).toList = Nat.toDigits 10 n := by
  simp

theorem toDigits_unique {m n : Nat} (hrest : StopsAt Char.isDigit rest)
    (hrest' : StopsAt Char.isDigit rest')
    (h : Nat.toDigits 10 m ++ rest = Nat.toDigits 10 n ++ rest') : m = n ∧ rest = rest' := by
  have hdigits := congrArg (List.takeWhile Char.isDigit) h
  rw [takeWhile_append_of_stopsAt (isDigits_toDigits m).2 hrest,
    takeWhile_append_of_stopsAt (isDigits_toDigits n).2 hrest'] at hdigits
  have hmn : m = n := by rw [← magnitude_toDigits m, hdigits, magnitude_toDigits]
  subst hmn
  exact ⟨rfl, List.append_cancel_left h⟩

/-- A number begins with a digit. -/
theorem toDigits_ne_cons {c : Char} (hc : c.isDigit = false) (n : Nat) (rest rest' : List Char) :
    Nat.toDigits 10 n ++ rest ≠ c :: rest' := by
  obtain ⟨d, more, hd, hdigit⟩ := (isDigits_toDigits n).exists_cons
  rw [hd]
  intro h
  rw [(List.cons.inj h).1, hc] at hdigit
  cases hdigit

theorem signedDigits_unique {x y : Int} (hrest : StopsAt Char.isDigit rest)
    (hrest' : StopsAt Char.isDigit rest') (h : signedDigits x ++ rest = signedDigits y ++ rest') :
    x = y ∧ rest = rest' := by
  by_cases hx : x < 0 <;> by_cases hy : y < 0
  · rw [signedDigits, signedDigits, if_pos hx, if_pos hy] at h
    obtain ⟨habs, hrests⟩ := toDigits_unique hrest hrest' (List.cons.inj h).2
    exact ⟨by omega, hrests⟩
  · rw [signedDigits, signedDigits, if_pos hx, if_neg hy] at h
    exact absurd h.symm (toDigits_ne_cons rfl _ _ _)
  · rw [signedDigits, signedDigits, if_neg hx, if_pos hy] at h
    exact absurd h (toDigits_ne_cons rfl _ _ _)
  · rw [signedDigits, signedDigits, if_neg hx, if_neg hy] at h
    obtain ⟨habs, hrests⟩ := toDigits_unique hrest hrest' h
    exact ⟨by omega, hrests⟩

theorem toList_vector (o : Offset) : (vector o).toList ++ rest = "vec3<i32>(".toList ++
    (signedDigits o.x.toInt ++ ',' :: ' ' :: (signedDigits o.y.toInt ++ ',' :: ' ' ::
      (signedDigits o.z.toInt ++ ')' :: rest))) := by
  unfold vector
  simp only [String.toList_append, toList_toString, List.append_assoc]
  rfl

theorem vector_unique {o p : Offset}
    (h : (vector o).toList ++ rest = (vector p).toList ++ rest') : o = p ∧ rest = rest' := by
  rw [toList_vector, toList_vector, List.append_cancel_left_eq] at h
  obtain ⟨hx, h⟩ := signedDigits_unique (stopsAt_cons rfl) (stopsAt_cons rfl) h
  simp only [List.cons.injEq, true_and] at h
  obtain ⟨hy, h⟩ := signedDigits_unique (stopsAt_cons rfl) (stopsAt_cons rfl) h
  simp only [List.cons.injEq, true_and] at h
  obtain ⟨hz, h⟩ := signedDigits_unique (stopsAt_cons rfl) (stopsAt_cons rfl) h
  refine ⟨?_, (List.cons.inj h).2⟩
  cases o
  cases p
  simp only [Int32.toInt_inj] at hx hy hz
  rw [hx, hy, hz]

/-! ## Anchors and places -/

theorem toList_variableName (stem : String) (id : Nat) :
    (variableName stem id).toList = stem.toList ++ '_' :: Nat.toDigits 10 id := by
  simp [variableName]

theorem anchor_unique {a b : Anchor} (hrest : StopsAt Char.isDigit rest)
    (hrest' : StopsAt Char.isDigit rest')
    (h : (anchor a).toList ++ rest = (anchor b).toList ++ rest') : a = b ∧ rest = rest' := by
  cases a <;> cases b
  · exact ⟨rfl, List.append_cancel_left h⟩
  · rw [anchor, anchor, toList_vector, toList_variableName] at h
    cases (List.cons.inj h).1
  · rw [anchor, anchor, toList_vector, toList_variableName] at h
    cases (List.cons.inj h).1
  · simp only [anchor, toList_variableName, List.append_assoc, List.append_cancel_left_eq,
      List.cons_append, List.cons.injEq, true_and] at h
    obtain ⟨rfl, hrests⟩ := toDigits_unique hrest hrest' h
    exact ⟨rfl, hrests⟩

/-- The place of a read from a loop: its cell, perhaps with an offset behind it. -/
theorem toList_place_loop (id : Nat) (o : Offset) : (place (.loop id) o).toList ++ ')' :: rest =
    'o' :: '_' :: (Nat.toDigits 10 id ++
      if o = Offset.zero then ')' :: rest
      else ' ' :: '+' :: ' ' :: ((vector o).toList ++ ')' :: rest)) := by
  rw [place]
  split
  · rw [toList_variableName, List.append_assoc]
    rfl
  · have ho : "o".toList = ['o'] := rfl
    have hplus : " + ".toList = [' ', '+', ' '] := rfl
    simp only [String.toList_append, toList_variableName, ho, hplus, List.append_assoc,
      List.cons_append, List.nil_append]

theorem place_unique {a b : Anchor} {o p : Offset}
    (h : (place a o).toList ++ ')' :: rest = (place b p).toList ++ ')' :: rest') :
    a = b ∧ o = p ∧ rest = rest' := by
  cases a <;> cases b
  · obtain ⟨rfl, hrests⟩ := vector_unique h
    exact ⟨rfl, rfl, (List.cons.inj hrests).2⟩
  · rw [place, toList_vector, toList_place_loop] at h
    cases (List.cons.inj h).1
  · rw [place, toList_vector, toList_place_loop] at h
    cases (List.cons.inj h).1
  · have hstops : ∀ (o : Offset) (rest : List Char), StopsAt Char.isDigit
        (if o = Offset.zero then ')' :: rest
          else ' ' :: '+' :: ' ' :: ((vector o).toList ++ ')' :: rest)) := by
      intro o rest
      split <;> exact stopsAt_cons rfl
    simp only [toList_place_loop, List.cons.injEq, true_and] at h
    obtain ⟨rfl, hrests⟩ := toDigits_unique (hstops o rest) (hstops p rest') h
    split at hrests <;> split at hrests
    · rename_i ho hp
      exact ⟨rfl, ho.trans hp.symm, (List.cons.inj hrests).2⟩
    · cases (List.cons.inj hrests).1
    · cases (List.cons.inj hrests).1
    · simp only [List.cons.injEq, true_and] at hrests
      obtain ⟨rfl, hends⟩ := vector_unique hrests
      exact ⟨rfl, rfl, (List.cons.inj hends).2⟩

/-! ## Terms -/

theorem symbol_unique {op op' : Script.Operator}
    (h : op.symbol.toList ++ rest = op'.symbol.toList ++ rest') : op = op' ∧ rest = rest' := by
  cases op <;> cases op' <;> first | exact ⟨rfl, (List.cons.inj h).2⟩ | cases (List.cons.inj h).1

section Equations

variable (n : Int32) (a : Anchor) (o : Offset) (id : Nat) (l r : Term) (op : Script.Operator)

theorem toList_word : (term (.word n)).toList ++ rest =
    if n.toInt < 0 then '(' :: '-' :: (Nat.toDigits 10 n.toInt.natAbs ++ ')' :: rest)
    else Nat.toDigits 10 n.toInt.natAbs ++ rest := by
  show (literal n).toList ++ rest = _
  by_cases hn : n.toInt < 0
  · rw [literal, if_pos (Int32.lt_iff_toInt_lt.2 hn), if_pos hn, String.toList_append,
      String.toList_append, toList_toString, signedDigits, if_pos hn, List.append_assoc,
      List.append_assoc]
    rfl
  · rw [literal, if_neg fun h => hn (Int32.lt_iff_toInt_lt.1 h), if_neg hn, toList_toString,
      signedDigits, if_neg hn]
    rfl

theorem toList_block : (term (.block a o)).toList ++ rest =
    "cell(".toList ++ ((place a o).toList ++ ')' :: rest) := by
  show ("cell(" ++ place a o ++ ")").toList ++ rest = _
  rw [String.toList_append, String.toList_append, List.append_assoc, List.append_assoc]
  rfl

theorem toList_result : (term (.result id)).toList ++ rest =
    "count_".toList ++ (Nat.toDigits 10 id ++ rest) := by
  show (variableName "count" id).toList ++ rest = _
  rw [toList_variableName, List.append_assoc]
  rfl

theorem toList_sign : (term (.sign l r)).toList ++ rest =
    "select(select(0, -1, ".toList ++ ((term l).toList ++ ' ' :: '<' :: ' ' ::
      ((term r).toList ++ ')' :: ',' :: ' ' :: '1' :: ',' :: ' ' ::
        ((term l).toList ++ ' ' :: '>' :: ' ' :: ((term r).toList ++ ')' :: rest)))) := by
  show ("select(select(0, -1, " ++ term l ++ " < " ++ term r ++ "), 1, " ++ term l ++ " > " ++
    term r ++ ")").toList ++ rest = _
  simp only [String.toList_append, List.append_assoc]
  rfl

theorem toList_arith : (term (.arith op l r)).toList ++ rest =
    '(' :: ((term l).toList ++ ' ' :: (op.symbol.toList ++ ' ' ::
      ((term r).toList ++ ')' :: rest))) := by
  show ("(" ++ term l ++ " " ++ op.symbol ++ " " ++ term r ++ ")").toList ++ rest = _
  simp only [String.toList_append, List.append_assoc]
  rfl

end Equations

/-- The kinds of terms. -/
inductive Kind where
  | word
  | block
  | result
  | sign
  | arith
  deriving DecidableEq

/-- The kind of a term. -/
def kind : Term → Kind
  | .word _ => .word
  | .block _ _ => .block
  | .result _ => .result
  | .sign _ _ => .sign
  | .arith _ _ _ => .arith

/-- The kind of the term that the text begins with. -/
def kindOf : List Char → Kind
  | '(' :: '-' :: _ => .word
  | '(' :: _ => .arith
  | 'c' :: 'e' :: _ => .block
  | 'c' :: _ => .result
  | 's' :: _ => .sign
  | _ => .word

/-- The characters that a term can begin with. -/
def BeginsTerm (c : Char) : Prop := c.isDigit = true ∨ c = '(' ∨ c = 'c' ∨ c = 's'

theorem term_head (t : Term) (rest : List Char) :
    ∃ c more, (term t).toList ++ rest = c :: more ∧ BeginsTerm c := by
  cases t with
  | word n =>
    obtain ⟨d, more, hd, hdigit⟩ := (isDigits_toDigits n.toInt.natAbs).exists_cons
    rw [toList_word, hd]
    split
    · exact ⟨_, _, rfl, Or.inr (Or.inl rfl)⟩
    · exact ⟨_, _, rfl, Or.inl hdigit⟩
  | block a o => exact ⟨_, _, toList_block a o, Or.inr (Or.inr (Or.inl rfl))⟩
  | result id => exact ⟨_, _, toList_result id, Or.inr (Or.inr (Or.inl rfl))⟩
  | sign l r => exact ⟨_, _, toList_sign l r, Or.inr (Or.inr (Or.inr rfl))⟩
  | arith op l r => exact ⟨_, _, toList_arith l r op, Or.inr (Or.inl rfl)⟩

theorem kindOf_term (t : Term) (rest : List Char) : kindOf ((term t).toList ++ rest) = kind t := by
  cases t with
  | word n =>
    obtain ⟨d, more, hd, hdigit⟩ := (isDigits_toDigits n.toInt.natAbs).exists_cons
    rw [toList_word, hd]
    split
    · rfl
    · show kindOf (d :: (more ++ rest)) = .word
      unfold kindOf
      split
      case h_1 | h_6 => rfl
      all_goals
        rename_i heq
        rw [(List.cons.inj heq).1] at hdigit
        cases hdigit
  | block a o => rw [toList_block]; rfl
  | result id => rw [toList_result]; rfl
  | sign l r => rw [toList_sign]; rfl
  | arith op l r =>
    obtain ⟨c, more, hc, hbegins⟩ := term_head l (' ' :: (op.symbol.toList ++ ' ' ::
      ((term r).toList ++ ')' :: rest)))
    rw [toList_arith, hc, kindOf.eq_2]
    · rfl
    · intro tail h
      rw [(List.cons.inj h).1] at hbegins
      rcases hbegins with h | h | h | h <;> cases h

theorem kind_eq {t t' : Term} (h : (term t).toList ++ rest = (term t').toList ++ rest') :
    kind t = kind t' := by
  rw [← kindOf_term t rest, h, kindOf_term]

theorem word_unique {n n' : Int32} (hrest : StopsAt Char.isDigit rest)
    (hrest' : StopsAt Char.isDigit rest')
    (h : (term (.word n)).toList ++ rest = (term (.word n')).toList ++ rest') :
    n = n' ∧ rest = rest' := by
  rw [toList_word, toList_word] at h
  split at h <;> split at h
  · simp only [List.cons.injEq, true_and] at h
    obtain ⟨habs, hrests⟩ := toDigits_unique (stopsAt_cons rfl) (stopsAt_cons rfl) h
    exact ⟨Int32.toInt_inj.1 (by omega), (List.cons.inj hrests).2⟩
  · exact absurd h.symm (toDigits_ne_cons rfl _ _ _)
  · exact absurd h (toDigits_ne_cons rfl _ _ _)
  · obtain ⟨habs, hrests⟩ := toDigits_unique hrest hrest' h
    exact ⟨Int32.toInt_inj.1 (by omega), hrests⟩

/-- A term is determined, if no digit follows it. -/
theorem term_unique {t t' : Term} (hrest : StopsAt Char.isDigit rest)
    (hrest' : StopsAt Char.isDigit rest')
    (h : (term t).toList ++ rest = (term t').toList ++ rest') : t = t' ∧ rest = rest' := by
  have hkind := kind_eq h
  induction t generalizing t' rest rest' with
  | word n =>
    cases t' <;> cases hkind
    obtain ⟨rfl, hrests⟩ := word_unique hrest hrest' h
    exact ⟨rfl, hrests⟩
  | block a o =>
    cases t' <;> cases hkind
    rw [toList_block, toList_block, List.append_cancel_left_eq] at h
    obtain ⟨rfl, rfl, hrests⟩ := place_unique h
    exact ⟨rfl, hrests⟩
  | result id =>
    cases t' <;> cases hkind
    rw [toList_result, toList_result, List.append_cancel_left_eq] at h
    obtain ⟨rfl, hrests⟩ := toDigits_unique hrest hrest' h
    exact ⟨rfl, hrests⟩
  | sign l r ihl ihr =>
    cases t' <;> cases hkind
    rw [toList_sign, toList_sign, List.append_cancel_left_eq] at h
    obtain ⟨rfl, hright⟩ := ihl (stopsAt_cons rfl) (stopsAt_cons rfl) h (kind_eq h)
    simp only [List.cons.injEq, true_and] at hright
    obtain ⟨rfl, hagain⟩ := ihr (stopsAt_cons rfl) (stopsAt_cons rfl) hright (kind_eq hright)
    simp only [List.cons.injEq, true_and, List.append_cancel_left_eq] at hagain
    exact ⟨rfl, hagain⟩
  | arith op l r ihl ihr =>
    cases t' <;> cases hkind
    rw [toList_arith, toList_arith] at h
    have h := (List.cons.inj h).2
    obtain ⟨rfl, hop⟩ := ihl (stopsAt_cons rfl) (stopsAt_cons rfl) h (kind_eq h)
    obtain ⟨rfl, hright⟩ := symbol_unique (List.cons.inj hop).2
    have hright := (List.cons.inj hright).2
    obtain ⟨rfl, hrests⟩ := ihr (stopsAt_cons rfl) (stopsAt_cons rfl) hright (kind_eq hright)
    exact ⟨rfl, (List.cons.inj hrests).2⟩

theorem term_injective : Function.Injective term := by
  intro t t' h
  refine (@term_unique [] [] t t' nofun nofun ?_).1
  rw [h]

/-! ## Tests -/

/-- What can follow a test. -/
def Closes (rest : List Char) : Prop := ∃ more, rest = ')' :: more

theorem closes_bracket (rest : List Char) : Closes (")".toList ++ rest) := ⟨rest, rfl⟩

theorem toList_eq (l r : Term) : (test (.eq l r)).toList ++ rest =
    (term l).toList ++ ' ' :: '=' :: '=' :: ' ' :: ((term r).toList ++ rest) := by
  show (term l ++ " == " ++ term r).toList ++ rest = _
  simp only [String.toList_append, List.append_assoc]
  rfl

theorem toList_not (t : Test) : (test (.not t)).toList ++ rest =
    '!' :: '(' :: ((test t).toList ++ ')' :: rest) := by
  show ("!(" ++ test t ++ ")").toList ++ rest = _
  simp only [String.toList_append, List.append_assoc]
  rfl

/-- The tests of a conjunction behind its first. -/
def further : List Test → List Char
  | [] => []
  | t :: ts => ' ' :: '&' :: '&' :: ' ' :: (tests (t :: ts)).toList

theorem toList_all (t : Test) (ts : List Test) : (test (.all (t :: ts))).toList ++ rest =
    '(' :: ((test t).toList ++ ')' :: (further ts ++ rest)) := by
  cases ts with
  | nil =>
    show ("(" ++ test t ++ ")").toList ++ rest = _
    simp only [String.toList_append, List.append_assoc]
    rfl
  | cons u us =>
    show ("(" ++ test t ++ ") && " ++ tests (u :: us)).toList ++ rest = _
    simp only [String.toList_append, List.append_assoc]
    rfl

/-- What stands behind the first test of a conjunction is another conjunction. -/
theorem further_cons (t : Test) (ts : List Test) : further (t :: ts) ++ rest =
    ' ' :: '&' :: '&' :: ' ' :: '(' :: ((test t).toList ++ ')' :: (further ts ++ rest)) := by
  show ' ' :: '&' :: '&' :: ' ' :: ((tests (t :: ts)).toList ++ rest) = _
  exact congrArg (' ' :: '&' :: '&' :: ' ' :: ·) (toList_all t ts)

theorem test_head (t : Test) (rest : List Char) :
    ∃ c more, (test t).toList ++ rest = c :: more ∧ (BeginsTerm c ∨ c = 't' ∨ c = '!') := by
  match t with
  | .eq l r =>
    obtain ⟨c, more, hc, hbegins⟩ := term_head l (' ' :: '=' :: '=' :: ' ' ::
      ((term r).toList ++ rest))
    exact ⟨c, more, (toList_eq l r).trans hc, Or.inl hbegins⟩
  | .all [] => exact ⟨_, _, rfl, Or.inr (Or.inl rfl)⟩
  | .all (t :: ts) => exact ⟨_, _, toList_all t ts, Or.inl (Or.inr (Or.inl rfl))⟩
  | .not t => exact ⟨_, _, toList_not t, Or.inr (Or.inr rfl)⟩

/-- No term begins with a character that is not of its own. -/
theorem term_ne_cons {c : Char} (hc : ¬ BeginsTerm c) (t : Term) (rest rest' : List Char) :
    (term t).toList ++ rest ≠ c :: rest' := by
  intro h
  obtain ⟨d, more, hd, hbegins⟩ := term_head t rest
  rw [h] at hd
  exact hc ((List.cons.inj hd).1 ▸ hbegins)

theorem not_beginsTerm : ¬ BeginsTerm 't' ∧ ¬ BeginsTerm '!' ∧ ¬ BeginsTerm '-' := by
  unfold BeginsTerm
  decide

/-- No term begins with a bracket and a test: an arithmetic operator follows what is inside of its
    brackets. -/
theorem term_ne_bracket (t : Term) (u : Test) (rest rest' : List Char) :
    (term t).toList ++ rest ≠ '(' :: ((test u).toList ++ rest') := by
  induction t generalizing u rest rest' with
  | word n =>
    intro h
    rw [toList_word] at h
    split at h
    · obtain ⟨c, more, hc, hbegins⟩ := test_head u rest'
      rw [hc] at h
      rw [← (List.cons.inj (List.cons.inj h).2).1] at hbegins
      rcases hbegins with h | h | h
      · exact not_beginsTerm.2.2 h
      · cases h
      · cases h
    · exact toDigits_ne_cons rfl _ _ _ h
  | block a o =>
    intro h
    rw [toList_block] at h
    cases (List.cons.inj h).1
  | result id =>
    intro h
    rw [toList_result] at h
    cases (List.cons.inj h).1
  | sign l r _ _ =>
    intro h
    rw [toList_sign] at h
    cases (List.cons.inj h).1
  | arith op l r ih _ =>
    intro h
    rw [toList_arith] at h
    have h := (List.cons.inj h).2
    match u with
    | .eq l' r' =>
      rw [toList_eq] at h
      obtain ⟨-, hop⟩ := term_unique (stopsAt_cons rfl) (stopsAt_cons rfl) h
      cases op <;> cases (List.cons.inj (List.cons.inj hop).2).1
    | .all [] => exact term_ne_cons not_beginsTerm.1 _ _ _ h
    | .all (v :: vs) =>
      rw [toList_all] at h
      exact ih v _ _ h
    | .not v =>
      rw [toList_not] at h
      exact term_ne_cons not_beginsTerm.2.1 _ _ _ h

theorem closes_ne {rest : List Char} (h : Closes rest) (more : List Char) : rest ≠ ' ' :: more := by
  obtain ⟨tail, rfl⟩ := h
  exact fun h => by cases (List.cons.inj h).1

mutual

/-- A test is determined, if a closing bracket follows it. -/
theorem test_unique : ∀ {t t' : Test} {rest rest' : List Char}, Closes rest → Closes rest' →
    (test t).toList ++ rest = (test t').toList ++ rest' → t = t' ∧ rest = rest'
  | .eq l r, .eq l' r', rest, rest', hrest, hrest', h => by
    rw [toList_eq, toList_eq] at h
    obtain ⟨rfl, hright⟩ := term_unique (stopsAt_cons rfl) (stopsAt_cons rfl) h
    simp only [List.cons.injEq, true_and] at hright
    obtain ⟨rest, rfl⟩ := hrest
    obtain ⟨rest', rfl⟩ := hrest'
    obtain ⟨rfl, hrests⟩ := term_unique (stopsAt_cons rfl) (stopsAt_cons rfl) hright
    exact ⟨rfl, hrests⟩
  | .eq l r, .all [], rest, rest', _, _, h => by
    rw [toList_eq] at h
    exact absurd h (term_ne_cons not_beginsTerm.1 _ _ _)
  | .eq l r, .all (u :: us), rest, rest', _, _, h => by
    rw [toList_eq, toList_all] at h
    exact absurd h (term_ne_bracket _ _ _ _)
  | .eq l r, .not u, rest, rest', _, _, h => by
    rw [toList_eq, toList_not] at h
    exact absurd h (term_ne_cons not_beginsTerm.2.1 _ _ _)
  | .all [], .eq l r, rest, rest', _, _, h => by
    rw [toList_eq] at h
    exact absurd h.symm (term_ne_cons not_beginsTerm.1 _ _ _)
  | .all [], .all [], rest, rest', _, _, h => ⟨rfl, List.append_cancel_left h⟩
  | .all [], .all (u :: us), rest, rest', _, _, h => by
    rw [toList_all] at h
    cases (List.cons.inj h).1
  | .all [], .not u, rest, rest', _, _, h => by
    rw [toList_not] at h
    cases (List.cons.inj h).1
  | .all (t :: ts), .eq l r, rest, rest', _, _, h => by
    rw [toList_eq, toList_all] at h
    exact absurd h.symm (term_ne_bracket _ _ _ _)
  | .all (t :: ts), .all [], rest, rest', _, _, h => by
    rw [toList_all] at h
    cases (List.cons.inj h).1
  | .all (t :: ts), .all (u :: us), rest, rest', hrest, hrest', h => by
    rw [toList_all, toList_all] at h
    obtain ⟨rfl, hfurther⟩ := test_unique ⟨_, rfl⟩ ⟨_, rfl⟩ (List.cons.inj h).2
    obtain ⟨rfl, hrests⟩ := further_unique hrest hrest' (List.cons.inj hfurther).2
    exact ⟨rfl, hrests⟩
  | .all (t :: ts), .not u, rest, rest', _, _, h => by
    rw [toList_all, toList_not] at h
    cases (List.cons.inj h).1
  | .not t, .eq l r, rest, rest', _, _, h => by
    rw [toList_eq, toList_not] at h
    exact absurd h.symm (term_ne_cons not_beginsTerm.2.1 _ _ _)
  | .not t, .all [], rest, rest', _, _, h => by
    rw [toList_not] at h
    cases (List.cons.inj h).1
  | .not t, .all (u :: us), rest, rest', _, _, h => by
    rw [toList_all, toList_not] at h
    cases (List.cons.inj h).1
  | .not t, .not u, rest, rest', _, _, h => by
    rw [toList_not, toList_not] at h
    simp only [List.cons.injEq, true_and] at h
    obtain ⟨rfl, hrests⟩ := test_unique ⟨_, rfl⟩ ⟨_, rfl⟩ h
    exact ⟨rfl, (List.cons.inj hrests).2⟩

/-- The other tests of a conjunction are determined, if a closing bracket follows them. -/
theorem further_unique : ∀ {ts us : List Test} {rest rest' : List Char}, Closes rest →
    Closes rest' → further ts ++ rest = further us ++ rest' → ts = us ∧ rest = rest'
  | [], [], rest, rest', _, _, h => ⟨rfl, h⟩
  | [], u :: us, rest, rest', hrest, _, h => absurd h (closes_ne hrest _)
  | t :: ts, [], rest, rest', _, hrest', h => absurd h.symm (closes_ne hrest' _)
  | t :: ts, u :: us, rest, rest', hrest, hrest', h => by
    rw [further_cons, further_cons] at h
    simp only [List.cons.injEq, true_and] at h
    obtain ⟨rfl, hfurther⟩ := test_unique ⟨_, rfl⟩ ⟨_, rfl⟩ h
    obtain ⟨rfl, hrests⟩ := further_unique hrest hrest' (List.cons.inj hfurther).2
    exact ⟨rfl, hrests⟩

end

theorem test_injective : Function.Injective test := by
  intro t t' h
  refine (@test_unique t t' [')'] [')'] ⟨_, rfl⟩ ⟨_, rfl⟩ ?_).1
  rw [h]

/-! ## Loops -/

theorem indent_succ (depth : Nat) :
    (indent (depth + 1)).toList = (indent depth).toList ++ [' ', ' ', ' ', ' '] := by
  induction depth with
  | zero => rfl
  | succ depth ih =>
    show ("    " ++ indent (depth + 1)).toList = ("    " ++ indent depth).toList ++ _
    rw [String.toList_append, ih, String.toList_append, List.append_assoc]

/-- The places that a loop goes through, in its text. -/
def listed (indices : List Nat) : List Char := (", ".intercalate (indices.map toString)).toList

theorem listed_singleton (i : Nat) : listed [i] = Nat.toDigits 10 i := by
  simp [listed]

theorem listed_cons_cons (i j : Nat) (js : List Nat) :
    listed (i :: j :: js) ++ rest =
      Nat.toDigits 10 i ++ ',' :: ' ' :: (listed (j :: js) ++ rest) := by
  simp [listed, String.intercalate_cons_cons]

/-- Places of a known number are determined, if a closing bracket follows them. -/
theorem listed_unique {is js : List Nat} (hlength : is.length = js.length)
    (h : listed is ++ (")".toList ++ rest) = listed js ++ (")".toList ++ rest')) :
    is = js ∧ rest = rest' := by
  induction is generalizing js with
  | nil =>
    cases js with
    | nil => exact ⟨rfl, List.append_cancel_left (List.append_cancel_left h)⟩
    | cons j js => cases hlength
  | cons i is ih =>
    match is, js, hlength with
    | [], [j], _ =>
      rw [listed_singleton, listed_singleton] at h
      obtain ⟨rfl, hrests⟩ := toDigits_unique (stopsAt_text rfl) (stopsAt_text rfl) h
      exact ⟨rfl, List.append_cancel_left hrests⟩
    | i' :: is, j :: j' :: js, hlength =>
      rw [listed_cons_cons, listed_cons_cons] at h
      obtain ⟨rfl, hmore⟩ := toDigits_unique (stopsAt_cons rfl) (stopsAt_cons rfl) h
      simp only [List.cons.injEq, true_and] at hmore
      obtain ⟨hindices, hrests⟩ := ih (Nat.succ.inj hlength) hmore
      exact ⟨congrArg (i :: ·) hindices, hrests⟩

/-- The text of a loop between its list of places and its anchor. -/
def head (depth id length : Nat) : String :=
  ";\n" ++ indent depth ++ "for (var " ++ variableName "i" id ++ ": i32 = 0; " ++
    variableName "i" id ++ " < " ++ toString length ++ "; " ++ variableName "i" id ++ " = " ++
    variableName "i" id ++ " + 1) \x7b\n" ++ indent depth ++ "    let " ++ variableName "o" id ++
    " = "

/-- The text of a loop behind its test. -/
def tail (depth id : Nat) : String :=
  " \x7b\n" ++ unlines [indent depth ++ "        " ++ variableName "count" id ++ " = " ++
      variableName "count" id ++ " + 1;",
    indent depth ++ "    \x7d", indent depth ++ "\x7d"]

theorem unlines_nil : unlines [] = "" := rfl

theorem unlines_cons (l : String) (ls : List String) :
    unlines (l :: ls) = l ++ "\n" ++ unlines ls := by
  simp [unlines]

theorem loop_eq (depth id : Nat) (base : Anchor) (is : List Nat) (body : List Loop)
    (condition : Test) : loop depth (.mk id base is body condition) =
      indent depth ++ "var " ++ variableName "count" id ++ ": i32 = 0;\n" ++ indent depth ++
        "var " ++ variableName "idx" id ++ " = array<i32, " ++ toString is.length ++ ">(" ++
        ", ".intercalate (is.map toString) ++ ")" ++ head depth id is.length ++ anchor base ++
        " + NEIGHBOR_OFFSETS[" ++ variableName "idx" id ++ "[" ++ variableName "i" id ++ "]];\n" ++
        loops (depth + 1) body ++ indent depth ++ "    if (" ++ test condition ++ ")" ++
        tail depth id := by
  rw [loop]
  unfold head tail
  simp only [unlines_cons, unlines_nil, String.append_assoc]
  rfl

theorem variableName_unique {stem : String} {id id' : Nat} (hrest : StopsAt Char.isDigit rest)
    (hrest' : StopsAt Char.isDigit rest')
    (h : (variableName stem id).toList ++ rest = (variableName stem id').toList ++ rest') :
    id = id' ∧ rest = rest' := by
  rw [toList_variableName, toList_variableName, List.append_assoc, List.append_assoc,
    List.append_cancel_left_eq] at h
  exact toDigits_unique hrest hrest' (List.cons.inj h).2

/-- What can follow loops at a depth: a line that begins with "if". -/
def BeginsIf (depth : Nat) (rest : List Char) : Prop :=
  ∃ more, rest = (indent depth).toList ++ 'i' :: more

/-- A loop at the same depth begins with "var". -/
theorem beginsIf_ne_loop {depth : Nat} (hrest : BeginsIf depth rest) (c : Loop) :
    rest ≠ (loop depth c).toList ++ rest' := by
  obtain ⟨more, rfl⟩ := hrest
  obtain ⟨id, base, is, body, condition⟩ := c
  intro h
  simp only [loop_eq, String.toList_append, List.append_assoc, List.append_cancel_left_eq] at h
  cases (List.cons.inj h).1

theorem beginsIf_succ (depth : Nat) (rest : List Char) :
    BeginsIf (depth + 1) ((indent depth).toList ++ ("    if (".toList ++ rest)) :=
  ⟨'f' :: ' ' :: '(' :: rest, by rw [indent_succ, List.append_assoc]; rfl⟩

mutual

/-- A loop is determined by its text. -/
theorem loop_unique : ∀ {depth : Nat} {c c' : Loop} {rest rest' : List Char},
    (loop depth c).toList ++ rest = (loop depth c').toList ++ rest' → c = c' ∧ rest = rest'
  | depth, .mk id base is body condition, .mk id' base' is' body' condition', rest, rest', h => by
    simp only [loop_eq, String.toList_append, List.append_assoc, List.append_cancel_left_eq] at h
    obtain ⟨rfl, hlength⟩ := variableName_unique (stopsAt_text rfl) (stopsAt_text rfl) h
    simp only [List.append_cancel_left_eq, toList_toString_nat] at hlength
    obtain ⟨hlength, hlist⟩ := toDigits_unique (stopsAt_text rfl) (stopsAt_text rfl) hlength
    rw [List.append_cancel_left_eq] at hlist
    obtain ⟨rfl, hbase⟩ := listed_unique hlength hlist
    rw [List.append_cancel_left_eq] at hbase
    obtain ⟨rfl, hbody⟩ := anchor_unique (stopsAt_text rfl) (stopsAt_text rfl) hbase
    simp only [List.append_cancel_left_eq] at hbody
    obtain ⟨rfl, htest⟩ := loops_unique (beginsIf_succ _ _) (beginsIf_succ _ _) hbody
    simp only [List.append_cancel_left_eq] at htest
    obtain ⟨rfl, hrests⟩ := test_unique (closes_bracket _) (closes_bracket _) htest
    simp only [List.append_cancel_left_eq] at hrests
    exact ⟨rfl, hrests⟩

/-- Loops are determined, if a line that begins with "if" follows them. -/
theorem loops_unique : ∀ {depth : Nat} {cs cs' : List Loop} {rest rest' : List Char},
    BeginsIf depth rest → BeginsIf depth rest' →
    (loops depth cs).toList ++ rest = (loops depth cs').toList ++ rest' → cs = cs' ∧ rest = rest'
  | depth, [], [], rest, rest', _, _, h => ⟨rfl, List.append_cancel_left h⟩
  | depth, [], c :: cs, rest, rest', hrest, _, h => by
    rw [loops, loops, String.toList_append, List.append_assoc] at h
    exact absurd h (beginsIf_ne_loop hrest c)
  | depth, c :: cs, [], rest, rest', _, hrest', h => by
    rw [loops, loops, String.toList_append, List.append_assoc] at h
    exact absurd h.symm (beginsIf_ne_loop hrest' c)
  | depth, c :: cs, c' :: cs', rest, rest', hrest, hrest', h => by
    rw [loops, loops, String.toList_append, String.toList_append, List.append_assoc,
      List.append_assoc] at h
    obtain ⟨rfl, hloops⟩ := loop_unique h
    obtain ⟨rfl, hrests⟩ := loops_unique hrest hrest' hloops
    exact ⟨rfl, hrests⟩

end

theorem loops_injective (depth : Nat) : Function.Injective (loops depth) := by
  intro cs cs' h
  refine (@loops_unique depth cs cs' _ _ ⟨[], rfl⟩ ⟨[], rfl⟩ ?_).1
  rw [h]

/-! ## Rules -/

/-- The assignments of a rule. -/
def assignments (values : List Term) : String :=
  unlines (values.map fun t => "            next = " ++ term t ++ ";")

theorem assignments_cons (t : Term) (ts : List Term) :
    assignments (t :: ts) = "            next = " ++ term t ++ ";" ++ "\n" ++ assignments ts :=
  unlines_cons _ _

/-- Assignments are determined, if a line with a closing brace follows them. -/
theorem assignments_unique {ts us : List Term}
    (h : (assignments ts).toList ++ ("        \x7d\n".toList ++ rest) =
      (assignments us).toList ++ ("        \x7d\n".toList ++ rest')) : ts = us ∧ rest = rest' := by
  have hne : ∀ (t : Term) (ts : List Term) (rest rest' : List Char),
      "        \x7d\n".toList ++ rest ≠ (assignments (t :: ts)).toList ++ rest' := by
    intro t ts rest rest' h
    rw [assignments_cons] at h
    simp at h
  induction ts generalizing us with
  | nil =>
    cases us with
    | nil => exact ⟨rfl, List.append_cancel_left (List.append_cancel_left h)⟩
    | cons u us => exact absurd h (hne u us _ _)
  | cons t ts ih =>
    cases us with
    | nil => exact absurd h.symm (hne t ts _ _)
    | cons u us =>
      simp only [assignments_cons, String.toList_append, List.append_assoc,
        List.append_cancel_left_eq] at h
      obtain ⟨rfl, hmore⟩ := term_unique (stopsAt_text rfl) (stopsAt_text rfl) h
      simp only [List.append_cancel_left_eq] at hmore
      obtain ⟨rfl, hrests⟩ := ih hmore
      exact ⟨rfl, hrests⟩

theorem code_eq (i : Nat) (c : Code) : code i c =
    "\n    // rule " ++ toString i ++ "\n    \x7b\n" ++ loops 2 c.loops ++ "        if (" ++
      test c.test ++ ")" ++ " \x7b\n" ++ assignments c.values ++ "        \x7d\n" ++
        "    \x7d\n" := by
  rw [code]
  unfold assignments
  simp only [unlines_cons, unlines_nil, String.append_assoc]
  rfl

/-- A rule with a known number is determined by its text. -/
theorem code_unique {i : Nat} {c c' : Code}
    (h : (code i c).toList ++ rest = (code i c').toList ++ rest') : c = c' ∧ rest = rest' := by
  obtain ⟨cs, t, values⟩ := c
  obtain ⟨cs', t', values'⟩ := c'
  simp only [code_eq, String.toList_append, List.append_assoc, List.append_cancel_left_eq] at h
  have hif : ∀ rest, BeginsIf 2 ("        if (".toList ++ rest) := fun rest => ⟨_, rfl⟩
  obtain ⟨rfl, htest⟩ := loops_unique (hif _) (hif _) h
  rw [List.append_cancel_left_eq] at htest
  obtain ⟨rfl, hvalues⟩ := test_unique (closes_bracket _) (closes_bracket _) htest
  simp only [List.append_cancel_left_eq] at hvalues
  obtain ⟨rfl, hrests⟩ := assignments_unique hvalues
  rw [List.append_cancel_left_eq] at hrests
  exact ⟨rfl, hrests⟩

/-- Rules are determined, if the line that returns the result follows them. -/
theorem codes_unique {i : Nat} {cs cs' : List Code}
    (h : (codes i cs).toList ++ ("    return next;\n".toList ++ rest) =
      (codes i cs').toList ++ ("    return next;\n".toList ++ rest')) :
    cs = cs' ∧ rest = rest' := by
  have hne : ∀ (i : Nat) (c : Code) (cs : List Code) (rest rest' : List Char),
      "    return next;\n".toList ++ rest ≠ (codes i (c :: cs)).toList ++ rest' := by
    intro i c cs rest rest' h
    rw [codes, code_eq] at h
    simp at h
  induction cs generalizing i cs' with
  | nil =>
    cases cs' with
    | nil => exact ⟨rfl, List.append_cancel_left (List.append_cancel_left h)⟩
    | cons c' cs' => exact absurd h (hne i c' cs' _ _)
  | cons c cs ih =>
    cases cs' with
    | nil => exact absurd h.symm (hne i c cs _ _)
    | cons c' cs' =>
      rw [codes, codes, String.toList_append, String.toList_append, List.append_assoc,
        List.append_assoc] at h
      obtain ⟨rfl, hmore⟩ := code_unique h
      obtain ⟨rfl, hrests⟩ := ih hmore
      exact ⟨rfl, hrests⟩

theorem iterate_eq (rules : List Code) : iterate rules =
    unlines ["", "fn iterate() -> i32 \x7b",
      "    var next: i32 = cell(" ++ vector Offset.zero ++ ");"] ++ codes 0 rules ++
        "    return next;\n" ++ "\x7d\n" := by
  rw [iterate]
  simp only [unlines_cons, unlines_nil, String.append_assoc]
  rfl

/-- For known settings and offsets, the whole text determines the rules. -/
theorem whole_injective (config : Config) (offsets : List Offset) :
    Function.Injective (whole config offsets) := by
  intro rules rules' h
  have h := congrArg String.toList h
  simp only [whole, iterate_eq, String.toList_append, List.append_assoc,
    List.append_cancel_left_eq] at h
  exact (codes_unique h).1

/-- The text of a kernel determines its code.  This is so for each part of the text: terms, tests,
    loops at any depth, and the whole text for known settings and window offsets. -/
theorem text_determines_code (config : Config) (offsets : List Offset) :
    Function.Injective term ∧ Function.Injective test ∧
      (∀ depth, Function.Injective (loops depth)) ∧
        Function.Injective (whole config offsets) :=
  ⟨term_injective, test_injective, loops_injective, whole_injective config offsets⟩

end BlockAutomata.Kernel.ShaderText
