/-
  The names that a kernel's text declares.

  1. Terms and tests declare nothing: their words are numbers, variables of loops and names of
     functions, and none of them is a keyword (`quiet_term`, `quiet_test`).

  2. A loop declares its four variables and then those of the loops in its body.  So what `iterate`
     declares follows the loops of the rules (`declares_iterate`), and at module scope there are the
     fixed names and the entry point (`moduleNames_whole`).

  3. Loops have names of their own, so no name is declared twice in `iterate`.  At module scope no
     name is declared twice exactly if the entry point is not one of the fixed names.
-/
import BlockAutomata.Proofs.Kernel.ShaderReader
import BlockAutomata.Proofs.Kernel.UniqueReading
import BlockAutomata.Proofs.Kernel.Scoping
import Mathlib.Data.List.Nodup

namespace BlockAutomata.Kernel

open Item (isWordChar keywords)
open Script (isDigits_toDigits)

namespace ShaderText

/-! ## Words -/

theorem isWordChar_of_isDigit {c : Char} (h : c.isDigit = true) : isWordChar c = true := by
  simp [isWordChar, Char.isAlphanum, h]

/-- Keywords consist of small letters. -/
theorem not_keyword {w : String} {c : Char} (hc : c ∈ w.toList) (hlower : c.isLower = false) :
    w ∉ keywords := by
  have hall : ∀ k ∈ keywords, k.toList.all Char.isLower = true := by decide
  intro hw
  rw [List.all_eq_true.1 (hall w hw) c hc] at hlower
  cases hlower

theorem isLower_of_isDigit {c : Char} (h : c.isDigit = true) : c.isLower = false := by
  have hstart : (c.isUpper || c.isLower || c == '_') = false :=
    Script.startsName_eq_false_of_isDigit h
  rw [Bool.or_eq_false_iff, Bool.or_eq_false_iff] at hstart
  exact hstart.1.2

theorem quiet_nat (n : Nat) : Quiet (toString n) := by
  have hdigits := isDigits_toDigits n
  obtain ⟨d, more, hd, hdigit⟩ := hdigits.exists_cons
  refine quiet_word ?_ (@not_keyword _ d ?_ (isLower_of_isDigit hdigit))
  · rw [toList_toString_nat]
    exact fun c hc => isWordChar_of_isDigit (hdigits.2 c hc)
  · rw [toList_toString_nat, hd]
    exact List.mem_cons_self

theorem quiet_int (x : Int) : Quiet (toString x) := by
  have hminus : Still "-" := still_text rfl (by decide)
  cases x with
  | ofNat n => exact quiet_nat n
  | negSucc n => exact hminus.append_quiet (quiet_nat (n + 1))

/-- The stems of the variables of a loop. -/
def stems : List String := ["count", "idx", "i", "o"]

theorem isWordChar_variableName {stem : String} (hstem : stem ∈ stems) (id : Nat) :
    ∀ c ∈ (variableName stem id).toList, isWordChar c = true := by
  have hall : ∀ stem ∈ stems, stem.toList.all isWordChar = true := by decide
  rw [toList_variableName]
  refine List.forall_mem_append.2 ⟨List.all_eq_true.1 (hall stem hstem), ?_⟩
  refine List.forall_mem_cons.2 ⟨rfl, fun c hc => ?_⟩
  exact isWordChar_of_isDigit ((isDigits_toDigits id).2 c hc)

theorem quiet_variableName {stem : String} (hstem : stem ∈ stems) (id : Nat) :
    Quiet (variableName stem id) := by
  refine quiet_word (isWordChar_variableName hstem id) (@not_keyword _ '_' ?_ rfl)
  rw [toList_variableName]
  exact List.mem_append_right _ List.mem_cons_self

/-! ## Terms and tests -/

theorem still_vector (o : Offset) : Still (vector o) :=
  (((still_text rfl (by decide)).through (quiet_int o.x.toInt) rfl (by decide)).through
    (quiet_int o.y.toInt) rfl (by decide)).through (quiet_int o.z.toInt) rfl (by decide)

theorem quiet_anchor (a : Anchor) : Quiet (anchor a) := by
  cases a with
  | center => exact (still_vector _).quiet
  | loop id => exact quiet_variableName (by decide) id

theorem quiet_place (a : Anchor) (o : Offset) : Quiet (place a o) := by
  cases a with
  | center => exact (still_vector o).quiet
  | loop id =>
    have ho : Quiet (variableName "o" id) := quiet_variableName (by decide) id
    rw [place]
    split
    · exact ho
    · exact ((ho.text rfl (by decide)).append (still_vector o)).quiet

theorem quiet_literal (n : Int32) : Quiet (literal n) := by
  rw [literal]
  split
  · exact ((still_text rfl (by decide)).through (quiet_int n.toInt) rfl (by decide)).quiet
  · exact quiet_int n.toInt

theorem still_symbol (op : Script.Operator) :
    Still (" " ++ op.symbol ++ " ") ∧ BeginsMark (" " ++ op.symbol ++ " ") := by
  cases op <;> exact ⟨⟨by decide, by decide⟩, ⟨_, _, rfl, rfl⟩⟩

/-- A term declares nothing. -/
theorem quiet_term (t : Term) : Quiet (term t) := by
  induction t with
  | word n => exact quiet_literal n
  | block a o =>
    exact ((still_text rfl (by decide)).through (quiet_place a o) rfl (by decide)).quiet
  | result id => exact quiet_variableName (by decide) id
  | sign l r ihl ihr =>
    refine Still.quiet (a := term (.sign l r)) ?_
    show Still ("select(select(0, -1, " ++ term l ++ " < " ++ term r ++ "), 1, " ++ term l ++
      " > " ++ term r ++ ")")
    exact ((((still_text rfl (by decide)).through ihl rfl (by decide)).through ihr rfl
      (by decide)).through ihl rfl (by decide)).through ihr rfl (by decide)
  | arith op l r ihl ihr =>
    have hterm : term (.arith op l r) =
        "(" ++ term l ++ (" " ++ op.symbol ++ " ") ++ term r ++ ")" := by
      show "(" ++ term l ++ " " ++ op.symbol ++ " " ++ term r ++ ")" = _
      simp only [String.append_assoc]
    have hleft : Quiet ("(" ++ term l) := (still_text rfl (by decide)).append_quiet ihl
    rw [hterm]
    exact ((hleft.append (still_symbol op).1 (still_symbol op).2).through ihr rfl
      (by decide)).quiet

mutual

/-- A test declares nothing. -/
theorem quiet_test : ∀ t : Test, Quiet (test t)
  | .eq l r => ((quiet_term l).text rfl (by decide)).append_quiet (quiet_term r)
  | .all [] => quiet_word (List.all_eq_true.1 rfl) (by decide)
  | .all (t :: ts) => quiet_tests (t :: ts)
  | .not t => ((still_text rfl (by decide)).through (quiet_test t) rfl (by decide)).quiet

/-- Tests declare nothing. -/
theorem quiet_tests : ∀ ts : List Test, Quiet (tests ts)
  | [] => still_empty.quiet
  | [t] => ((still_text rfl (by decide)).through (quiet_test t) rfl (by decide)).quiet
  | t :: u :: us =>
    ((still_text rfl (by decide)).through (quiet_test t) rfl (by decide)).append_quiet
      (quiet_tests (u :: us))

end

/-! ## Lines -/

theorem still_indent (depth : Nat) : Still (indent depth) := by
  induction depth with
  | zero => exact still_empty
  | succ depth ih => exact (still_text rfl (by decide)).append ih

theorem declares_unlines_nil (d : Nat) : Declares d (unlines []) [] d := still_empty.declares d

theorem declares_unlines_cons {d d' d'' : Nat} {l : String} {ls : List String}
    {names names' : List (Nat × String)} (hl : Declares d l names d')
    (hls : Declares d' (unlines ls) names' d'') :
    Declares d (unlines (l :: ls)) (names ++ names') d'' := by
  rw [unlines_cons]
  exact (hl.text rfl (by decide)).append hls

/-- A line that declares nothing, and may end in a comment. -/
theorem declares_still_cons {d d' : Nat} {l : String} {ls : List String}
    {names : List (Nat × String)} (hl : Still (l ++ "\n"))
    (hls : Declares d (unlines ls) names d') : Declares d (unlines (l :: ls)) names d' := by
  rw [unlines_cons]
  exact (hl.declares d).append hls

theorem toList_unlines_nil : (unlines []).toList = [] := rfl

theorem toList_unlines_cons {l : String} {ls : List String} {cs ds : List Char}
    (hl : l = String.ofList cs) (hls : (unlines ls).toList = ds) :
    (unlines (l :: ls)).toList = cs ++ '\n' :: ds := by
  rw [unlines_cons, String.toList_append, String.toList_append, toList_text hl, hls,
    List.append_assoc]
  rfl

/-- Given lines are read at once. -/
theorem declares_lines {d d' : Nat} {ls : List String} {cs : List Char}
    {names : List (Nat × String)} (hs : (unlines ls).toList = cs)
    (h : (Item.read (.word []) cs).1 = .word [] ∧
      Item.noteAll (d, .anything) (Item.read (.word []) cs).2 = ((d', .anything), names)) :
    Declares d (unlines ls) names d' := by
  rw [← hs] at h
  exact ⟨h.1, h.2⟩

/-! ## Loops -/

/-- A variable of a loop is declared where a name is expected. -/
theorem declares_variable {d : Nat} {a s stem : String} {c : Char} {cs : List Char}
    (ha : Announces d a) (hstem : stem ∈ stems) (id : Nat) (hs : s = String.ofList (c :: cs))
    (h : isWordChar c = false ∧ IsStill (c :: cs)) :
    Declares d (a ++ variableName stem id ++ s) [(d, variableName stem id)] d := by
  refine ha.name ?_ (isWordChar_variableName hstem id) ((still_text hs h.2).declares d)
    (beginsMark_text hs h.1)
  intro hempty
  have hlist := congrArg String.toList hempty
  rw [toList_variableName] at hlist
  simp at hlist

end ShaderText

/-- The variables of a loop. -/
def Loop.variables (c : Loop) : List String :=
  ShaderText.stems.map fun stem => ShaderText.variableName stem c.id

namespace ShaderText

/-- The part declares the variables of the loops, at the depth or deeper. -/
def DeclaresLoops (d : Nat) (s : String) (cs : List Loop) : Prop :=
  ∃ names, Declares d s names d ∧ names.map Prod.snd = cs.flatMap Loop.variables ∧
    ∀ n ∈ names, d ≤ n.1

theorem quiet_places (is : List Nat) : Quiet (", ".intercalate (is.map toString)) := by
  induction is with
  | nil => exact still_empty.quiet
  | cons i is ih =>
    cases is with
    | nil => exact quiet_nat i
    | cons j is =>
      rw [List.map_cons, List.map_cons, String.intercalate_cons_cons]
      exact ((quiet_nat i).text rfl (by decide)).append_quiet ih

/-- The lines of a loop before those of its body. -/
theorem declares_head (depth d id : Nat) (base : Anchor) (is : List Nat) :
    Declares d (unlines [
      indent depth ++ "var " ++ variableName "count" id ++ ": i32 = 0;",
      indent depth ++ "var " ++ variableName "idx" id ++ " = array<i32, " ++ toString is.length ++
        ">(" ++ ", ".intercalate (is.map toString) ++ ");",
      indent depth ++ "for (var " ++ variableName "i" id ++ ": i32 = 0; " ++ variableName "i" id ++
        " < " ++ toString is.length ++ "; " ++ variableName "i" id ++ " = " ++ variableName "i" id
        ++ " + 1) \x7b",
      indent depth ++ "    let " ++ variableName "o" id ++ " = " ++ anchor base ++
        " + NEIGHBOR_OFFSETS[" ++ variableName "idx" id ++ "[" ++ variableName "i" id ++ "]];"])
      [(d, variableName "count" id), (d, variableName "idx" id), (d, variableName "i" id),
        (d + 1, variableName "o" id)] (d + 1) := by
  have hvar : Announces d (indent depth ++ "var ") :=
    (still_indent depth).announces (announces_text rfl rfl rfl)
  have hfor : Announces d (indent depth ++ "for (var ") :=
    (still_indent depth).announces (announces_text rfl rfl rfl)
  have hlet : Announces (d + 1) (indent depth ++ "    let ") :=
    (still_indent depth).announces (announces_text rfl rfl rfl)
  have hopen : Declares d " + 1) \x7b" [] (d + 1) := declares_text rfl rfl rfl
  have hi : Quiet (variableName "i" id) := quiet_variableName (by decide) id
  have hidx : Quiet (variableName "idx" id) := quiet_variableName (by decide) id
  have hlength : Quiet (toString is.length) := quiet_nat is.length
  -- the count, the places, the counter of the loop and the cell where it stands
  refine declares_unlines_cons (declares_variable hvar (by decide) id rfl (by decide)) ?_
  refine declares_unlines_cons (((declares_variable hvar (by decide) id rfl
    (by decide)).through_text hlength rfl (by decide)).through_text (quiet_places is) rfl
    (by decide)) ?_
  refine declares_unlines_cons (((((declares_variable hfor (by decide) id rfl
    (by decide)).through_text hi rfl (by decide)).through_text hlength rfl
    (by decide)).through_text hi rfl (by decide)).through hi hopen (beginsMark_text rfl rfl)) ?_
  exact declares_unlines_cons ((((declares_variable hlet (by decide) id rfl
    (by decide)).through_text (quiet_anchor base) rfl (by decide)).through_text hidx rfl
    (by decide)).through_text hi rfl (by decide)) (declares_unlines_nil _)

/-- The lines of a loop behind those of its body. -/
theorem declares_tail (depth d id : Nat) (condition : Test) :
    Declares (d + 1) (unlines [
      indent depth ++ "    if (" ++ test condition ++ ") \x7b",
      indent depth ++ "        " ++ variableName "count" id ++ " = " ++ variableName "count" id ++
        " + 1;",
      indent depth ++ "    \x7d",
      indent depth ++ "\x7d"]) [] d := by
  have hopen : Declares (d + 1) ") \x7b" [] (d + 2) := declares_text rfl rfl rfl
  have hclose : Declares (d + 2) "    \x7d" [] (d + 1) := declares_text rfl rfl rfl
  have hclose' : Declares (d + 1) "\x7d" [] d := declares_text rfl rfl rfl
  have hindent := still_indent depth
  have hcount : Quiet (variableName "count" id) := quiet_variableName (by decide) id
  have hif : Declares (d + 1) (indent depth ++ "    if (") [] (d + 1) :=
    (hindent.text rfl (by decide)).declares _
  refine declares_unlines_cons (hif.through (quiet_test condition) hopen
    (beginsMark_text rfl rfl)) ?_
  refine declares_unlines_cons ((((hindent.text rfl (by decide)).through hcount rfl
    (by decide)).through hcount rfl (by decide)).declares _) ?_
  refine declares_unlines_cons ((hindent.declares _).append hclose) ?_
  exact declares_unlines_cons ((hindent.declares _).append hclose') (declares_unlines_nil _)

mutual

/-- A loop declares its variables and those of the loops inside it. -/
theorem declaresLoops_loop : ∀ (depth d : Nat) (c : Loop),
    DeclaresLoops d (loop depth c) c.subloops
  | depth, d, .mk id base is body condition => by
    obtain ⟨names, hbody, hnames, hdepth⟩ := declaresLoops_loops (depth + 1) (d + 1) body
    rw [loop]
    refine ⟨_, ((declares_head depth d id base is).append hbody).append
      (declares_tail depth d id condition), ?_, ?_⟩
    · rw [List.append_nil, List.map_append, hnames, Loop.subloops, List.flatMap_cons]
      rfl
    · rw [List.append_nil]
      refine List.forall_mem_append.2 ⟨?_, fun n hn => Nat.le_of_succ_le (hdepth n hn)⟩
      simp

/-- Loops declare the variables of all loops in them. -/
theorem declaresLoops_loops : ∀ (depth d : Nat) (cs : List Loop),
    DeclaresLoops d (loops depth cs) (Loop.subloopsAll cs)
  | _, d, [] => ⟨[], still_empty.declares d, rfl, nofun⟩
  | depth, d, c :: cs => by
    obtain ⟨names, hc, hnames, hdepth⟩ := declaresLoops_loop depth d c
    obtain ⟨names', hcs, hnames', hdepth'⟩ := declaresLoops_loops depth d cs
    rw [loops, Loop.subloopsAll]
    refine ⟨names ++ names', hc.append hcs, ?_, List.forall_mem_append.2 ⟨hdepth, hdepth'⟩⟩
    rw [List.map_append, hnames, hnames', List.flatMap_append]

end

/-! ## Rules -/

/-- The assignments of a rule declare nothing. -/
theorem still_values (values : List Term) :
    Still (unlines (values.map fun t => "            next = " ++ term t ++ ";")) := by
  induction values with
  | nil => exact still_empty
  | cons t ts ih =>
    rw [List.map_cons, unlines_cons]
    exact (((still_text rfl (by decide)).through (quiet_term t) rfl (by decide)).text rfl
      (by decide)).append ih

/-- A rule declares the variables of its loops. -/
theorem declaresLoops_code (i : Nat) (c : Code) :
    DeclaresLoops 1 (code i c) (Loop.subloopsAll c.loops) := by
  have hnumber : '\n' ∉ (toString i).toList := by
    rw [toList_toString_nat]
    exact fun h => absurd ((isDigits_toDigits i).2 _ h) (by decide)
  have hcomment : Still ("    // rule " ++ toString i ++ "\n") := still_comment rfl rfl hnumber
  have hopen : Declares 1 (unlines ["", "    // rule " ++ toString i, "    \x7b"]) [] 2 :=
    declares_still_cons (still_line rfl (by decide)) (declares_still_cons hcomment
      (declares_lines (toList_unlines_cons rfl toList_unlines_nil) (by decide +kernel)))
  have hbrace : Declares 2 ") \x7b" [] 3 := declares_text rfl rfl rfl
  have hif : Declares 2 (unlines ["        if (" ++ test c.test ++ ") \x7b"]) [] 3 :=
    declares_unlines_cons (((still_text rfl (by decide)).declares 2).through (quiet_test c.test)
      hbrace (beginsMark_text rfl rfl)) (declares_unlines_nil 3)
  have hvalues := (still_values c.values).declares 3
  have hclose : Declares 3 (unlines ["        \x7d", "    \x7d"]) [] 1 :=
    declares_lines (toList_unlines_cons rfl (toList_unlines_cons rfl toList_unlines_nil))
      (by decide +kernel)
  obtain ⟨names, hloops, hnames, hdepth⟩ := declaresLoops_loops 2 2 c.loops
  have hall := (((hopen.append hloops).append hif).append hvalues).append hclose
  simp only [List.nil_append, List.append_nil] at hall
  rw [code]
  exact ⟨names, hall, hnames, fun n hn => Nat.le_of_succ_le (hdepth n hn)⟩

/-- Rules declare the variables of their loops. -/
theorem declaresLoops_codes (i : Nat) (rules : List Code) :
    DeclaresLoops 1 (codes i rules) (rules.flatMap fun c => Loop.subloopsAll c.loops) := by
  induction rules generalizing i with
  | nil => exact ⟨[], still_empty.declares 1, rfl, nofun⟩
  | cons c cs ih =>
    obtain ⟨names, hc, hnames, hdepth⟩ := declaresLoops_code i c
    obtain ⟨names', hcs, hnames', hdepth'⟩ := ih (i + 1)
    rw [codes, List.flatMap_cons]
    refine ⟨names ++ names', hc.append hcs, ?_, List.forall_mem_append.2 ⟨hdepth, hdepth'⟩⟩
    rw [List.map_append, hnames, hnames', List.flatMap_append]

/-- The function made from the rules declares itself, the next block and the variables of the
    loops. -/
theorem declares_iterate (rules : List Code) : ∃ names,
    Declares 0 (iterate rules) ((0, "iterate") :: (1, "next") :: names) 0 ∧
      names.map Prod.snd =
        (rules.flatMap fun c => Loop.subloopsAll c.loops).flatMap Loop.variables ∧
      ∀ n ∈ names, 1 ≤ n.1 := by
  have hname : Declares 0 "fn iterate() -> i32 \x7b" [(0, "iterate")] 1 :=
    declares_text rfl rfl (by decide +kernel)
  have hnext : Declares 1 "    var next: i32 = cell(" [(1, "next")] 1 :=
    declares_text rfl rfl (by decide +kernel)
  have hhead : Declares 0 (unlines ["", "fn iterate() -> i32 \x7b",
      "    var next: i32 = cell(" ++ vector Offset.zero ++ ");"])
      [(0, "iterate"), (1, "next")] 1 :=
    declares_still_cons (still_line rfl (by decide)) (declares_unlines_cons hname
      (declares_unlines_cons (hnext.through_text (still_vector _).quiet rfl (by decide))
        (declares_unlines_nil 1)))
  have hlast : Declares 1 (unlines ["    return next;", "\x7d"]) [] 0 :=
    declares_lines (toList_unlines_cons rfl (toList_unlines_cons rfl toList_unlines_nil))
      (by decide +kernel)
  obtain ⟨names, hcodes, hnames, hdepth⟩ := declaresLoops_codes 0 rules
  have hall := (hhead.append hcodes).append hlast
  rw [List.append_nil] at hall
  exact ⟨names, hall, hnames, hdepth⟩

/-! ## The fixed parts -/

theorem quiet_unsigned (n : Nat) : Quiet (toString n ++ "u") := by
  have hdigits := isDigits_toDigits n
  have hlist : (toString n ++ "u").toList = Nat.toDigits 10 n ++ ['u'] := by
    rw [String.toList_append, toList_toString_nat]
    rfl
  obtain ⟨d, more, hd, hdigit⟩ := hdigits.exists_cons
  refine quiet_word ?_ (@not_keyword _ d ?_ (isLower_of_isDigit hdigit))
  · rw [hlist]
    exact List.forall_mem_append.2 ⟨fun c hc => isWordChar_of_isDigit (hdigits.2 c hc),
      List.forall_mem_singleton.2 rfl⟩
  · rw [hlist, hd]
    exact List.mem_cons_self

/-- A number with its unit in front of a semicolon. -/
theorem declares_unsigned {d d' : Nat} {a : String} {names : List (Nat × String)}
    (ha : Declares d a names d') (n : Nat) : Declares d (a ++ toString n ++ "u;") names d' := by
  have htext : a ++ toString n ++ "u;" = a ++ (toString n ++ "u") ++ ";" := by
    rw [String.append_assoc, String.append_assoc, String.append_assoc]
    rfl
  rw [htext]
  exact ha.through_text (quiet_unsigned n) rfl (by decide)

theorem still_offsets (offsets : List Offset) :
    Still ("\n".intercalate (offsets.map fun o => "    " ++ vector o ++ ",")) := by
  have hline : ∀ o, Still ("    " ++ vector o ++ ",") := fun o =>
    ((still_text rfl (by decide)).append (still_vector o)).text rfl (by decide)
  induction offsets with
  | nil => exact still_empty
  | cons o os ih =>
    cases os with
    | nil => exact hline o
    | cons p os =>
      rw [List.map_cons, List.map_cons, String.intercalate_cons_cons]
      exact ((hline o).text rfl (by decide)).append ih

theorem declares_header (radius : Nat) (offsets : List Offset) :
    Declares 0 (header radius offsets) [(0, "RADIUS"), (0, "SIDE"), (0, "NEIGHBOR_COUNT"),
      (0, "AIR"), (0, "NEIGHBOR_OFFSETS"), (0, "Params"), (0, "input"), (0, "output"),
      (0, "params"), (0, "neighbors"), (0, "cell"), (1, "q")] 0 := by
  have hradius : Declares 0 "const RADIUS: i32 = " [(0, "RADIUS")] 0 :=
    declares_text rfl rfl (by decide +kernel)
  have hside : Declares 0 "const SIDE: i32 = " [(0, "SIDE")] 0 :=
    declares_text rfl rfl (by decide +kernel)
  have hcount : Declares 0 "const NEIGHBOR_COUNT: u32 = " [(0, "NEIGHBOR_COUNT")] 0 :=
    declares_text rfl rfl (by decide +kernel)
  have hair : Declares 0 "const AIR: i32 = 0;" [(0, "AIR")] 0 :=
    declares_text rfl rfl (by decide +kernel)
  have hoffsets : Declares 0 "const NEIGHBOR_OFFSETS = array<vec3<i32>, "
      [(0, "NEIGHBOR_OFFSETS")] 0 :=
    declares_text rfl (by decide +kernel) (by decide +kernel)
  unfold header
  -- the first comment
  refine declares_still_cons (still_line rfl (by decide +kernel)) ?_
  refine declares_still_cons (still_line rfl (by decide +kernel)) ?_
  refine declares_still_cons (still_line rfl (by decide +kernel)) ?_
  refine declares_still_cons (still_line rfl (by decide)) ?_
  -- the constants
  refine declares_unlines_cons (hradius.through_text (quiet_nat _) rfl (by decide)) ?_
  refine declares_unlines_cons (hside.through_text (quiet_nat _) rfl (by decide)) ?_
  refine declares_unlines_cons (declares_unsigned hcount _) ?_
  refine declares_unlines_cons hair ?_
  refine declares_still_cons (still_line rfl (by decide)) ?_
  refine declares_unlines_cons (hoffsets.through_text (quiet_nat _) rfl (by decide)) ?_
  refine declares_unlines_cons ((still_offsets offsets).declares _) ?_
  -- the rest depends on nothing
  apply declares_lines
  · repeat apply toList_unlines_cons rfl
    exact toList_unlines_nil
  · decide +kernel

theorem isWordChar_of_isIdentifier {s : String} (h : Config.isIdentifier s = true) :
    ∀ c ∈ s.toList, isWordChar c = true := by
  rw [Config.isIdentifier] at h
  split at h
  · cases h
  · rename_i c cs hs
    rw [Bool.and_eq_true, List.all_eq_true] at h
    rw [hs]
    refine List.forall_mem_cons.2 ⟨?_, h.2⟩
    have hc := h.1
    simp only [Bool.or_eq_true] at hc
    rcases hc with hc | hc <;> simp [isWordChar, Char.isAlphanum, hc]

theorem ne_empty_of_isIdentifier {s : String} (h : Config.isIdentifier s = true) : s ≠ "" := by
  rintro rfl
  cases h

/-- The entry point declares itself and its variables. -/
theorem declares_entry {config : Config} (hentry : Config.isIdentifier config.entryPoint = true) :
    Declares 0 (entry config) [(0, config.entryPoint), (1, "width"), (1, "height"),
      (1, "cell_index"), (1, "base"), (1, "n")] 0 := by
  have hfn : Announces 0 "fn " := announces_text rfl rfl rfl
  have hbracket : Declares 0 "(" [] 0 := declares_text rfl rfl rfl
  have hname := hfn.name (ne_empty_of_isIdentifier hentry) (isWordChar_of_isIdentifier hentry)
    hbracket (beginsMark_text rfl rfl)
  have hsize : Still ("@compute @workgroup_size(" ++ toString config.workgroup.1 ++ ", " ++
      toString config.workgroup.2.1 ++ ", " ++ toString config.workgroup.2.2 ++ ")") :=
    (((still_text rfl (by decide)).through (quiet_nat _) rfl (by decide)).through (quiet_nat _) rfl
      (by decide)).through (quiet_nat _) rfl (by decide)
  have hopen : Declares 0 ") \x7b" [] 1 := declares_text rfl rfl rfl
  have hwidth : Declares 1 "    let width = groups.x * " [(1, "width")] 1 :=
    declares_text rfl rfl (by decide +kernel)
  have hheight : Declares 1 "    let height = groups.y * " [(1, "height")] 1 :=
    declares_text rfl rfl (by decide +kernel)
  unfold entry
  refine declares_still_cons (still_line rfl (by decide)) ?_
  refine declares_unlines_cons (hsize.declares 0) ?_
  refine declares_unlines_cons hname ?_
  refine declares_still_cons (still_line rfl (by decide +kernel)) ?_
  refine declares_still_cons (still_line rfl (by decide +kernel)) ?_
  refine declares_unlines_cons hopen ?_
  refine declares_unlines_cons (declares_unsigned hwidth _) ?_
  refine declares_unlines_cons (declares_unsigned hheight _) ?_
  apply declares_lines
  · repeat apply toList_unlines_cons rfl
    exact toList_unlines_nil
  · decide +kernel

/-! ## All names -/

/-- The names that every text declares at module scope. -/
def fixedNames : List String :=
  ["RADIUS", "SIDE", "NEIGHBOR_COUNT", "AIR", "NEIGHBOR_OFFSETS", "Params", "input", "output",
    "params", "neighbors", "cell", "iterate"]

section Whole

variable {config : Config} (hentry : Config.isIdentifier config.entryPoint = true)
  (offsets : List Offset) (rules : List Code)

include hentry

theorem declarations_whole : ∃ names,
    declarations (whole config offsets rules) =
      [(0, "RADIUS"), (0, "SIDE"), (0, "NEIGHBOR_COUNT"), (0, "AIR"), (0, "NEIGHBOR_OFFSETS"),
        (0, "Params"), (0, "input"), (0, "output"), (0, "params"), (0, "neighbors"), (0, "cell"),
        (1, "q")] ++ ((0, "iterate") :: (1, "next") :: names) ++
      [(0, config.entryPoint), (1, "width"), (1, "height"), (1, "cell_index"), (1, "base"),
        (1, "n")] ∧
      names.map Prod.snd =
        (rules.flatMap fun c => Loop.subloopsAll c.loops).flatMap Loop.variables ∧
      ∀ n ∈ names, 1 ≤ n.1 := by
  obtain ⟨names, hiterate, hnames, hdepth⟩ := declares_iterate rules
  have hwhole := ((declares_header config.radius offsets).append hiterate).append
    (declares_entry hentry)
  exact ⟨names, hwhole.declarations, hnames, hdepth⟩

/-- At module scope there are the fixed names and the entry point. -/
theorem moduleNames_whole :
    moduleNames (whole config offsets rules) = fixedNames ++ [config.entryPoint] := by
  obtain ⟨names, hall, -, hdepth⟩ := declarations_whole hentry offsets rules
  have hinside : names.filter (fun n => n.1 = 0) = [] := by
    rw [List.filter_eq_nil_iff]
    intro n hn
    have hpos := hdepth n hn
    simp only [decide_eq_true_eq]
    omega
  rw [moduleNames, hall]
  simp [hinside, fixedNames]

/-- Inside of `iterate` there are the next block and the variables of the loops. -/
theorem namesInside_iterate : namesInside "iterate" (whole config offsets rules) =
    "next" :: (rules.flatMap fun c => Loop.subloopsAll c.loops).flatMap Loop.variables := by
  obtain ⟨names, hall, hnames, hdepth⟩ := declarations_whole hentry offsets rules
  have hinside : ∀ n ∈ names, (!decide (n.1 = 0)) = true := fun n hn => by
    have hpos := hdepth n hn
    simp only [Bool.not_eq_true', decide_eq_false_iff_not]
    omega
  rw [namesInside, hall, ← hnames]
  simp [List.takeWhile_append_of_pos hinside]

end Whole

/-! ## No name twice -/

/-- A variable of a loop has its stem in front of the first underscore. -/
theorem stem_eq {stem : String} (hstem : stem ∈ stems) (id : Nat) :
    stem.toList = (variableName stem id).toList.takeWhile (· ≠ '_') := by
  have hall : ∀ stem ∈ stems, (stem.toList.all (· ≠ '_')) = true := by decide
  rw [toList_variableName, List.takeWhile_append_of_pos (List.all_eq_true.1 (hall stem hstem))]
  simp

theorem variableName_inj {stem stem' : String} {id id' : Nat} (hstem : stem ∈ stems)
    (hstem' : stem' ∈ stems) (h : variableName stem id = variableName stem' id') :
    stem = stem' ∧ id = id' := by
  have hstems : stem = stem' := by
    rw [← String.toList_inj, stem_eq hstem id, stem_eq hstem' id', h]
  subst hstems
  have hlist := congrArg String.toList h
  rw [← List.append_nil (variableName stem id).toList,
    ← List.append_nil (variableName stem id').toList] at hlist
  have hend : Script.StopsAt Char.isDigit [] := nofun
  exact ⟨rfl, (variableName_unique hend hend hlist).1⟩

theorem variables_nodup (c : Loop) : c.variables.Nodup := by
  refine List.Nodup.map_on (fun stem hstem stem' hstem' h => ?_) (by decide)
  exact (variableName_inj hstem hstem' h).1

/-- Loops with names of their own have variables of their own. -/
theorem flatMap_variables_nodup {cs : List Loop} (h : (cs.map Loop.id).Pairwise (· < ·)) :
    (cs.flatMap Loop.variables).Nodup := by
  rw [List.nodup_flatMap]
  refine ⟨fun c _ => variables_nodup c, (List.pairwise_map.1 h).imp fun {c c'} hlt => ?_⟩
  intro name hname hname'
  obtain ⟨stem, hstem, hstemName⟩ := List.mem_map.1 hname
  obtain ⟨stem', hstem', hstemName'⟩ := List.mem_map.1 hname'
  have hid := (variableName_inj hstem hstem' (hstemName.trans hstemName'.symm)).2
  omega

theorem next_not_mem_variables (cs : List Loop) : "next" ∉ cs.flatMap Loop.variables := by
  intro hnext
  obtain ⟨c, -, hc⟩ := List.mem_flatMap.1 hnext
  obtain ⟨stem, -, hstem⟩ := List.mem_map.1 hc
  have hlist := toList_variableName stem c.id
  rw [hstem] at hlist
  have hunderscore : '_' ∈ "next".toList := by
    rw [hlist]
    exact List.mem_append_right _ List.mem_cons_self
  exact absurd hunderscore (by decide)

end ShaderText

open ShaderText

/-- Settings are valid only with an identifier as the entry point. -/
theorem Config.isIdentifier_of_check {config : Config} (h : config.check = .ok ()) :
    Config.isIdentifier config.entryPoint = true := by
  unfold check at h
  grind

/-- A kernel with valid settings declares no name twice inside of `iterate`, and none twice at
    module scope unless the entry point is called like something that each kernel declares. -/
theorem declares_once {config : Config} (hconfig : config.check = .ok ()) {nextId : Nat}
    {rules : List Script.Rule} {shader : Shader}
    (hbuild : (Builder.build ⟨config, nextId⟩ rules).1 = .ok shader) :
    ((moduleNames shader.text).Nodup ↔ config.entryPoint ∉ fixedNames) ∧
      (namesInside "iterate" shader.text).Nodup := by
  have hentry := Config.isIdentifier_of_check hconfig
  have hfixed : fixedNames.Nodup := by decide
  obtain ⟨codes, n', hrun, rfl⟩ := Builder.exists_of_build hbuild
  have hnumbered := (lower_lowered hrun).2.pairwise_names
  constructor
  · show (moduleNames (whole config (windowOffsets config.radius) codes)).Nodup ↔ _
    rw [moduleNames_whole hentry, List.nodup_append_comm, List.singleton_append, List.nodup_cons]
    exact and_iff_left hfixed
  · show (namesInside "iterate" (whole config (windowOffsets config.radius) codes)).Nodup
    rw [namesInside_iterate hentry]
    exact List.nodup_cons.2 ⟨next_not_mem_variables _, flatMap_variables_nodup hnumbered⟩

/-- A block becomes 7 when the block above it has a block 5 next to it. -/
def nestedRules : List Script.Rule := [
  ⟨.equal (.count [⟨0, 1, 0⟩] (.equal (.count [⟨1, 0, 0⟩] (.isBlock 5)) (.literal 1))) (.literal 1),
    [.set 0 (.literal 7)]⟩]

theorem declares_once_nestedRules : Config.standard.check = .ok () ∧
    ∃ shader, (Builder.build ⟨.standard, 7⟩ nestedRules).1 = .ok shader ∧
      (moduleNames shader.text).Nodup ∧ (namesInside "iterate" shader.text).Nodup := by
  have hconfig : Config.standard.check = .ok () := rfl
  obtain ⟨shader, hbuild⟩ : ∃ shader, (Builder.build ⟨.standard, 7⟩ nestedRules).1 = .ok shader :=
    ⟨_, rfl⟩
  have hnames := declares_once hconfig hbuild
  exact ⟨hconfig, shader, hbuild, hnames.1.2 (by decide), hnames.2⟩

/-- The entry point may be called like the reader of cells, which then has a name that is declared
    twice. -/
theorem exists_declared_twice : ∃ config : Config, config.check = .ok () ∧
    ∃ shader, build config [] = .ok shader ∧ ¬ (moduleNames shader.text).Nodup := by
  refine ⟨⟨1, (4, 4, 4), "cell"⟩, rfl, _, rfl, ?_⟩
  rw [moduleNames_whole rfl]
  decide

end BlockAutomata.Kernel
