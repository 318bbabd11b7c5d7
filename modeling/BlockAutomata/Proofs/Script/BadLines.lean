/-
  Reading a source text around its bad lines, and up to the first of them.

  1. The lines of a text are what is left of it without the marks that end them: every text is made
     up of lines with their marks, and perhaps a last line without one, and is split into just these
     lines (`exists_sourceLines_eq`).

  2. `lineRules` says what one line of text gives where a draft stands: its rules, or what is wrong
     with it.  Adding the line does no more than this (`addLine_eq`): the rules of a good line go to
     the end, a bad line adds none, the slot table goes on, and the line counts.

  3. `lineResults` says it of all lines, each read where the lines before it have left off.  By
     induction on the lines, reading leniently collects the rules of the good lines and the errors
     of the bad ones (`addGoodLines_eq`), and an error carries the number of its line
     (`line_filterMap_error?`).

  4. Reading strictly goes through the same drafts up to the first error, so what it gives is
     decided by the errors of the lenient reading (`addLines_eq`).
-/
import BlockAutomata.Proofs.Script.Numbering
import BlockAutomata.Script.Program

namespace BlockAutomata.Script

/-! ## The lines of a text -/

/-- A line with the mark that ends it: a line feed, which may follow a return.  A return right
    before the line feed always belongs to the mark. -/
structure EndedLine where
  content : List Char
  /-- whether there is a return in the mark -/
  returns : Bool
  noFeed : '\n' ∉ content
  returns_of_getLast? : content.getLast? = some '\r' → returns = true

namespace EndedLine

/-- The line as it stands in a text. -/
def chars (l : EndedLine) : List Char :=
  l.content ++ if l.returns then ['\r', '\n'] else ['\n']

/-- A line without characters. -/
def blank (returns : Bool) : EndedLine := ⟨[], returns, List.not_mem_nil, nofun⟩

/-- A character before an ended line makes another. -/
theorem exists_chars_eq_cons {c : Char} (hc : c ≠ '\n') (l : EndedLine) :
    ∃ l' : EndedLine, l'.chars = c :: l.chars := by
  obtain ⟨content, returns, hfeed, hlast⟩ := l
  by_cases hmark : (c :: content).getLast? = some '\r' → returns = true
  · exact ⟨⟨c :: content, returns, List.not_mem_cons_of_ne_of_not_mem hc.symm hfeed, hmark⟩, rfl⟩
  -- only a return that comes right before the mark is not content, but joins the mark
  cases content with
  | nil =>
    simp only [List.getLast?_singleton, Option.some.injEq, Classical.not_imp,
      Bool.not_eq_true] at hmark
    obtain ⟨rfl, rfl⟩ := hmark
    exact ⟨blank true, rfl⟩
  | cons d content => exact absurd hlast (List.getLast?_cons_cons ▸ hmark)

end EndedLine

/-- Characters other than the line feed are met one after the other. -/
theorem splitLines_append {cs : List Char} (h : '\n' ∉ cs) (met rest : List Char) :
    splitLines met (cs ++ rest) = splitLines (cs.reverse ++ met) rest := by
  induction cs generalizing met with
  | nil => rfl
  | cons c cs ih =>
    have hc := List.ne_of_not_mem_cons h
    have hcs := List.not_mem_of_not_mem_cons h
    rw [List.cons_append, splitLines, ih hcs, List.reverse_cons, List.append_assoc]
    · rfl
    · exact fun hfeed => hc hfeed.symm

theorem withoutReturn_reverse {cs : List Char} (h : cs.getLast? ≠ some '\r') :
    withoutReturn cs.reverse = cs.reverse := by
  rw [List.getLast?_eq_head?_reverse] at h
  cases hcs : cs.reverse with
  | nil => rfl
  | cons c met =>
    rw [hcs, List.head?_cons] at h
    rw [withoutReturn]
    rintro met' hreturn
    exact h (congrArg some (List.cons.inj hreturn).1)

/-- An ended line is taken off the text without its mark. -/
theorem splitLines_chars (l : EndedLine) (rest : List Char) :
    splitLines [] (l.chars ++ rest) = l.content :: splitLines [] rest := by
  rw [EndedLine.chars, List.append_assoc, splitLines_append l.noFeed, List.append_nil]
  cases hreturns : l.returns with
  | true =>
    show (withoutReturn ('\r' :: l.content.reverse)).reverse :: splitLines [] rest = _
    rw [withoutReturn, List.reverse_reverse]
  | false =>
    have hlast : l.content.getLast? ≠ some '\r' := fun hlast =>
      Bool.false_ne_true (hreturns.symm.trans (l.returns_of_getLast? hlast))
    show (withoutReturn l.content.reverse).reverse :: splitLines [] rest = _
    rw [withoutReturn_reverse hlast, List.reverse_reverse]

/-- The lines of a text that is made up of ended lines, and perhaps characters after the last of
    them, which are a line if there are any. -/
theorem splitLines_flatMap (ls : List EndedLine) {last : List Char} (h : '\n' ∉ last) :
    splitLines [] (ls.flatMap EndedLine.chars ++ last) =
      ls.map EndedLine.content ++ if last.isEmpty then [] else [last] := by
  induction ls with
  | nil =>
    have hmet := splitLines_append h [] []
    simp only [List.append_nil, splitLines, List.isEmpty_reverse, List.reverse_reverse] at hmet
    exact hmet
  | cons l ls ih =>
    rw [List.flatMap_cons, List.append_assoc, splitLines_chars, ih]
    rfl

/-- Every text is made up of ended lines and characters after the last of them. -/
theorem exists_endedLines (text : List Char) :
    ∃ (ls : List EndedLine) (last : List Char),
      '\n' ∉ last ∧ text = ls.flatMap EndedLine.chars ++ last := by
  induction text with
  | nil => exact ⟨[], [], List.not_mem_nil, rfl⟩
  | cons c text ih =>
    obtain ⟨ls, last, hlast, rfl⟩ := ih
    by_cases hc : c = '\n'
    · subst hc
      exact ⟨.blank false :: ls, last, hlast, rfl⟩
    · cases ls with
      | nil => exact ⟨[], c :: last, List.not_mem_cons_of_ne_of_not_mem (Ne.symm hc) hlast, rfl⟩
      | cons l ls =>
        obtain ⟨l', hl'⟩ := l.exists_chars_eq_cons hc
        refine ⟨l' :: ls, last, hlast, ?_⟩
        rw [List.flatMap_cons, List.flatMap_cons, hl']
        rfl

/-- A source text is made up of its lines, each with the mark that ends it, where the last line may
    have none. -/
theorem exists_sourceLines_eq (source : String) :
    ∃ (ls : List EndedLine) (last : List Char), '\n' ∉ last ∧
      source.toList = ls.flatMap EndedLine.chars ++ last ∧
      sourceLines source =
        (ls.map EndedLine.content ++ if last.isEmpty then [] else [last]).map String.ofList := by
  obtain ⟨ls, last, hlast, htext⟩ := exists_endedLines source.toList
  refine ⟨ls, last, hlast, htext, ?_⟩
  rw [sourceLines, htext, splitLines_flatMap ls hlast]

/-- A return is part of the line unless a line feed follows it. -/
example : sourceLines "heat\r=1\r\n\n#air\r" = ["heat\r=1", "", "#air\r"] := by decide

/-! ## One line -/

/-- The rules of a line, or what is wrong with it. -/
abbrev LineResult := Except LineError (List Rule)

namespace LineResult

/-- The rules, of which a bad line has none. -/
def rules : LineResult → List Rule
  | .ok rules => rules
  | .error _ => []

/-- What is wrong with a bad line. -/
def error? : LineResult → Option LineError
  | .ok _ => none
  | .error e => some e

end LineResult

namespace Draft

/-- What a line of text gives where the draft stands.  Lines are numbered from 1. -/
def lineRules (palette : Palette) (d : Draft) (text : String) : LineResult :=
  match Token.ofLine text with
  | .error e => .error (.spelling (d.lines + 1) e)
  | .ok tokens =>
    match (Rule.ofTokens palette d.slots tokens).1 with
    | .error e => .error (.grammar ⟨d.lines + 1, e.cause, e.found⟩)
    | .ok rules => .ok rules

/-- What each of the lines gives.  Every line is read where the lines before it have left off, be
    they good or bad. -/
def lineResults (palette : Palette) (d : Draft) : List String → List LineResult
  | [] => []
  | l :: ls => d.lineRules palette l :: (d.addLine palette l).2.lineResults palette ls

/-- The second draft comes from the first by a bad line: no rule is added, the slots are kept and
    perhaps more given out, and the line counts. -/
structure Rejected (d d' : Draft) : Prop where
  rules : d'.rules = d.rules
  slots : d.slots.entries <+: d'.slots.entries
  keeps : ∀ name slot, d.slots.find? name = some slot → d'.slots.find? name = some slot
  lines : d'.lines = d.lines + 1

variable (palette : Palette) (d : Draft)

/-- Adding a line adds its rules, and its result is their number or the error. -/
theorem addLine_eq (text : String) :
    ∃ slots, d.slots.Grows slots ∧ d.addLine palette text =
      ((d.lineRules palette text).map List.length,
        ⟨d.rules ++ (d.lineRules palette text).rules, slots, d.lines + 1⟩) := by
  rw [addLine, lineRules]
  cases Token.ofLine text with
  | error e =>
    refine ⟨d.slots, SlotTable.Grows.refl _, ?_⟩
    rw [LineResult.rules, List.append_nil]
    rfl
  | ok tokens =>
    have hgrows : d.slots.Grows (Rule.ofTokens palette d.slots tokens).2 :=
      (Reading.ensures_line d.slots palette tokens).1
    dsimp only
    rw [addTokens]
    generalize Rule.ofTokens palette d.slots tokens = result at hgrows ⊢
    rcases result with ⟨e | rules, slots⟩
    · refine ⟨slots, hgrows, ?_⟩
      simp only [LineResult.rules, List.append_nil]
      rfl
    · exact ⟨slots, hgrows, rfl⟩

/-- An error carries the number of its line. -/
theorem line_of_lineRules {text : String} {e : LineError}
    (h : d.lineRules palette text = .error e) : e.line = d.lines + 1 := by
  rw [lineRules] at h
  split at h
  · cases h; rfl
  · split at h <;> cases h
    rfl

theorem rejected_of_addTokens {tokens : List Token} {e : GrammarError}
    (h : (d.addTokens palette tokens).1 = .error e) :
    d.Rejected (d.addTokens palette tokens).2 := by
  obtain ⟨slots, hgrows, ⟨rules, hok, -⟩ | ⟨e', herror⟩⟩ := addTokens_cases palette d tokens
  · rw [hok] at h
    cases h
  · rw [herror]
    exact ⟨rfl, hgrows.entries, fun _ _ => hgrows.find?, rfl⟩

theorem rejected_of_addLine {text : String} {e : LineError}
    (h : (d.addLine palette text).1 = .error e) : d.Rejected (d.addLine palette text).2 := by
  obtain ⟨slots, hgrows, hadd⟩ := addLine_eq palette d text
  rw [hadd] at h ⊢
  refine ⟨?_, hgrows.entries, fun _ _ => hgrows.find?, rfl⟩
  cases hresult : d.lineRules palette text with
  | error e => exact List.append_nil _
  | ok rules =>
    rw [hresult] at h
    cases h

/-- A line that cannot be cut into tokens gives out no slot. -/
theorem slots_addLine_of_spelling {text : String} {e : SpellingError}
    (h : Token.ofLine text = .error e) : (d.addLine palette text).2.slots = d.slots := by
  rw [addLine, h]

/-! ## All lines -/

/-- Reading leniently collects the rules of the good lines and the errors of the bad ones. -/
theorem addGoodLines_eq (ls : List String) :
    (d.addGoodLines palette ls).1.rules =
        d.rules ++ (d.lineResults palette ls).flatMap LineResult.rules ∧
      (d.addGoodLines palette ls).2 = (d.lineResults palette ls).filterMap LineResult.error? := by
  induction ls generalizing d with
  | nil => exact ⟨(List.append_nil _).symm, rfl⟩
  | cons l ls ih =>
    obtain ⟨slots, -, hadd⟩ := addLine_eq palette d l
    obtain ⟨hrules, herrors⟩ := ih (d.addLine palette l).2
    rw [hadd] at hrules herrors
    rw [addGoodLines, lineResults, hadd]
    cases hresult : d.lineRules palette l with
    | error e =>
      rw [hresult] at hrules herrors
      refine ⟨?_, congrArg (e :: ·) herrors⟩
      rw [List.flatMap_cons, ← List.append_assoc]
      exact hrules
    | ok rules =>
      rw [hresult] at hrules herrors
      refine ⟨?_, herrors⟩
      rw [List.flatMap_cons, ← List.append_assoc]
      exact hrules

/-- Reading strictly gives what reading leniently gives, unless there was an error; then it gives
    the first. -/
theorem addLines_eq (ls : List String) :
    d.addLines palette ls = match (d.addGoodLines palette ls).2 with
      | [] => .ok (d.addGoodLines palette ls).1
      | e :: _ => .error e := by
  induction ls generalizing d with
  | nil => rfl
  | cons l ls ih =>
    rw [addLines, addGoodLines]
    rcases d.addLine palette l with ⟨e | n, d'⟩
    · rfl
    · exact ih d'

/-- The errors carry the numbers of the bad lines, of which the first is the next line of the
    draft. -/
theorem line_filterMap_error? (ls : List String) :
    ((d.lineResults palette ls).filterMap LineResult.error?).map LineError.line =
      (((d.lineResults palette ls).zipIdx (d.lines + 1)).filter
        fun r => r.1.error?.isSome).map Prod.snd := by
  induction ls generalizing d with
  | nil => rfl
  | cons l ls ih =>
    obtain ⟨slots, -, hadd⟩ := addLine_eq palette d l
    have ih := ih (d.addLine palette l).2
    have hlines : (d.addLine palette l).2.lines = d.lines + 1 := by rw [hadd]
    rw [hlines] at ih
    rw [lineResults, List.zipIdx_cons]
    cases hresult : d.lineRules palette l with
    | error e =>
      have hline := line_of_lineRules palette d hresult
      simp only [List.filterMap_cons, LineResult.error?, List.map_cons, List.filter_cons,
        Option.isSome_some, if_true, ih, hline]
    | ok rules => exact ih

/-- Numbers that are given in order stay in order when some are left out. -/
theorem pairwise_filter_zipIdx {α : Type} (xs : List α) (n : Nat) (p : α × Nat → Bool) :
    (((xs.zipIdx n).filter p).map Prod.snd).Pairwise (· < ·) := by
  refine List.Pairwise.sublist (List.filter_sublist.map Prod.snd) ?_
  rw [List.zipIdx_map_snd]
  exact List.pairwise_lt_range'

/-- Reading leniently gives the rules of the good lines in order, and one error for each other line,
    with the number of the line.  Reading strictly gives the same program if there is no error, and
    otherwise the first error.  And whatever is the matter with a line, no rule of it is added, all
    slots are kept, and the line counts; if it cannot be cut into tokens, it gets no slots
    either. -/
theorem reads_around_bad_lines (palette : Palette) (source : String) :
    (let results := empty.lineResults palette (sourceLines source)
      let lenient := Program.ofGoodLines palette source
      lenient.1.rules = results.flatMap LineResult.rules ∧
      lenient.2 = results.filterMap LineResult.error? ∧
      lenient.2.map LineError.line =
        ((results.zipIdx 1).filter fun r => r.1.error?.isSome).map Prod.snd ∧
      (lenient.2.map LineError.line).Pairwise (· < ·) ∧
      Program.ofSource palette source = match lenient.2 with
        | [] => .ok lenient.1
        | e :: _ => .error e) ∧
    ∀ d : Draft,
      (∀ text, (d.addLine palette text).1 = (d.lineRules palette text).map List.length ∧
        (d.addLine palette text).2.rules = d.rules ++ (d.lineRules palette text).rules) ∧
      (∀ tokens e, (d.addTokens palette tokens).1 = .error e →
        d.Rejected (d.addTokens palette tokens).2) ∧
      (∀ text e, (d.addLine palette text).1 = .error e →
        d.Rejected (d.addLine palette text).2) ∧
      ∀ text e, Token.ofLine text = .error e →
        (d.addLine palette text).2.slots = d.slots := by
  have hgood := addGoodLines_eq palette empty (sourceLines source)
  have hnumbers := line_filterMap_error? palette empty (sourceLines source)
  refine ⟨⟨hgood.1, hgood.2, ?_, ?_, ?_⟩, fun d => ⟨fun text => ?_, fun _ _ =>
    rejected_of_addTokens palette d, fun _ _ => rejected_of_addLine palette d, fun _ _ =>
    slots_addLine_of_spelling palette d⟩⟩
  · exact (congrArg (List.map LineError.line) hgood.2).trans hnumbers
  · show ((empty.addGoodLines palette (sourceLines source)).2.map LineError.line).Pairwise (· < ·)
    rw [hgood.2, hnumbers]
    exact pairwise_filter_zipIdx _ _ _
  · rw [Program.ofSource, addLines_eq, Program.ofGoodLines]
    dsimp only
    cases (empty.addGoodLines palette (sourceLines source)).2 with
    | nil => rfl
    | cons e es => rfl
  · obtain ⟨slots, -, hadd⟩ := addLine_eq palette d text
    rw [hadd]
    exact ⟨rfl, rfl⟩

/-- A good rule, and behind the bar one that names a channel before it breaks off. -/
def halfGoodLine : List Token :=
  [.constant "dirt", .arrow, .constant "stone", .separator, .identifier "heat", .equals, .number 1,
    .arrow, .eof]

theorem ofLine_stray : Token.ofLine "age=1 ?" = .error (.strayCharacter '?' 7) := by
  with_unfolding_all rfl

/-- Among four lines, the second has a stray character and the third breaks off in its last rule.
    The first ends with a return as well, the last without a mark. -/
def badInside : String :=
  "#air -> heat=1\r\nage=1 ?\n#dirt -> #stone | fuel=1 ->\nfuel=2 -> heat=2"

/-- The fuel of the third line keeps its slot, which the last line asks for. -/
def goodRules : List Rule :=
  [⟨.isBlock 0, [.set 1 (.literal 1)]⟩, ⟨.equal (.channel 2) (.literal 2), [.set 1 (.literal 2)]⟩]

theorem lineResults_badInside :
    empty.lineResults Palette.standard (sourceLines badInside) =
      [.ok [⟨.isBlock 0, [.set 1 (.literal 1)]⟩], .error (.spelling 2 (.strayCharacter '?' 7)),
        .error (.grammar ⟨3, .expected .effect, .eof⟩),
        .ok [⟨.equal (.channel 2) (.literal 2), [.set 1 (.literal 2)]⟩]] := by
  have hlines : sourceLines badInside =
      ["#air -> heat=1", "age=1 ?", "#dirt -> #stone | fuel=1 ->", "fuel=2 -> heat=2"] := by rfl
  have hfirst : Token.ofLine "#air -> heat=1" =
      .ok [.constant "air", .arrow, .identifier "heat", .equals, .number 1, .eof] := by
    with_unfolding_all rfl
  have hthird : Token.ofLine "#dirt -> #stone | fuel=1 ->" =
      .ok [.constant "dirt", .arrow, .constant "stone", .separator, .identifier "fuel", .equals,
        .number 1, .arrow, .eof] := by
    with_unfolding_all rfl
  have hfourth : Token.ofLine "fuel=2 -> heat=2" =
      .ok [.identifier "fuel", .equals, .number 2, .arrow, .identifier "heat", .equals, .number 2,
        .eof] := by
    with_unfolding_all rfl
  simp only [hlines, lineResults, lineRules, addLine, hfirst, ofLine_stray, hthird, hfourth]
  rfl

/-- Neither rule of the line is added, but the channel has its slot.  A line with a stray character
    only counts, and its channel has none.  Among four lines the two bad ones are left out and told
    by their numbers, and reading strictly stops at the first of them. -/
theorem reads_around_bad_lines_halfGood :
    (let d := (empty.addTokens Palette.standard halfGoodLine).2
    (empty.addTokens Palette.standard halfGoodLine).1 = .error ⟨1, .expected .effect, .eof⟩ ∧
      empty.Rejected d ∧ d.slots.entries = [("heat", 1)] ∧
      (d.addLine Palette.standard "age=1 ?").1 = .error (.spelling 2 (.strayCharacter '?' 7)) ∧
      d.Rejected (d.addLine Palette.standard "age=1 ?").2 ∧
      (d.addLine Palette.standard "age=1 ?").2.slots = d.slots) ∧
    (Program.ofGoodLines Palette.standard badInside).1.rules = goodRules ∧
    (Program.ofGoodLines Palette.standard badInside).2 =
      [.spelling 2 (.strayCharacter '?' 7), .grammar ⟨3, .expected .effect, .eof⟩] ∧
    Program.ofSource Palette.standard badInside = .error (.spelling 2 (.strayCharacter '?' 7)) := by
  have hbad : (empty.addTokens Palette.standard halfGoodLine).1 =
      .error ⟨1, .expected .effect, .eof⟩ := by rfl
  have hfed : ((empty.addTokens Palette.standard halfGoodLine).2.addLine Palette.standard
      "age=1 ?").1 = .error (.spelling 2 (.strayCharacter '?' 7)) := by
    rw [addLine, ofLine_stray]
    rfl
  obtain ⟨⟨hrules, herrors, -, -, hstrict⟩, hall⟩ :=
    reads_around_bad_lines Palette.standard badInside
  obtain ⟨-, htokens, -, -⟩ := hall empty
  obtain ⟨-, -, hline, hspelling⟩ := hall (empty.addTokens Palette.standard halfGoodLine).2
  rw [lineResults_badInside] at hrules herrors
  rw [herrors] at hstrict
  exact ⟨⟨hbad, htokens _ _ hbad, by rfl, hfed, hline _ _ hfed, hspelling _ _ ofLine_stray⟩, hrules,
    herrors, hstrict⟩

end Draft

end BlockAutomata.Script
