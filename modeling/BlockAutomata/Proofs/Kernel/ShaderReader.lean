/-
  Reading the declarations of a shader text.

  1. A text is read character by character to words and single marks.  Blanks separate them, and a
     comment goes from two slashes to the end of the line.

  2. A word behind "const", "let", "var", "struct" or "fn" is declared there; between "var" and the
     word there may be something in angle brackets.  Braces are counted: what is declared outside of
     all braces is declared at module scope.

  3. Both are done from left to right, so a text is read in parts (`Declares.append`).  A part
     without keywords and braces declares nothing (`Quiet`, `Still`).
-/
import BlockAutomata.Kernel.ShaderText

namespace BlockAutomata.Kernel

/-! ## Words and marks -/

/-- What a shader text consists of. -/
inductive Item where
  | word (cs : List Char)
  | mark (c : Char)
  deriving DecidableEq

namespace Item

/-- Where in a text a reader is. -/
inductive Mode where
  /-- inside of a word that has begun with these characters, if there are any -/
  | word (begun : List Char)
  /-- behind a slash -/
  | slash
  | comment
  deriving DecidableEq

/-- The characters of words. -/
def isWordChar (c : Char) : Bool := c.isAlphanum || c == '_'

/-- The word that has been read, if there is one. -/
def finished (begun : List Char) : List Item := if begun = [] then [] else [.word begun]

/-- Read a character that does not stand behind a slash. -/
def readPlain (begun : List Char) (c : Char) : Mode × List Item :=
  if isWordChar c then (.word (begun ++ [c]), [])
  else if c = '/' then (.slash, finished begun)
  else if c.isWhitespace then (.word [], finished begun)
  else (.word [], finished begun ++ [.mark c])

/-- Read a character. -/
def readChar : Mode → Char → Mode × List Item
  | .word begun, c => readPlain begun c
  | .slash, c =>
    if c = '/' then (.comment, []) else ((readPlain [] c).1, .mark '/' :: (readPlain [] c).2)
  | .comment, c => (if c = '\n' then .word [] else .comment, [])

/-- Read a part of a text. -/
def read (m : Mode) : List Char → Mode × List Item
  | [] => (m, [])
  | c :: cs =>
    let (m', now) := readChar m c
    let (m'', later) := read m' cs
    (m'', now ++ later)

theorem read_append (m : Mode) (cs ds : List Char) : read m (cs ++ ds) =
    ((read (read m cs).1 ds).1, (read m cs).2 ++ (read (read m cs).1 ds).2) := by
  induction cs generalizing m with
  | nil => rfl
  | cons c cs ih =>
    simp only [List.cons_append, read, ih, List.append_assoc]

/-! ## Declarations -/

/-- What a reader of declarations expects. -/
inductive Expected where
  | anything
  /-- a name, behind a keyword -/
  | name
  /-- the end of angle brackets, and then a name -/
  | closing
  deriving DecidableEq

/-- The words that a declared name follows. -/
def keywords : List String := ["const", "let", "var", "struct", "fn"]

/-- Note a declaration and at how many open braces it stands. -/
def note : Nat × Expected → Item → (Nat × Expected) × List (Nat × String)
  | (depth, .anything), .word w =>
    ((depth, if String.ofList w ∈ keywords then .name else .anything), [])
  | (depth, .anything), .mark c =>
    ((if c = '\x7b' then depth + 1 else if c = '\x7d' then depth - 1 else depth, .anything), [])
  | (depth, .name), .word w => ((depth, .anything), [(depth, String.ofList w)])
  | (depth, .name), .mark c => ((depth, if c = '<' then .closing else .anything), [])
  | (depth, .closing), .word _ => ((depth, .closing), [])
  | (depth, .closing), .mark c => ((depth, if c = '>' then .name else .closing), [])

/-- Note the declarations of several items. -/
def noteAll (s : Nat × Expected) : List Item → (Nat × Expected) × List (Nat × String)
  | [] => (s, [])
  | i :: is =>
    let (s', now) := note s i
    let (s'', later) := noteAll s' is
    (s'', now ++ later)

theorem noteAll_append (s : Nat × Expected) (is js : List Item) : noteAll s (is ++ js) =
    ((noteAll (noteAll s is).1 js).1, (noteAll s is).2 ++ (noteAll (noteAll s is).1 js).2) := by
  induction is generalizing s with
  | nil => rfl
  | cons i is ih =>
    simp only [List.cons_append, noteAll, ih, List.append_assoc]

/-! ## Items that declare nothing -/

/-- The item is neither a keyword nor a brace. -/
def Inert : Item → Prop
  | word w => String.ofList w ∉ keywords
  | mark c => c ≠ '\x7b' ∧ c ≠ '\x7d'

instance : DecidablePred Inert := fun i =>
  match i with
  | word w => inferInstanceAs (Decidable (String.ofList w ∉ keywords))
  | mark c => inferInstanceAs (Decidable (c ≠ '\x7b' ∧ c ≠ '\x7d'))

theorem noteAll_of_inert {depth : Nat} {is : List Item} (h : ∀ i ∈ is, i.Inert) :
    noteAll (depth, .anything) is = ((depth, .anything), []) := by
  induction is with
  | nil => rfl
  | cons i is ih =>
    obtain ⟨hi, his⟩ := List.forall_mem_cons.1 h
    have hnote : note (depth, .anything) i = ((depth, .anything), []) := by
      cases i with
      | word w => rw [note, if_neg hi]
      | mark c => rw [note, if_neg hi.1, if_neg hi.2]
    simp only [noteAll, hnote, ih his, List.append_nil]

theorem read_word {begun w : List Char} (hw : ∀ c ∈ w, isWordChar c = true) :
    read (.word begun) w = (.word (begun ++ w), []) := by
  induction w generalizing begun with
  | nil => rw [List.append_nil]; rfl
  | cons c w ih =>
    obtain ⟨hc, hw⟩ := List.forall_mem_cons.1 hw
    simp only [read, readChar, readPlain, if_pos hc, ih hw, List.append_assoc,
      List.singleton_append, List.append_nil]

/-- A character that is not of words finishes the word before it. -/
theorem read_mark {c : Char} (hc : isWordChar c = false) (begun cs : List Char) :
    read (.word begun) (c :: cs) = ((read (.word []) (c :: cs)).1,
      finished begun ++ (read (.word []) (c :: cs)).2) := by
  have hchar : readChar (.word begun) c =
      ((readChar (.word []) c).1, finished begun ++ (readChar (.word []) c).2) := by
    simp only [readChar, readPlain, hc, Bool.false_eq_true, if_false]
    split
    · simp [finished]
    · split <;> simp [finished]
  simp only [read, hchar, List.append_assoc]

/-- The rest of a line is skipped in a comment. -/
theorem read_comment {cs : List Char} (hcs : '\n' ∉ cs) : read .comment cs = (.comment, []) := by
  induction cs with
  | nil => rfl
  | cons c cs ih =>
    rw [List.mem_cons, not_or] at hcs
    simp only [read, readChar, if_neg (Ne.symm hcs.1), ih hcs.2, List.append_nil]

end Item

open Item

/-- The names that a text declares, in order, each with the number of braces around it.  A line feed
    finishes the last word. -/
def declarations (text : String) : List (Nat × String) :=
  (noteAll (0, .anything) (read (.word []) (text.toList ++ ['\n'])).2).2

/-- The names that are declared outside of all braces. -/
def moduleNames (text : String) : List String :=
  ((declarations text).filter (·.1 = 0)).map Prod.snd

/-- The names that are declared behind a function at module scope, up to what is declared next to
    it. -/
def namesInside (function text : String) : List String :=
  (((declarations text).dropWhile (· ≠ (0, function))).tail.takeWhile (·.1 ≠ 0)).map Prod.snd

example : declarations "var<private> a: i32; // fn b\nfn c() \x7b let d = a; \x7d" =
    [(0, "a"), (0, "c"), (1, "d")] := by decide +kernel

/-! ## Parts of a text -/

/-- A part of a text between words.  What it declares, and the braces that are open behind it. -/
structure Declares (depth : Nat) (s : String) (names : List (Nat × String)) (depth' : Nat) :
    Prop where
  reads : (read (.word []) s.toList).1 = .word []
  notes : noteAll (depth, .anything) (read (.word []) s.toList).2 = ((depth', .anything), names)

/-- A part of a text behind which a name is expected. -/
structure Announces (depth : Nat) (s : String) : Prop where
  reads : (read (.word []) s.toList).1 = .word []
  notes : noteAll (depth, .anything) (read (.word []) s.toList).2 = ((depth, .name), [])

/-- A part of a text that declares nothing, and may end inside of a word. -/
structure Quiet (s : String) : Prop where
  reads : ∃ w, (read (.word []) s.toList).1 = .word w ∧ String.ofList w ∉ keywords
  inert : ∀ i ∈ (read (.word []) s.toList).2, i.Inert

/-- A part of a text between words that declares nothing. -/
structure Still (s : String) : Prop where
  reads : (read (.word []) s.toList).1 = .word []
  inert : ∀ i ∈ (read (.word []) s.toList).2, i.Inert

/-- The part does not begin in the middle of a word. -/
def BeginsMark (s : String) : Prop := ∃ c cs, s.toList = c :: cs ∧ isWordChar c = false

section Parts

variable {a b w : String} {depth depth' depth'' : Nat} {names names' : List (Nat × String)}

theorem Declares.append (ha : Declares depth a names depth')
    (hb : Declares depth' b names' depth'') :
    Declares depth (a ++ b) (names ++ names') depth'' where
  reads := by rw [String.toList_append, read_append, ha.reads, hb.reads]
  notes := by
    rw [String.toList_append, read_append, ha.reads, noteAll_append, ha.notes, hb.notes]

theorem Declares.declarations (h : Declares 0 a names depth) : declarations a = names := by
  have hnewline : Declares depth "\n" [] depth := ⟨rfl, rfl⟩
  have h := (h.append hnewline).notes
  rw [List.append_nil, String.toList_append] at h
  exact congrArg Prod.snd h

theorem still_empty : Still "" := ⟨rfl, nofun⟩

theorem Still.quiet (h : Still a) : Quiet a := ⟨⟨[], h.reads, by decide⟩, h.inert⟩

theorem Still.declares (h : Still a) (depth : Nat) : Declares depth a [] depth :=
  ⟨h.reads, noteAll_of_inert h.inert⟩

theorem Still.append (ha : Still a) (hb : Still b) : Still (a ++ b) where
  reads := by rw [String.toList_append, read_append, ha.reads, hb.reads]
  inert := by
    rw [String.toList_append, read_append, ha.reads]
    exact List.forall_mem_append.2 ⟨ha.inert, hb.inert⟩

theorem Still.append_quiet (ha : Still a) (hb : Quiet b) : Quiet (a ++ b) where
  reads := by
    rw [String.toList_append, read_append, ha.reads]
    exact hb.reads
  inert := by
    rw [String.toList_append, read_append, ha.reads]
    exact List.forall_mem_append.2 ⟨ha.inert, hb.inert⟩

theorem Still.announces (ha : Still a) (hb : Announces depth b) : Announces depth (a ++ b) where
  reads := by rw [String.toList_append, read_append, ha.reads, hb.reads]
  notes := by
    rw [String.toList_append, read_append, ha.reads, noteAll_append, noteAll_of_inert ha.inert,
      hb.notes]
    rfl

/-- Behind a quiet part, a part that does not begin in the middle of a word is read as such. -/
theorem Quiet.read_append (ha : Quiet a) (hmark : BeginsMark b) :
    ∃ is, (∀ i ∈ is, i.Inert) ∧ read (.word []) (a ++ b).toList =
      ((read (.word []) b.toList).1, is ++ (read (.word []) b.toList).2) := by
  obtain ⟨w, hw, hkeyword⟩ := ha.reads
  obtain ⟨c, cs, hcs, hc⟩ := hmark
  refine ⟨(read (.word []) a.toList).2 ++ finished w, ?_, ?_⟩
  · refine List.forall_mem_append.2 ⟨ha.inert, ?_⟩
    rw [finished]
    split
    · exact nofun
    · exact List.forall_mem_singleton.2 hkeyword
  · rw [String.toList_append, Item.read_append, hw, hcs, read_mark hc w cs, List.append_assoc]

theorem Quiet.append (ha : Quiet a) (hb : Still b) (hmark : BeginsMark b) : Still (a ++ b) := by
  obtain ⟨is, his, hread⟩ := ha.read_append hmark
  constructor
  · rw [hread, hb.reads]
  · rw [hread]
    exact List.forall_mem_append.2 ⟨his, hb.inert⟩

/-- A quiet part between two others. -/
theorem Declares.through (ha : Declares depth a names depth') (hw : Quiet w)
    (hb : Declares depth' b names' depth'') (hmark : BeginsMark b) :
    Declares depth (a ++ w ++ b) (names ++ names') depth'' := by
  obtain ⟨is, his, hread⟩ := hw.read_append hmark
  have hrest : Declares depth' (w ++ b) names' depth'' := by
    constructor
    · rw [hread, hb.reads]
    · rw [hread, noteAll_append, noteAll_of_inert his, hb.notes]
      rfl
  rw [String.append_assoc]
  exact ha.append hrest

/-- A word other than a keyword declares nothing. -/
theorem quiet_word (hword : ∀ c ∈ w.toList, isWordChar c = true) (hkeyword : w ∉ keywords) :
    Quiet w where
  reads := ⟨w.toList, by rw [read_word hword]; rfl, by rwa [String.ofList_toList]⟩
  inert := by
    rw [read_word hword]
    exact nofun

/-- A word is declared where a name is expected. -/
theorem Announces.name (ha : Announces depth a) (hne : w ≠ "")
    (hword : ∀ c ∈ w.toList, isWordChar c = true) (hb : Declares depth b names depth')
    (hmark : BeginsMark b) : Declares depth (a ++ w ++ b) ((depth, w) :: names) depth' := by
  obtain ⟨c, cs, hcs, hc⟩ := hmark
  have hfinished : finished w.toList = [.word w.toList] :=
    if_neg fun h => hne (String.toList_eq_nil_iff.1 h)
  have hread : read (.word []) (a ++ w ++ b).toList = (.word [],
      (read (.word []) a.toList).2 ++ .word w.toList :: (read (.word []) b.toList).2) := by
    rw [String.toList_append, String.toList_append, Item.read_append, Item.read_append, ha.reads,
      read_word hword, hcs, List.nil_append, read_mark hc, ← hcs, hb.reads, hfinished]
    simp
  constructor
  · rw [hread]
  · rw [hread, noteAll_append, ha.notes]
    simp only [noteAll, note, hb.notes, String.ofList_toList, List.nil_append,
      List.singleton_append]

end Parts

/-! ## Given texts -/

section Texts

variable {a s : String} {c : Char} {cs : List Char} {depth depth' : Nat}
  {names : List (Nat × String)}

/-- The characters are still, as a text. -/
def IsStill (cs : List Char) : Prop :=
  (read (.word []) cs).1 = .word [] ∧ ∀ i ∈ (read (.word []) cs).2, i.Inert

instance : DecidablePred IsStill := fun _ => inferInstanceAs (Decidable (_ ∧ _))

theorem toList_text (hs : s = String.ofList cs) : s.toList = cs := by
  rw [hs, String.toList_ofList]

theorem still_text (hs : s = String.ofList cs) (h : IsStill cs) : Still s := by
  rw [← toList_text hs] at h
  exact ⟨h.1, h.2⟩

theorem Still.text (ha : Still a) (hs : s = String.ofList cs) (h : IsStill cs) : Still (a ++ s) :=
  ha.append (still_text hs h)

theorem beginsMark_text (hs : s = String.ofList (c :: cs)) (hc : isWordChar c = false) :
    BeginsMark s :=
  ⟨c, cs, toList_text hs, hc⟩

theorem Quiet.text (ha : Quiet a) (hs : s = String.ofList (c :: cs))
    (h : isWordChar c = false ∧ IsStill (c :: cs)) : Still (a ++ s) :=
  ha.append (still_text hs h.2) (beginsMark_text hs h.1)

/-- A quiet part before a given one. -/
theorem Still.through {w : String} (ha : Still a) (hw : Quiet w) (hs : s = String.ofList (c :: cs))
    (h : isWordChar c = false ∧ IsStill (c :: cs)) : Still (a ++ w ++ s) :=
  (ha.append_quiet hw).text hs h

theorem declares_text (hs : s = String.ofList cs) (hreads : (read (.word []) cs).1 = .word [])
    (hnotes : noteAll (depth, .anything) (read (.word []) cs).2 = ((depth', .anything), names)) :
    Declares depth s names depth' := by
  rw [← toList_text hs] at hreads hnotes
  exact ⟨hreads, hnotes⟩

theorem announces_text (hs : s = String.ofList cs) (hreads : (read (.word []) cs).1 = .word [])
    (hnotes : noteAll (depth, .anything) (read (.word []) cs).2 = ((depth, .name), [])) :
    Announces depth s := by
  rw [← toList_text hs] at hreads hnotes
  exact ⟨hreads, hnotes⟩

theorem Declares.text (ha : Declares depth a names depth') (hs : s = String.ofList cs)
    (h : IsStill cs) : Declares depth (a ++ s) names depth' := by
  have hboth := ha.append ((still_text hs h).declares depth')
  rwa [List.append_nil] at hboth

theorem Declares.through_text {w : String} (ha : Declares depth a names depth') (hw : Quiet w)
    (hs : s = String.ofList (c :: cs)) (h : isWordChar c = false ∧ IsStill (c :: cs)) :
    Declares depth (a ++ w ++ s) names depth' := by
  have hall := ha.through hw ((still_text hs h.2).declares depth') (beginsMark_text hs h.1)
  rwa [List.append_nil] at hall

/-- A line that declares nothing, perhaps with a comment. -/
theorem still_line (hs : s = String.ofList cs) (h : IsStill (cs ++ ['\n'])) :
    Still (s ++ "\n") := by
  have hlist : (s ++ "\n").toList = cs ++ ['\n'] := by
    rw [String.toList_append, toList_text hs]
    rfl
  rw [← hlist] at h
  exact ⟨h.1, h.2⟩

/-- A comment that has begun may go on with anything but a line feed. -/
theorem still_comment (hs : s = String.ofList cs) (h : read (.word []) cs = (.comment, []))
    {w : String} (hw : '\n' ∉ w.toList) : Still (s ++ w ++ "\n") := by
  have hread : read (.word []) (s ++ w ++ "\n").toList = (.word [], []) := by
    rw [String.toList_append, String.toList_append, toList_text hs, Item.read_append,
      Item.read_append, h, read_comment hw]
    rfl
  exact ⟨by rw [hread], by rw [hread]; exact nofun⟩

end Texts

end BlockAutomata.Kernel
