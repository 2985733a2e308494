import LineShell.Proofs.Completion.Position
import LineShell.Proofs.Completion.Requests
import LineShell.Proofs.Pipeline.Tokens

/-!
# Reading a completed name back

A name is put into a line as it stands in its directory. It is one word there if its blanks stand in quotes of
its own, and the parser takes it as the name, the argument or the target that it was completed as unless it
begins with a redirect sign, is a pipe or ends in a mark (`read_back_iff`).
-/

namespace LineShell

variable {text before word : List Char} {front : List Word} {w : Word} {c : String} {listing : Completion.Listing}
  {commands : String → List String}

namespace Word

/-! ## Texts that are one word -/

theorem length_le_of_mem_ofLine (h : w ∈ ofLine text) : w.length ≤ text.length := by
  obtain ⟨lead, parts, hparts, hwords⟩ := parts_of_ofLine text
  rw [hwords, List.mem_map] at h
  obtain ⟨p, hp, rfl⟩ := h
  have hinfix : p.1 ++ p.2 <:+: text := by
    have hmem : p.1 ++ p.2 ∈ parts.map fun p => p.1 ++ p.2 := List.mem_map_of_mem hp
    rw [hparts.text, List.flatMap_def]
    exact (List.infix_of_mem_flatten hmem).trans (List.suffix_append _ _).isInfix
  exact (List.prefix_append _ _).length_le.trans hinfix.length_le

/-- A text is read as itself just if none of its blanks is outside quotes. With blanks behind it, its quotes have
to be closed too. -/
theorem ofLine_append_eq_singleton {gap : List Char} (hbegins : ∃ x, w.head? = some x ∧ isBlank x = false)
    (hgap : ∀ x ∈ gap, isBlank x) : ofLine (w ++ gap) = [w] ↔ Whole w ∨ Unfinished w ∧ gap = [] := by
  have hne := ne_nil_of_head? hbegins
  constructor
  · intro hwords
    rcases run_or_blank none w with ⟨state, hrun⟩ | ⟨v, b, rest, rfl, hrun, hb⟩
    · refine (whole_or_unfinished hrun).imp And.left fun h => ⟨h.1, ?_⟩
      obtain ⟨q, hquote, hq⟩ := h.1.exists_run
      -- the open quote takes the blanks in
      have hquoted : run (some q) gap = some (some q) := by
        refine run_quoted fun hmem => ?_
        have hblank := hgap q hmem
        rw [isBlank_of_isQuote hquote] at hblank
        cases hblank
      rw [ofLine_of_run (by simp [hne]) ((run_append hq gap).trans hquoted)] at hwords
      simpa using hwords
    · -- a word that is cut off in front is too short
      have hv : v ≠ [] := by
        rintro rfl
        obtain ⟨x, hx, hblank⟩ := hbegins
        obtain rfl : b = x := by simpa using hx
        rw [hb] at hblank
        cases hblank
      rw [List.append_assoc, List.cons_append, ofLine_append ⟨hv, hrun⟩ hb] at hwords
      have := congrArg List.length (List.cons.inj hwords).1
      simp at this
  · rintro (hw | ⟨hw, rfl⟩)
    · have hparts : Parts (w ++ gap) [] [(w, gap)] := by
        refine ⟨by simp, by simp, by simpa using hgap, by simp, by simpa using hbegins, by simp, by simpa using .inl hw⟩
      exact hparts.ofLine_eq
    · obtain ⟨q, -, hq⟩ := hw.exists_run
      rw [List.append_nil, ofLine_of_run hne hq]

theorem head_of_begins (hbegins : ∃ x, w.head? = some x ∧ isBlank x = false) : ∀ y ∈ w.head?, isBlank y = false := by
  obtain ⟨x, hx, hblank⟩ := hbegins
  intro y hy
  rw [hx] at hy
  cases hy
  exact hblank

/-- What trimming takes off a word stands behind it. -/
theorem exists_concat (hbegins : ∃ x, w.head? = some x ∧ isBlank x = false) : ∃ front y back,
    w = front ++ [y] ++ back ∧ trim w = front ++ [y] ∧ isBlank y = false ∧ ∀ b ∈ back, isBlank b := by
  obtain ⟨back, hdrop, hback⟩ := dropWhile_eq_trim_append w
  rw [dropWhile_eq_self (head_of_begins hbegins)] at hdrop
  have hne : trim w ≠ [] := by
    intro hnil
    obtain ⟨x, hx, hblank⟩ := hbegins
    rw [hnil, List.nil_append] at hdrop
    have hx' := hback x (hdrop ▸ List.mem_of_head? hx)
    rw [hblank] at hx'
    cases hx'
  obtain ⟨-, y, -, hy, -, hblank⟩ := tight_trim hne
  obtain ⟨front, hfront⟩ := List.getLast?_eq_some_iff.1 hy
  exact ⟨front, y, back, by rw [← hfront, ← hdrop], hfront, hblank, hback⟩

/-- Trimmed, a text is read as itself just if it also ends in no blank. -/
theorem ofLine_trim_eq_singleton (hbegins : ∃ x, w.head? = some x ∧ isBlank x = false) :
    ofLine (trim w) = [w] ↔ (Whole w ∨ Unfinished w) ∧ ∀ x ∈ w.getLast?, isBlank x = false := by
  have hone : ofLine (w ++ []) = [w] ↔ Whole w ∨ Unfinished w ∧ [] = [] := ofLine_append_eq_singleton hbegins (by simp)
  simp only [List.append_nil, and_true] at hone
  rw [← hone]
  constructor
  · intro hwords
    obtain ⟨front, y, back, hw, htrim, hblank, -⟩ := exists_concat hbegins
    have hshort : w.length ≤ (trim w).length := length_le_of_mem_ofLine (by rw [hwords]; exact List.mem_singleton_self w)
    have hfull : trim w = w := by
      have hprefix : trim w <+: w := ⟨back, by rw [htrim, ← hw]⟩
      exact hprefix.eq_of_length_le hshort
    rw [hfull] at hwords
    refine ⟨hwords, fun x hx => ?_⟩
    rw [← hfull, htrim, List.getLast?_concat] at hx
    cases hx
    exact hblank
  · rintro ⟨hwords, hlast⟩
    rw [trim_eq_self (head_of_begins hbegins) hlast, hwords]

/-- A word is read as it stands unless it is a sign, or ends the stage. -/
theorem Read.ne_redirect_iff {role : Role} {s : Stage} (h : Read front w role s) : role ≠ .redirect ↔
    ∀ name group, openStage front = some (name, group) → w ≠ pipe ∧ (awaited group = none → redirect? w = none) := by
  cases h with
  | name hopen => exact iff_of_true (by simp) (by simp [hopen])
  | argument hopen hplain hwaits hsign => exact iff_of_true (by simp) fun _ _ _ => ⟨hplain.1, fun _ => hsign⟩
  | redirect hopen hwaits hsign =>
    refine iff_of_false (by simp) fun hread => ?_
    rw [(hread _ _ hopen).2 hwaits] at hsign
    cases hsign
  | @target name sign group d hopen hplain hwaits =>
    refine iff_of_true (by simp) fun name' group' hopen' => ⟨hplain.1, fun hnone => ?_⟩
    rw [hopen] at hopen'
    cases hopen'
    rw [hwaits] at hnone
    cases hnone

end Word

/-! ## The line around a name -/

theorem Word.ofLine_trim_concat {x : Char} (hx : isBlank x = false) (text : List Char) :
    ofLine (trim (text ++ [x])) = ofLine (text ++ [x]) := by
  have hlead : ∀ c ∈ text.takeWhile isBlank, isBlank c := fun c hc => List.mem_takeWhile_imp hc
  have htext : text ++ [x] = text.takeWhile isBlank ++ trim (text ++ [x]) := by
    rw [trim_concat hx, ← List.append_assoc, List.takeWhile_append_dropWhile]
  conv_rhs => rw [htext]
  exact (ofLine_blanks_append hlead _).symm

namespace LineEnd

/-- A line that ends in a word with blanks behind it is read up to the end of the word. -/
theorem split_word {gap : List Char} (hplain : ∀ x ∈ before, isQuote x = false)
    (hlast : ∀ x ∈ before.getLast?, isBlank x) (hbegins : ∃ x, w.head? = some x ∧ isBlank x = false)
    (hgap : ∀ x ∈ gap, isBlank x) :
    Word.ofLine (trim (before ++ (w ++ gap))) = Word.ofLine before ++ Word.ofLine (trim w) ∧
      (trim (before ++ (w ++ gap))).getLast? = (trim w).getLast? := by
  obtain ⟨front, y, back, hw, htrim, hblank, hback⟩ := Word.exists_concat hbegins
  have hends : ∀ b ∈ back ++ gap, isBlank b := by
    intro b hb
    rcases List.mem_append.1 hb with hb | hb
    · exact hback b hb
    · exact hgap b hb
  have hline : before ++ (w ++ gap) = before ++ front ++ [y] ++ (back ++ gap) := by
    rw [hw]
    simp only [List.append_assoc]
  rw [hline, trim_append_blanks _ hends, htrim, Word.ofLine_trim_concat hblank, getLast?_trim hblank, List.append_assoc,
    Word.ofLine_append_of_last hplain hlast, List.getLast?_concat]
  exact ⟨rfl, rfl⟩

end LineEnd

namespace Completion

/-- What is put in behind a name: nothing if it is that of a directory, else a blank. -/
def gapBehind (c : String) : List Char := if c.toList.getLast? = some '/' then [] else [' ']

theorem extend_singleton (word : List Char) (c : String) : extend word [c] = c.toList ++ gapBehind c := by
  simp only [extend, gapBehind]
  split <;> simp

theorem isBlank_of_mem_gapBehind {x : Char} (h : x ∈ gapBehind c) : isBlank x := by
  unfold gapBehind at h
  split at h
  · cases h
  · rw [List.mem_singleton.1 h]
    rfl

/-- A text without quotes whose last word is completed as the one file it could be. -/
structure Inserted (listing : Listing) (commands : String → List String) (before word : List Char) (c : String) :
    Prop where
  unquoted : ∀ x ∈ before ++ word, isQuote x = false
  nonempty : word ≠ []
  blankless : ∀ x ∈ word, isBlank x = false
  apart : ∀ x ∈ before.getLast?, isBlank x = true
  file : isCommandPosition before word = false
  only : (complete listing commands (String.ofList (before ++ word ++ ['?']))).candidates = [c]

namespace Inserted

variable (h : Inserted listing commands before word c)
include h

theorem plain : ∀ x ∈ before, isQuote x = false :=
  fun x hx => h.unquoted x (List.mem_append_left _ hx)

theorem cut : cutLastWord (String.ofList (before ++ word ++ ['?'])).toList = (before, word) := by
  rw [String.toList_ofList]
  exact cutLastWord_run (.inl rfl) h.blankless h.apart

/-- The name stands where the word was. -/
theorem line_eq : (complete listing commands (String.ofList (before ++ word ++ ['?']))).line.toList =
    before ++ (c.toList ++ gapBehind c) := by
  have honly := h.only
  simp only [complete, h.cut] at honly ⊢
  rw [honly, String.toList_ofList, extend_singleton]

theorem begins : word <+: c.toList := by
  have honly := h.only
  simp only [complete, h.cut, candidatesOf, h.file, Bool.false_eq_true, if_false] at honly
  have hfile : c ∈ files listing word := by
    rw [← Text.mem_sortedUnique, honly]
    exact List.mem_singleton_self c
  exact prefix_of_mem_files hfile

/-- The name begins like the word, so with neither a blank nor a quote. -/
theorem exists_head : ∃ x, c.toList.head? = some x ∧ isBlank x = false ∧ isQuote x = false := by
  obtain ⟨rest, hrest⟩ := h.begins
  obtain ⟨x, word', hword⟩ := List.exists_cons_of_ne_nil h.nonempty
  refine ⟨x, by rw [← hrest, hword]; rfl, h.blankless x ?_, h.unquoted x ?_⟩
  · simp [hword]
  · simp [hword]

theorem unquote_eq : Word.unquote c.toList = c.toList := by
  obtain ⟨x, hx, -, hquote⟩ := h.exists_head
  obtain ⟨rest, hrest⟩ := List.head?_eq_some_iff.1 hx
  simp [hrest, Word.unquote, hquote]

/-- Where no stage is open, it is for its slash that the word is not completed as a command. -/
theorem slash_of_openStage (hopen : Word.openStage (Word.ofLine before) = none) : '/' ∈ c.toList := by
  have hslash : '/' ∈ word := by
    by_contra hslash
    have hcommand := (isCommandPosition_of_plain h.plain).2 ⟨Word.getLast?_of_openStage_eq_none hopen, hslash⟩
    rw [h.file] at hcommand
    cases hcommand
  exact h.begins.subset hslash

/-- The words of the line are those in front and the name. -/
theorem ofLine_eq_iff :
    Word.ofLine (complete listing commands (String.ofList (before ++ word ++ ['?']))).line.toList =
      Word.ofLine before ++ [c.toList] ↔
    Word.Whole c.toList ∨ Word.Unfinished c.toList ∧ c.toList.getLast? = some '/' := by
  obtain ⟨x, hx, hblank, -⟩ := h.exists_head
  have hnone : gapBehind c = [] ↔ c.toList.getLast? = some '/' := by simp [gapBehind]
  rw [h.line_eq, Word.ofLine_append_of_last h.plain h.apart, List.append_right_inj,
    Word.ofLine_append_eq_singleton ⟨x, hx, hblank⟩ fun _ => isBlank_of_mem_gapBehind, hnone]

/-- What is left of the line without its end, as the parser reads it, is those words, and there is no mark. -/
theorem split_eq_iff :
    (LineEnd.split (complete listing commands (String.ofList (before ++ word ++ ['?']))).line.toList).2 = .plain ∧
      Word.ofLine (LineEnd.split (complete listing commands (String.ofList (before ++ word ++ ['?']))).line.toList).1 =
        Word.ofLine before ++ [c.toList] ↔
    (Word.Whole c.toList ∨ Word.Unfinished c.toList) ∧
      ∀ x ∈ c.toList.getLast?, isBlank x = false ∧ x ≠ '?' ∧ x ≠ '&' := by
  obtain ⟨x, hx, hblank, -⟩ := h.exists_head
  obtain ⟨hwords, hend⟩ := LineEnd.split_word h.plain h.apart ⟨x, hx, hblank⟩
    fun _ => isBlank_of_mem_gapBehind
  rw [← h.line_eq] at hwords hend
  generalize (complete listing commands (String.ofList (before ++ word ++ ['?']))).line.toList = line at hwords hend ⊢
  have hfull : (∀ y ∈ c.toList.getLast?, isBlank y = false) → trim c.toList = c.toList := fun hlast =>
    trim_eq_self (Word.head_of_begins ⟨x, hx, hblank⟩) hlast
  constructor
  · rintro ⟨hmark, hread⟩
    rw [LineEnd.fst_split_of_plain hmark, hwords, List.append_right_inj,
      Word.ofLine_trim_eq_singleton ⟨x, hx, hblank⟩] at hread
    rw [LineEnd.split_plain_iff, hend, hfull hread.2] at hmark
    exact ⟨hread.1, fun y hy => ⟨hread.2 y hy, hmark y hy⟩⟩
  · rintro ⟨hone, hlast⟩
    have hread := (Word.ofLine_trim_eq_singleton ⟨x, hx, hblank⟩).2 ⟨hone, fun y hy => (hlast y hy).1⟩
    have hmark : (LineEnd.split line).2 = .plain := by
      rw [LineEnd.split_plain_iff, hend, hfull fun y hy => (hlast y hy).1]
      exact fun y hy => (hlast y hy).2
    exact ⟨hmark, by rw [LineEnd.fst_split_of_plain hmark, hwords, hread]⟩

end Inserted

/-- **Reading back what was completed.** The name of a file is a word of the completed line just if its blanks stand
in quotes of its own, and these are closed unless no blank is put in behind the name. The parser takes that word
for the name, the argument or the target that it stands for, and no part of it for a mark, just if moreover
the name ends in neither a blank nor a mark, and, behind the name of a stage, is no pipe and begins with no sign
that is not waited for. -/
theorem read_back_iff (h : Inserted listing commands before word c) :
    let line := (complete listing commands (String.ofList (before ++ word ++ ['?']))).line
    let front := Word.ofLine before
    let w : Word := c.toList
    (Word.ofLine line.toList = front ++ [w] ↔ Word.Whole w ∨ Word.Unfinished w ∧ w.getLast? = some '/') ∧
      (((LineEnd.split line.toList).2 = .plain ∧ Word.ofLine (LineEnd.split line.toList).1 = front ++ [w] ∧
          ∃ role, role ≠ .redirect ∧ Word.Read front w role (Pipeline.parse line).last.unmarked) ↔
        (Word.Whole w ∨ Word.Unfinished w) ∧ (∀ x ∈ w.getLast?, isBlank x = false ∧ x ≠ '?' ∧ x ≠ '&') ∧
          ∀ name group, Word.openStage front = some (name, group) →
            w ≠ Word.pipe ∧ (Word.awaited group = none → Word.redirect? w = none)) := by
  intro line front w
  refine ⟨h.ofLine_eq_iff, ?_⟩
  rw [← and_assoc, ← and_assoc, ← h.split_eq_iff]
  refine and_congr_right fun ⟨hmark, hwords⟩ => ?_
  rw [Pipeline.unmarked_last_parse, hwords]
  constructor
  · rintro ⟨role, hrole, hread⟩
    exact hread.ne_redirect_iff.1 hrole
  · intro hplain
    have hpipe : w ≠ Word.pipe := by
      cases hopen : Word.openStage front with
      | none =>
        intro hpipe
        have hslash : '/' ∈ w := h.slash_of_openStage hopen
        rw [hpipe] at hslash
        exact absurd hslash (by decide)
      | some stage => exact (hplain stage.1 stage.2 hopen).1
    have hampersand : w ≠ Word.ampersand := by
      intro hw
      have hlast := ((h.split_eq_iff).1 ⟨hmark, hwords⟩).2 '&' (by rw [show c.toList = Word.ampersand from hw]; rfl)
      exact hlast.2.2 rfl
    obtain ⟨role, hread⟩ := Pipeline.read_last front hpipe hampersand h.unquote_eq
    exact ⟨role, hread.ne_redirect_iff.2 hplain, hread⟩

/-- Of two files one has a blank in its name, the other one in quotes. -/
def blankTree : FileTree where
  nodes := #[.directory 0 [("a b", 1), ("c'd e'f", 1)], .file [] 0o644]

theorem read_back_iff_quoted :
    Inserted (blankTree.listing 0) (Search.named blankTree 0 none) "cat < ".toList ['c'] "c'd e'f" ∧
      Word.Whole "c'd e'f".toList ∧
      ∃ role, role ≠ .redirect ∧ Word.Read (Word.ofLine "cat < ".toList) "c'd e'f".toList role
        (Pipeline.parse (complete (blankTree.listing 0) (Search.named blankTree 0 none) "cat < c?").line).last.unmarked := by
  have hinserted : Inserted (blankTree.listing 0) (Search.named blankTree 0 none) "cat < ".toList ['c'] "c'd e'f" :=
    ⟨by simp [isQuote], by decide, by simp [isBlank], by simp [isBlank], by decide, by decide +kernel⟩
  have hquoted : Word.Whole ('\x27' :: ("d e".toList ++ '\x27' :: ['f'])) :=
    .quoted (by decide) (by decide) (.plain (by decide) (by decide) .nil)
  have hwhole : Word.Whole "c'd e'f".toList := .plain (by decide) (by decide) hquoted
  have hread := (read_back_iff hinserted).2.2
    ⟨.inl hwhole, by simp [isBlank], fun name group hopen => ⟨by decide, fun hnone => ?_⟩⟩
  · exact ⟨hinserted, hwhole, hread.2.2⟩
  · cases hopen
    cases hnone

/-- A name with a blank is put in without quotes, and falls into two words. -/
theorem read_back_blank :
    Inserted (blankTree.listing 0) (Search.named blankTree 0 none) "cat ".toList ['a'] "a b" ∧
      Word.ofLine (complete (blankTree.listing 0) (Search.named blankTree 0 none) "cat a?").line.toList ≠
        Word.ofLine "cat ".toList ++ ["a b".toList] ∧
      (Pipeline.parse (complete (blankTree.listing 0) (Search.named blankTree 0 none) "cat a?").line).head.arguments =
        ["a", "b"] :=
  ⟨⟨by simp [isQuote], by decide, by simp [isBlank], by simp [isBlank], by decide, by decide +kernel⟩,
    by decide +kernel, by decide +kernel⟩

end Completion

end LineShell
