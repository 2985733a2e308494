import LineShell.Proofs.Completion.LastWord
import LineShell.Proofs.Pipeline.LastWord

/-!
# Where a command is completed

The last word of a text is completed as a command if it is the first word or stands behind a pipe, and has no
slash. That looks at one word in front of it. The parser comes to it from the left, and a pipe may be the name
of a stage there. If no pipe is, because none stands first or behind another one, the two agree: the words
that are completed as commands are those that are read as names (`completed_as_command_iff`).
-/

namespace LineShell

variable {front : List Word} {w : Word} {text before : List Char}

/-! ## Names of stages -/

/-- The word is the name of the stage, and there is nothing more to it. -/
structure Stage.Names (s : Stage) (w : Word) : Prop where
  name : s.name = String.ofList w
  arguments : s.arguments = []
  input : s.input = none
  output : s.output = none

theorem Stage.names_unmarked {s : Stage} : s.unmarked.Names w ↔ s.Names w :=
  ⟨fun h => ⟨h.name, h.arguments, h.input, h.output⟩, fun h => ⟨h.name, h.arguments, h.input, h.output⟩⟩

theorem Stage.record_taken (s : Stage) (r : Direction × String) :
    ¬ ((s.record r).input = none ∧ (s.record r).output = none) := by
  obtain ⟨d, path⟩ := r
  cases d <;> simp [record]

/-- Only what is read as a name leaves a stage with a name alone. -/
theorem Word.Read.names_iff {role : Role} {s : Stage} (h : Read front w role s) : s.Names w ↔ role = .name := by
  cases h with
  | name => exact iff_of_true ⟨rfl, rfl, rfl, rfl⟩ rfl
  | argument => exact iff_of_false (fun h => by simpa using h.arguments) (by simp)
  | @redirect name target group d =>
    have hredirect : (Stage.ofWords name group).redirect d target =
        (Stage.ofWords name group).record (d, String.ofList (unquote target)) := by cases d <;> rfl
    rw [hredirect]
    exact iff_of_false (fun h => Stage.record_taken _ _ ⟨h.input, h.output⟩) (by simp)
  | target => exact iff_of_false (fun h => Stage.record_taken _ _ ⟨h.input, h.output⟩) (by simp)

theorem Word.Read.openStage_iff {role : Role} {s : Stage} (h : Read front w role s) :
    role = .name ↔ openStage front = none := by
  cases h with
  | name hopen => exact iff_of_true rfl hopen
  | argument hopen => exact iff_of_false (by simp) (by simp [hopen])
  | redirect hopen => exact iff_of_false (by simp) (by simp [hopen])
  | target hopen => exact iff_of_false (by simp) (by simp [hopen])

namespace Completion

/-! ## The word in front -/

/-- Without quotes, the word in front is the last of the words in front. -/
theorem wordBefore_eq (hplain : ∀ c ∈ before, isQuote c = false) :
    wordBefore before = (Word.ofLine before).getLastD [] := by
  obtain ⟨front, word, gap, rfl, hfront, hword, hempty, hgap⟩ := exists_word_gap before
  rw [wordBefore_run hfront hword hempty hgap, Word.ofLine_append_gap (fun c hc => hplain c (List.mem_append_left _ hc)) hgap,
    Word.ofLine_append_of_last (fun c hc => hplain c (by simp [hc])) hfront]
  by_cases hne : word = []
  · rw [hne, hempty hne]
    rfl
  · have hrun := Word.run_plain fun c hc => ⟨hword c hc, hplain c (by simp [hc])⟩
    rw [Word.ofLine_of_run hne hrun, List.getLastD_concat]

/-- A command is expected behind no words, and behind a pipe. -/
theorem isCommandPosition_of_plain (hplain : ∀ c ∈ before, isQuote c = false) : isCommandPosition before w = true ↔
    (Word.ofLine before = [] ∨ (Word.ofLine before).getLast? = some Word.pipe) ∧ '/' ∉ w := by
  have hslash : (!w.contains '/') = true ↔ '/' ∉ w := by simp
  rw [isCommandPosition, Bool.and_eq_true, hslash, wordBefore_eq hplain]
  refine and_congr_left' ?_
  rcases (Word.ofLine before).eq_nil_or_concat' with hnil | ⟨front, v, hfront⟩
  · simp [hnil]
  · have hmem : v ∈ Word.ofLine before := by simp [hfront]
    have hv : v ≠ [] := Word.ne_nil_of_mem_ofLine hmem
    simp [hfront, hv, Word.pipe]

/-! ## The last word of a text -/

/-- A text that someone types and completes: its words are `front` and the last one `w`. -/
structure Typed (text : List Char) (front : List Word) (w : Word) : Prop where
  unquoted : ∀ c ∈ text, isQuote c = false
  ends : ∀ c ∈ text.getLast?, isBlank c = false
  words : Word.ofLine text = front ++ [w]
  /-- The line does not begin with a pipe. -/
  first : (front ++ [w]).head? ≠ some Word.pipe
  /-- No pipe stands behind another one. -/
  apart : (front ++ [w]).IsChain fun v v' => ¬ (v = Word.pipe ∧ v' = Word.pipe)
  plain : w ≠ Word.pipe ∧ w ≠ Word.ampersand
  slashless : '/' ∉ w

/-- The last word of a text that ends in none of the blanks is what the text ends in. -/
theorem Typed.exists_before (h : Typed text front w) : ∃ before, text = before ++ w ∧ Word.ofLine before = front ∧
    (∀ c ∈ w, isBlank c = false) ∧ ∀ c ∈ before.getLast?, isBlank c = true := by
  obtain ⟨before, word, rfl, hword, hbefore⟩ := exists_word text
  have hne : word ≠ [] := by
    rintro rfl
    rcases before.eq_nil_or_concat' with rfl | ⟨front', c, rfl⟩
    · simpa [Word.ofLine, Word.cut] using h.words
    · have hblank : isBlank c = true := hbefore c (by simp)
      rw [h.ends c (by simp)] at hblank
      cases hblank
  have hplain : ∀ c ∈ before, isQuote c = false := fun c hc => h.unquoted c (List.mem_append_left _ hc)
  have hrun := Word.run_plain fun c hc => ⟨hword c hc, h.unquoted c (List.mem_append_right _ hc)⟩
  have hwords := h.words
  rw [Word.ofLine_append_of_last hplain hbefore, Word.ofLine_of_run hne hrun] at hwords
  obtain ⟨hfront, hw⟩ := List.append_inj' hwords rfl
  obtain rfl : word = w := by simpa using hw
  exact ⟨before, rfl, hfront, hword, hbefore⟩

/-- What the parser makes of the last word of a text that is marked for completion. -/
theorem Typed.read (h : Typed text front w) :
    ∃ role, Word.Read front w role (Pipeline.parse (String.ofList (text ++ ['?']))).last.unmarked := by
  have hunquote : Word.unquote w = w := by
    obtain ⟨before, rfl, -⟩ := h.exists_before
    cases w with
    | nil => rfl
    | cons c w =>
      have hc : isQuote c = false := h.unquoted c (by simp)
      simp [Word.unquote, hc]
  rw [Pipeline.unmarked_last_parse, String.toList_ofList, LineEnd.split_concat rfl, if_pos rfl,
    Word.ofLine_trim h.unquoted, h.words]
  exact Pipeline.read_last front h.plain.1 h.plain.2 hunquote

/-- **Completer and parser agree on commands.** The last word of a text is completed as a command just if the
parser makes it the name of the last stage, and of a stage without arguments and redirects. Otherwise it is an
argument, a redirect or the target of one, and it is completed as a file. -/
theorem completed_as_command_iff (h : Typed text front w) :
    let line := String.ofList (text ++ ['?'])
    let last := (Pipeline.parse line).last
    (∃ before, cutLastWord line.toList = (before, w) ∧ (isCommandPosition before w = true ↔ last.Names w)) ∧
      (last.Names w → ∀ listing commands, (complete listing commands line).candidates =
        Text.sortedUnique (Builtin.names.filter (Text.beginsWith w) ++ commands (String.ofList w))) ∧
      (¬ last.Names w → (∃ role, role ≠ .name ∧ Word.Read front w role last.unmarked) ∧
        ∀ listing commands, (complete listing commands line).candidates = Text.sortedUnique (files listing w)) := by
  intro line last
  obtain ⟨role, hread⟩ := h.read
  obtain ⟨before, htext, hfront, hword, hbefore⟩ := h.exists_before
  have hcut : cutLastWord line.toList = (before, w) := by
    refine cutLastWord_run (.inl ?_) hword hbefore
    rw [String.toList_ofList, htext]
  have hnames : last.Names w ↔ role = .name := Stage.names_unmarked.symm.trans hread.names_iff
  have hposition : isCommandPosition before w = true ↔ last.Names w := by
    have hplain : ∀ c ∈ before, isQuote c = false :=
      fun c hc => h.unquoted c (by rw [htext]; exact List.mem_append_left _ hc)
    have hfirst : front.head? ≠ some Word.pipe := fun hpipe => h.first (by rw [List.head?_append, hpipe]; rfl)
    rw [hnames, hread.openStage_iff, isCommandPosition_of_plain hplain, hfront,
      Word.openStage_eq_none_iff hfirst (List.isChain_append.1 h.apart).1]
    exact and_iff_left h.slashless
  have hcandidates : ∀ listing commands, (complete listing commands line).candidates =
      candidatesOf listing commands before w := by
    intro listing commands
    simp only [complete, hcut]
  refine ⟨⟨before, hcut, hposition⟩, fun hlast listing commands => ?_, fun hlast => ⟨⟨role, ?_, hread⟩, ?_⟩⟩
  · rw [hcandidates, candidatesOf, if_pos (hposition.2 hlast)]
  · exact fun hrole => hlast (hnames.2 hrole)
  · intro listing commands
    rw [hcandidates, candidatesOf, if_neg fun hcommand => hlast (hposition.1 hcommand)]

/-- Behind a redirect, a sign and a pipe, a word is completed as the name that it is read as. -/
theorem completed_as_command_iff_piped :
    Typed "cat <a &|b & | l".toList ["cat".toList, "<a".toList, "&|b".toList, "&".toList, "|".toList] "l".toList ∧
      (Pipeline.parse "cat <a &|b & | l?").last.Names "l".toList := by
  have htyped : Typed "cat <a &|b & | l".toList
      ["cat".toList, "<a".toList, "&|b".toList, "&".toList, "|".toList] "l".toList :=
    ⟨by simp [isQuote], by simp [isBlank], by decide, by decide, by decide, by decide, by decide⟩
  obtain ⟨⟨before, hcut, hposition⟩, -⟩ := completed_as_command_iff htyped
  obtain rfl : "cat <a &|b & | ".toList = before := congrArg Prod.fst hcut
  exact ⟨htyped, hposition.1 (by decide)⟩

end Completion
end LineShell
