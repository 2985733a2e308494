import LineShell.Proofs.Completion.Candidates

/-!
# The word that is completed

A line ends in a word, with the completion mark behind it or without (`exists_endsIn`), and is cut in
front of it (`cutLastWord_run`). `asksCommand_iff` says which lines ask for a command: the word has
no slash, and in front of it stand blanks only, or a bar of its own with blanks behind it.
-/

namespace LineShell

namespace Completion

variable {before word line front run : List Char} {p : Char → Bool}

/-! ## The last word -/

/-- Where a text ends in a run, and what is in front of it does not. -/
theorem takeWhile_run (hrun : ∀ c ∈ run, p c = true) (hfront : ∀ c ∈ front.getLast?, p c = false) :
    (front ++ run).reverse.takeWhile p = run.reverse ∧ (front ++ run).reverse.dropWhile p = front.reverse := by
  have hrun' : ∀ c ∈ run.reverse, p c = true := fun c hc => hrun c (List.mem_reverse.1 hc)
  rw [List.reverse_append, List.takeWhile_append_of_pos hrun', List.dropWhile_append_of_pos hrun']
  rcases List.eq_nil_or_concat' front with rfl | ⟨front, c, rfl⟩
  · simp
  · have hc : p c = false := hfront c (by simp)
    simp [hc]

/-- Every text ends in a run. -/
theorem exists_run (p : Char → Bool) (text : List Char) : ∃ front run, text = front ++ run ∧
    (∀ c ∈ run, p c = true) ∧ ∀ c ∈ front.getLast?, p c = false := by
  refine ⟨(text.reverse.dropWhile p).reverse, (text.reverse.takeWhile p).reverse, ?_, fun c hc => ?_, fun c hc => ?_⟩
  · rw [← List.reverse_append, List.takeWhile_append_dropWhile, List.reverse_reverse]
  · exact List.mem_takeWhile_imp (List.mem_reverse.1 hc)
  · rw [List.getLast?_reverse] at hc
    have hhead := List.head?_dropWhile_not p text.reverse
    rw [hc] at hhead
    simpa using hhead

theorem takeWhile_word (hword : ∀ c ∈ word, isBlank c = false) (hfront : ∀ c ∈ front.getLast?, isBlank c = true) :
    ((front ++ word).reverse.takeWhile (!isBlank ·)).reverse = word := by
  have hrun : ∀ c ∈ word, (!isBlank c) = true := fun c hc => by simp [hword c hc]
  have hlast : ∀ c ∈ front.getLast?, (!isBlank c) = false := fun c hc => by simp [hfront c hc]
  rw [(takeWhile_run hrun hlast).1, List.reverse_reverse]

/-- Every text ends in a word, which may be empty. -/
theorem exists_word (text : List Char) : ∃ front word, text = front ++ word ∧
    (∀ c ∈ word, isBlank c = false) ∧ ∀ c ∈ front.getLast?, isBlank c = true := by
  obtain ⟨front, word, htext, hword, hfront⟩ := exists_run (!isBlank ·) text
  exact ⟨front, word, htext, fun c hc => by simpa using hword c hc, fun c hc => by simpa using hfront c hc⟩

/-- The line ends in the word, with the completion mark behind it or without. -/
def EndsIn (line before word : List Char) : Prop :=
  line = before ++ word ++ ['?'] ∨ line = before ++ word ∧ line.getLast? ≠ some '?'

theorem cutLastWord_run (hline : EndsIn line before word) (hword : ∀ c ∈ word, isBlank c = false)
    (hbefore : ∀ c ∈ before.getLast?, isBlank c = true) : cutLastWord line = (before, word) := by
  rcases hline with rfl | ⟨rfl, hplain⟩
  · rw [cutLastWord_mark, takeWhile_word hword hbefore]
    simp
  · rw [cutLastWord_plain hplain, takeWhile_word hword hbefore]
    simp

theorem exists_endsIn (line : List Char) : ∃ before word, EndsIn line before word ∧
    (∀ c ∈ word, isBlank c = false) ∧ ∀ c ∈ before.getLast?, isBlank c = true := by
  obtain ⟨text, hline⟩ : ∃ text, line = text ++ ['?'] ∨ line = text ∧ line.getLast? ≠ some '?' := by
    by_cases hmark : line.getLast? = some '?'
    · obtain ⟨text, htext⟩ := List.getLast?_eq_some_iff.1 hmark
      exact ⟨text, Or.inl htext⟩
    · exact ⟨line, Or.inr ⟨rfl, hmark⟩⟩
  obtain ⟨before, word, rfl, hword, hbefore⟩ := exists_word text
  exact ⟨before, word, hline, hword, hbefore⟩

theorem wordBefore_run {gap : List Char} (hfront : ∀ c ∈ front.getLast?, isBlank c = true)
    (hword : ∀ c ∈ word, isBlank c = false) (hempty : word = [] → front = []) (hgap : ∀ c ∈ gap, isBlank c = true) :
    wordBefore (front ++ word ++ gap) = word := by
  have hlast : ∀ c ∈ (front ++ word).getLast?, isBlank c = false := by
    intro c hc
    by_cases hnil : word = []
    · simp [hnil, hempty hnil] at hc
    · rw [List.getLast?_append_of_ne_nil _ hnil] at hc
      exact hword c (List.mem_of_getLast? hc)
  rw [wordBefore, (takeWhile_run hgap hlast).2, takeWhile_word hword hfront]

/-- Every text ends in blanks, with its last word in front of them, if it has one. -/
theorem exists_word_gap (text : List Char) : ∃ front word gap, text = front ++ word ++ gap ∧
    (∀ c ∈ front.getLast?, isBlank c = true) ∧ (∀ c ∈ word, isBlank c = false) ∧ (word = [] → front = []) ∧
      ∀ c ∈ gap, isBlank c = true := by
  obtain ⟨words, gap, rfl, hgap, hwords⟩ := exists_run isBlank text
  obtain ⟨front, word, rfl, hword, hfront⟩ := exists_word words
  refine ⟨front, word, gap, rfl, hfront, hword, ?_, hgap⟩
  rintro rfl
  rcases List.eq_nil_or_concat' front with rfl | ⟨front, c, rfl⟩
  · rfl
  · have hblank := hwords c (by simp)
    rw [hfront c (by simp)] at hblank
    cases hblank

/-- In front of the word stand blanks only, or a bar of its own with blanks behind it. -/
inductive Opens : List Char → Prop where
  | first {gap : List Char} (hgap : ∀ c ∈ gap, isBlank c = true) : Opens gap
  | piped {front gap : List Char} (hfront : ∀ c ∈ front.getLast?, isBlank c = true) (hne : gap ≠ [])
    (hgap : ∀ c ∈ gap, isBlank c = true) : Opens (front ++ ['|'] ++ gap)

theorem Opens.last (h : Opens before) : ∀ c ∈ before.getLast?, isBlank c = true := by
  cases h with
  | first hgap => exact fun c hc => hgap c (List.mem_of_getLast? hc)
  | piped hfront hne hgap =>
    intro c hc
    rw [List.getLast?_append_of_ne_nil _ hne] at hc
    exact hgap c (List.mem_of_getLast? hc)

/-- The line asks what command its last word could become. -/
structure AsksCommand (line before word : List Char) : Prop where
  line : EndsIn line before word
  before : Opens before
  blankless : ∀ c ∈ word, isBlank c = false
  slashless : '/' ∉ word

theorem wordBefore_eq_iff (hlast : ∀ c ∈ before.getLast?, isBlank c = true) :
    wordBefore before = [] ∨ wordBefore before = ['|'] ↔ Opens before := by
  constructor
  · intro h
    obtain ⟨front, word, gap, rfl, hfront, hword, hempty, hgap⟩ := exists_word_gap before
    rw [wordBefore_run hfront hword hempty hgap] at h
    rcases h with rfl | rfl
    · rw [hempty rfl]
      exact .first hgap
    · refine .piped hfront (fun hnil => ?_) hgap
      have := hlast '|' (by simp [hnil])
      exact absurd this (by decide)
  · rintro (hgap | ⟨hfront, hne, hgap⟩)
    · have hnone : wordBefore ([] ++ [] ++ before) = [] := wordBefore_run (by simp) (by simp) (fun _ => rfl) hgap
      exact Or.inl hnone
    · exact Or.inr (wordBefore_run hfront (by simp [isBlank]) (by simp) hgap)

theorem isCommandPosition_iff (hlast : ∀ c ∈ before.getLast?, isBlank c = true) :
    isCommandPosition before word = true ↔ Opens before ∧ '/' ∉ word := by
  rw [← wordBefore_eq_iff hlast]
  simp [isCommandPosition]

/-- A line asks for a command just if its last word stands where a command is expected. -/
theorem asksCommand_iff : AsksCommand line before word ↔
    cutLastWord line = (before, word) ∧ isCommandPosition before word = true := by
  constructor
  · intro h
    exact ⟨cutLastWord_run h.line h.blankless h.before.last,
      (isCommandPosition_iff h.before.last).2 ⟨h.before, h.slashless⟩⟩
  · rintro ⟨hcut, hposition⟩
    obtain ⟨before', word', hline, hword, hlast⟩ := exists_endsIn line
    rw [cutLastWord_run hline hword hlast] at hcut
    cases hcut
    obtain ⟨hbefore, hslash⟩ := (isCommandPosition_iff hlast).1 hposition
    exact ⟨hline, hbefore, hword, hslash⟩

end Completion

end LineShell
