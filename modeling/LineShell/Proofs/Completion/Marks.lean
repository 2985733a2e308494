import LineShell.Shell.Conversation
import LineShell.Proofs.Completion.LastWord
import LineShell.Proofs.Completion.Requests
import LineShell.Proofs.Pipeline.Words

/-!
# The mark that asks for completion

A line asks for completion if there is a mark at its end with blanks behind it or none
(`asksCompletion_iff`). Completing it takes the mark off only if it is the last character. The two
agree exactly on the lines without blanks behind the mark (`completion_agrees_iff`); on every other
line an empty word is completed, and the mark comes back.
-/

namespace LineShell

/-- A line asks for completion if there is a mark in front of the blanks at its end. -/
theorem asksCompletion_iff {line : List Char} :
    asksCompletion line ↔ ∃ text b, line = text ++ ['?'] ++ b ∧ ∀ c ∈ b, isBlank c := by
  constructor
  · intro h
    obtain ⟨front, back, hline, -, hback⟩ := exists_trim line
    obtain ⟨text, htext⟩ := List.getLast?_eq_some_iff.1 h
    refine ⟨front ++ text, back, ?_, hback⟩
    conv_lhs => rw [hline, htext]
    simp only [List.append_assoc]
  · rintro ⟨text, b, rfl, hb⟩
    rw [asksCompletion, trim_append_blanks _ hb]
    exact getLast?_trim rfl

/-- A line is sent to be completed if there is a mark in front of the blanks at its end. -/
theorem Pipeline.needsCompletion_iff (line : String) : (parse line).needsCompletion = true ↔
    ∃ text b, line = text ++ "?" ++ b ∧ ∀ c ∈ b.toList, isBlank c := by
  rw [Pipeline.needsCompletion_parse, asksCompletion_iff]
  constructor
  · rintro ⟨text, b, hline, hb⟩
    refine ⟨String.ofList text, String.ofList b, ?_, by simpa using hb⟩
    rw [← String.toList_inj, hline]
    simp
  · rintro ⟨text, b, rfl, hb⟩
    exact ⟨text.toList, b.toList, by simp, hb⟩

namespace Completion

variable {listing : Listing} {commands : String → List String} {text : List Char}

/-- Behind the blanks there is no word, and the mark in front of them is none. -/
theorem cutLastWord_blanks {b : List Char} (hb : ∀ c ∈ b, isBlank c) (hne : b ≠ []) :
    cutLastWord (text ++ b) = (text ++ b, []) := by
  rcases List.eq_nil_or_concat' b with rfl | ⟨front, c, rfl⟩
  · exact absurd rfl hne
  · rw [← List.append_assoc]
    exact (cutLastWord_blank (text ++ front) (hb c (by simp))).1

/-- Of two lines of the same candidates, the one with the longer text is completed to another line. -/
theorem append_extend_ne {before before' word word' : List Char} (names : List String)
    (hbefore : before.length < before'.length) (hline : (before ++ word).length < (before' ++ word').length) :
    before ++ extend word names ≠ before' ++ extend word' names := by
  intro heq
  have hlength := congrArg List.length heq
  by_cases hnone : names = []
  · rw [hnone] at hlength
    exact Nat.ne_of_lt hline hlength
  · rw [extend_congr hnone word word', List.length_append, List.length_append] at hlength
    omega

/-- Blanks behind the mark are completed as an empty word, and the mark in front of them stays. -/
theorem complete_blanks (text : String) {b : String} (hb : ∀ c ∈ b.toList, isBlank c) (hne : b ≠ "") :
    complete listing commands (text ++ "?" ++ b) =
      { line := text ++ "?" ++ b ++
          String.ofList (extend [] (candidatesOf listing commands (text ++ "?" ++ b).toList []))
        candidates := candidatesOf listing commands (text ++ "?" ++ b).toList [] } := by
  have hcut : cutLastWord (text ++ "?" ++ b).toList = ((text ++ "?" ++ b).toList, []) := by
    rw [String.toList_append]
    exact cutLastWord_blanks hb (by simpa using hne)
  simp only [complete, hcut, String.ofList_append, String.ofList_toList]

/-- A mark at the very end is taken off, and the last word in front of it is completed. -/
theorem complete_mark (listing : Listing) (commands : String → List String) (text : String) :
    ∃ before word, text.toList = before ++ word ∧
    (∀ c ∈ word, isBlank c = false) ∧ (∀ c ∈ before.getLast?, isBlank c = true) ∧
    complete listing commands (text ++ "?") =
      { line := String.ofList (before ++ extend word (candidatesOf listing commands before word))
        candidates := candidatesOf listing commands before word } := by
  obtain ⟨before, word, htext, hword, hbefore⟩ := exists_word text.toList
  have hcut : cutLastWord (text ++ "?").toList = (before, word) := by
    refine cutLastWord_run (.inl ?_) hword hbefore
    rw [String.toList_append, htext]
    rfl
  exact ⟨before, word, htext, hword, hbefore, by rw [complete, hcut]⟩

/-- A line is completed in the same way with blanks behind its mark only if there are none. -/
theorem complete_blanks_iff (text : String) {b : String} (hb : ∀ c ∈ b.toList, isBlank c) :
    complete listing commands (text ++ "?" ++ b) = complete listing commands (text ++ "?") ↔ b = "" := by
  refine ⟨fun heq => ?_, fun hnone => by rw [hnone, String.append_empty]⟩
  by_contra hne
  obtain ⟨before, word, htext, -, -, hmark⟩ := complete_mark listing commands text
  rw [complete_blanks text hb hne, hmark, Completion.mk.injEq] at heq
  obtain ⟨hline, hnames⟩ := heq
  have hlength : (text ++ "?" ++ b).toList.length = before.length + word.length + 1 + b.toList.length := by
    simp [htext]
    omega
  rw [hnames, ← String.toList_inj, String.toList_append, String.toList_ofList, String.toList_ofList] at hline
  refine append_extend_ne _ ?_ ?_ hline.symm
  · omega
  · simp only [List.length_append, List.length_nil, hlength]
    omega

end Completion

namespace Shell

variable {κ : Type u}

/-- The next read begins with the completed line. -/
theorem pending_offerCompletion (s : Shell κ) (line : String) :
    (s.offerCompletion line).editor.pending = some (s.completion line).line := rfl

/-- A mark at the very end of a line is used up, and the last word in front of it is extended. -/
theorem pending_mark (s : Shell κ) (text : String) : ∃ before word extended, text.toList = before ++ word ∧
    (∀ c ∈ word, isBlank c = false) ∧ (∀ c ∈ before.getLast?, isBlank c = true) ∧ word <+: extended ∧
    (s.offerCompletion (text ++ "?")).editor.pending = some (String.ofList (before ++ extended)) := by
  obtain ⟨before, word, htext, hword, hbefore, hcomplete⟩ := Completion.complete_mark
    (s.host.world.files.listing s.host.cwd) (Search.named s.host.world.files s.host.cwd s.host.searchPath) text
  generalize hnames : Completion.candidatesOf _ _ before word = names at hcomplete
  refine ⟨before, word, Completion.extend word names, htext, hword, hbefore, ?_, ?_⟩
  · subst hnames
    exact Completion.prefix_extend fun _ => Completion.prefix_of_mem_candidates (Completion.lists_named _ _ _)
  · rw [pending_offerCompletion, completion, hcomplete]

/-- A mark with blanks behind it is still there when the next line is read. -/
theorem pending_blanks (s : Shell κ) (text : String) {b : String} (hb : ∀ c ∈ b.toList, isBlank c) (hne : b ≠ "") :
    ∃ more, (s.offerCompletion (text ++ "?" ++ b)).editor.pending = some (text ++ "?" ++ b ++ more) := by
  rw [pending_offerCompletion, completion, Completion.complete_blanks text hb hne]
  exact ⟨_, rfl⟩

/-- **Where the two readings of the mark agree.** The lines that are sent to be completed are those with a
mark in front of the blanks at their end, and they are completed as without these blanks exactly if there
are none. Then the next line begins with the text in front of the mark, its last word extended; on all
other lines it begins with the line as it was, mark and blanks included. -/
theorem completion_agrees_iff (s : Shell κ) :
    (∀ line, (Pipeline.parse line).needsCompletion = true ↔
      ∃ text b, line = text ++ "?" ++ b ∧ ∀ c ∈ b.toList, isBlank c) ∧
    ∀ text b, (∀ c ∈ b.toList, isBlank c) →
      (∀ listing commands, Completion.complete listing commands (text ++ "?" ++ b) =
        Completion.complete listing commands (text ++ "?") ↔ b = "") ∧
      (b = "" → ∃ before word extended, text.toList = before ++ word ∧
        (∀ c ∈ word, isBlank c = false) ∧ (∀ c ∈ before.getLast?, isBlank c = true) ∧ word <+: extended ∧
        (s.offerCompletion (text ++ "?" ++ b)).editor.pending = some (String.ofList (before ++ extended))) ∧
      (b ≠ "" → ∃ more,
        (s.offerCompletion (text ++ "?" ++ b)).editor.pending = some (text ++ "?" ++ b ++ more)) := by
  refine ⟨Pipeline.needsCompletion_iff, fun text b hb => ⟨fun listing commands => ?_, ?_, s.pending_blanks text hb⟩⟩
  · exact Completion.complete_blanks_iff text hb
  · rintro rfl
    rw [String.append_empty]
    exact s.pending_mark text

/-- With a blank behind the mark, the only command that begins with the word is not found. -/
theorem completion_agrees_iff_blank : (∀ c ∈ " ".toList, isBlank c) ∧
    (Pipeline.parse ("gr" ++ "?" ++ " ")).needsCompletion = true ∧
    Completion.complete (fun _ => []) (fun _ => ["grep"]) ("gr" ++ "?" ++ " ") ≠
      Completion.complete (fun _ => []) (fun _ => ["grep"]) ("gr" ++ "?") ∧
    ∃ more, ((start { dataDir := "/" } .shown {} () : Shell Unit).offerCompletion
      ("gr" ++ "?" ++ " ")).editor.pending = some ("gr" ++ "?" ++ " " ++ more) := by
  have hb : ∀ c ∈ " ".toList, isBlank c := by simp [isBlank]
  obtain ⟨hasks, hmarks⟩ := completion_agrees_iff (start { dataDir := "/" } .shown {} () : Shell Unit)
  obtain ⟨hsame, -, hstays⟩ := hmarks "gr" " " hb
  have hne : " " ≠ "" := by decide
  exact ⟨hb, (hasks _).2 ⟨"gr", " ", rfl, hb⟩, fun heq => hne ((hsame _ _).1 heq), hstays hne⟩

end Shell

end LineShell
