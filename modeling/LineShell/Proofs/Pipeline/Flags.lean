import LineShell.Proofs.Pipeline.Contiguous
import LineShell.Proofs.Pipeline.Items

/-!
# The flags that a line sets

A mark at the end of a line is taken off before the line is cut into words. So the words, and with them all that is
read into the stages, are those of the line without the mark (`Pipeline.parse_sign`); it makes no difference whether a
quote is open in front of the mark, or a pipe or a redirect has nothing behind it. All that the mark does is to set a
flag, of the last stage or of the first one (`Pipeline.marks_set_flags`). Words set none.
-/

namespace LineShell

variable {gap back : List Char} {line marked : String}

/-! ## The end of a line -/

namespace LineEnd

/-- The mark of an end. -/
def sign : LineEnd → List Char
  | .plain => []
  | .background => ['&']
  | .completion => ['?']

/-- A mark is found behind any text, and in front of any blanks. -/
theorem split_sign (hback : ∀ c ∈ back, isBlank c) (text : List Char) (e : LineEnd) :
    split (text ++ e.sign ++ back) = if e = .plain then split text else (trim text, e) := by
  rw [split_congr (trim_append_blanks _ hback)]
  cases e with
  | plain => rw [sign, List.append_nil, if_pos rfl]
  | background => rw [sign, split_concat rfl]; rfl
  | completion => rw [sign, split_concat rfl]; rfl

/-- Every line is a text with its mark behind it, and blanks behind that. -/
theorem exists_text (line : List Char) : ∃ text back, (∀ c ∈ back, isBlank c) ∧
    line = text ++ (split line).2.sign ++ back ∧ (split line).1 = trim text := by
  obtain ⟨front, back, hline, hfront, hback⟩ := exists_trim line
  rcases (trim line).eq_nil_or_concat' with hnil | ⟨rest, c, hrest⟩
  · have hsplit : split line = ([], .plain) := by simp [split, hnil]
    exact ⟨line, [], by simp, by simp [hsplit, sign], by rw [hsplit, hnil]⟩
  · rw [split_of_trim hrest]
    split_ifs with hquestion hampersand
    · refine ⟨front ++ rest, back, hback, ?_, (trim_blanks_append hfront rest).symm⟩
      conv_lhs => rw [hline, hrest, hquestion]
      simp [sign]
    · refine ⟨front ++ rest, back, hback, ?_, (trim_blanks_append hfront rest).symm⟩
      conv_lhs => rw [hline, hrest, hampersand]
      simp [sign]
    · exact ⟨line, [], by simp, by simp [sign], hrest.symm⟩

end LineEnd

/-- No word is left in a line once its mark is off: there are blanks, and one mark at most. -/
def Wordless (line : List Char) : Prop := ∃ (lead back : List Char) (e : LineEnd),
  (∀ c ∈ lead, isBlank c) ∧ (∀ c ∈ back, isBlank c) ∧ line = lead ++ e.sign ++ back

theorem ofLine_trim_eq_nil_iff {text : List Char} : Word.ofLine (trim text) = [] ↔ ∀ c ∈ text, isBlank c := by
  rw [← trim_eq_nil_iff]
  constructor
  · intro hnil
    by_contra hne
    exact Word.ofLine_ne_nil (tight_trim hne) hnil
  · intro hnil
    rw [hnil]
    rfl

theorem wordless_iff {line : List Char} : Wordless line ↔ Word.ofLine (LineEnd.split line).1 = [] := by
  constructor
  · rintro ⟨lead, back, e, hlead, hback, rfl⟩
    have htrim : trim lead = [] := trim_eq_nil_iff.2 hlead
    have hsplit : (LineEnd.split (lead ++ e.sign ++ back)).1 = [] := by
      rw [LineEnd.split_sign hback]
      split
      · simp [LineEnd.split, htrim]
      · exact htrim
    rw [hsplit]
    rfl
  · intro hnil
    obtain ⟨text, back, hback, hline, htrim⟩ := LineEnd.exists_text line
    rw [htrim, ofLine_trim_eq_nil_iff] at hnil
    exact ⟨text, back, _, hnil, hback, hline⟩

instance (line : List Char) : Decidable (Wordless line) := decidable_of_iff' _ wordless_iff

namespace Pipeline

/-- With a mark behind it, a line is read as it is without, and the flag is set. -/
theorem parse_sign {e : LineEnd} (hline : ∀ c ∈ (trim line.toList).getLast?, c ≠ '?' ∧ c ≠ '&')
    (hgap : ∀ c ∈ gap, isBlank c) (hback : ∀ c ∈ back, isBlank c)
    (hmarked : marked.toList = line.toList ++ gap ++ e.sign ++ back) : parse marked = (parse line).flagged e := by
  have hplain : (LineEnd.split line.toList).2 = .plain := LineEnd.split_plain_iff.2 hline
  have htrim : trim (line.toList ++ gap) = trim line.toList := trim_append_blanks _ hgap
  have hsplit : LineEnd.split marked.toList = (trim line.toList, e) := by
    rw [hmarked, LineEnd.split_sign hback]
    split
    · next he => rw [LineEnd.split_congr htrim, ← LineEnd.fst_split_of_plain hplain, he, ← hplain]
    · rw [htrim]
  rw [parse_eq_flagged marked, parse_eq_flagged line, hsplit, hplain, LineEnd.fst_split_of_plain hplain]
  rfl

/-! ## The flags of the stages -/

section Flagged

variable {p : Pipeline}

theorem stages_ne_nil (p : Pipeline) : p.stages ≠ [] := List.cons_ne_nil _ _

theorem stages_flagged_completion (p : Pipeline) :
    (p.flagged .completion).stages = { p.head with needsCompletion := true } :: p.tail := rfl

/-- At most one of the flags is set, and each of them only where it counts. -/
structure OneFlag (stages : List Stage) : Prop where
  one : (∃ s ∈ stages, s.background) → ∀ s ∈ stages, s.needsCompletion = false
  background : ∀ s ∈ stages.dropLast, s.background = false
  completion : ∀ s ∈ stages.tail, s.needsCompletion = false

theorem oneFlag_flagged (hp : ∀ s ∈ p.stages, s.Markless) (e : LineEnd) : OneFlag (p.flagged e).stages := by
  have hbackground : ∀ s ∈ p.stages, s.background = false := fun s hs => (hp s hs).1
  have hcompletion : ∀ s ∈ p.stages, s.needsCompletion = false := fun s hs => (hp s hs).2
  cases e with
  | plain =>
    exact ⟨fun _ => hcompletion, fun s hs => hbackground s (List.dropLast_subset _ hs),
      fun s hs => hcompletion s (List.mem_of_mem_tail hs)⟩
  | background =>
    have hall : ∀ s ∈ (p.flagged .background).stages, s.needsCompletion = false := by
      rw [stages_flagged_background]
      refine List.forall_mem_append.2 ⟨fun s hs => hcompletion s (List.dropLast_subset _ hs), ?_⟩
      exact List.forall_mem_singleton.2 (hcompletion p.last p.last_mem)
    refine ⟨fun _ => hall, ?_, fun s hs => hall s (List.mem_of_mem_tail hs)⟩
    rw [stages_flagged_background, List.dropLast_concat]
    exact fun s hs => hbackground s (List.dropLast_subset _ hs)
  | completion =>
    have hall : ∀ s ∈ (p.flagged .completion).stages, s.background = false := by
      obtain ⟨hhead, htail⟩ := List.forall_mem_cons.1 hbackground
      exact List.forall_mem_cons.2 ⟨hhead, htail⟩
    refine ⟨?_, fun s hs => hall s (List.dropLast_subset _ hs), fun s hs => ?_⟩
    · rintro ⟨s, hs, hset⟩
      rw [hall s hs] at hset
      cases hset
    · exact hcompletion s (List.mem_cons_of_mem _ hs)

end Flagged

/-! ## The names of the stages -/

/-- Each stage is named by a word. -/
theorem name_ne_of_mem_ofWords {ws : List Word} (hne : ws ≠ []) (hws : ∀ w ∈ ws, w ≠ []) :
    ∀ s ∈ (ofWords ws).stages, s.name ≠ "" := by
  obtain ⟨name, words, rfl⟩ := List.exists_cons_of_ne_nil hne
  obtain ⟨hname, hwords⟩ := List.forall_mem_cons.1 hws
  obtain ⟨-, hmore⟩ := Word.forall_groupsAfter hwords
  have hofWords : ∀ (w : Word) (group : List Word), w ≠ [] → (Stage.ofWords w group).name ≠ "" := by
    intro w group hw
    rw [Stage.name_ofWords]
    simpa using hw
  refine List.forall_mem_cons.2 ⟨hofWords name _ hname, fun s hs => ?_⟩
  obtain ⟨g, hg, rfl⟩ := List.mem_map.1 hs
  exact hofWords g.1 g.2 (hmore g hg).1

theorem name_ne_of_mem_parse (h : ¬ Wordless line.toList) : ∀ s ∈ (parse line).stages, s.name ≠ "" := by
  intro s hs
  have hwords : Word.ofLine (LineEnd.split line.toList).1 ≠ [] := mt wordless_iff.2 h
  exact name_ne_of_mem_ofWords hwords (fun _ => Word.ne_nil_of_mem_ofLine) s.unmarked (unmarked_mem_of_mem_parse hs)

theorem stages_parse_of_wordless (h : Wordless line.toList) :
    ∃ background needsCompletion, (parse line).stages = [{ background, needsCompletion }] := by
  have hstages := unmarked_stages_parse line
  rw [wordless_iff.1 h] at hstages
  obtain ⟨s, hs, hempty⟩ := List.map_eq_singleton_iff.1 hstages
  refine ⟨s.background, s.needsCompletion, ?_⟩
  obtain ⟨name, arguments, input, output, background, completion⟩ := s
  obtain ⟨rfl, rfl, rfl, rfl, -⟩ := Stage.mk.inj hempty
  exact hs

/-- **Marks set flags, and nothing else.** Where a line does not end in a mark, a mark behind it and any blanks leaves
all stages as they are, but for the flag of the last stage or of the first one. And whatever a line is, it has a stage;
at most one flag is set, and only where it counts; and all stages have names, unless there is not a word in the line,
when there is one stage with nothing in it. -/
theorem marks_set_flags (line : String) :
    ((trim line.toList).getLast? ≠ some '?' → (trim line.toList).getLast? ≠ some '&' →
      ∀ gap back : String, (∀ c ∈ gap.toList, isBlank c) → (∀ c ∈ back.toList, isBlank c) →
        (parse (line ++ gap ++ "&" ++ back)).stages =
            (parse line).stages.dropLast ++ [{ (parse line).last with background := true }] ∧
          (parse (line ++ gap ++ "?" ++ back)).stages =
            { (parse line).head with needsCompletion := true } :: (parse line).tail) ∧
      (parse line).stages ≠ [] ∧ OneFlag (parse line).stages ∧
      (¬ Wordless line.toList → ∀ s ∈ (parse line).stages, s.name ≠ "") ∧
      (Wordless line.toList →
        ∃ background needsCompletion, (parse line).stages = [{ background, needsCompletion }]) := by
  refine ⟨fun hquestion hampersand gap back hgap hback => ?_, stages_ne_nil _, ?_, name_ne_of_mem_parse,
    stages_parse_of_wordless⟩
  · have hline : ∀ c ∈ (trim line.toList).getLast?, c ≠ '?' ∧ c ≠ '&' := by
      intro c hc
      exact ⟨fun hmark => hquestion (hmark ▸ hc), fun hmark => hampersand (hmark ▸ hc)⟩
    have hbackground : parse (line ++ gap ++ "&" ++ back) = (parse line).flagged .background :=
      parse_sign hline hgap hback (by simp [LineEnd.sign])
    have hcompletion : parse (line ++ gap ++ "?" ++ back) = (parse line).flagged .completion :=
      parse_sign hline hgap hback (by simp [LineEnd.sign])
    rw [hbackground, hcompletion]
    exact ⟨stages_flagged_background _, stages_flagged_completion _⟩
  · rw [parse_eq_flagged]
    exact oneFlag_flagged (fun _ => markless_of_mem) _

/-- A redirect without a target, and a quote that is open in front of the mark; and a line that is a mark among
blanks. -/
theorem marks_set_flags_open :
    (parse ("cat < | grep 'a |\t" ++ " \t" ++ "&" ++ " ")).stages =
        [{ name := "cat", input := some "" }, { name := "grep", arguments := ["'a |"], background := true }] ∧
      (parse ("cat < | grep 'a |\t" ++ " \t" ++ "?" ++ " ")).stages =
        [{ name := "cat", input := some "", needsCompletion := true }, { name := "grep", arguments := ["'a |"] }] ∧
      (¬ Wordless "cat < | grep 'a |\t".toList ∧ ∀ s ∈ (parse "cat < | grep 'a |\t").stages, s.name ≠ "") ∧
      Wordless "\t& ".toList ∧
      ∃ background needsCompletion, (parse "\t& ").stages = [{ background, needsCompletion }] := by
  obtain ⟨hmarks, -, -, hnamed, -⟩ := marks_set_flags "cat < | grep 'a |\t"
  obtain ⟨-, -, -, -, hempty⟩ := marks_set_flags "\t& "
  have hgap : ∀ c ∈ " \t".toList, isBlank c := by simp [isBlank]
  have hback : ∀ c ∈ " ".toList, isBlank c := by simp [isBlank]
  obtain ⟨hbackground, hcompletion⟩ := hmarks (by decide +kernel) (by decide +kernel) " \t" " " hgap hback
  have hwords : ¬ Wordless "cat < | grep 'a |\t".toList := by decide +kernel
  have hblank : Wordless "\t& ".toList := by decide +kernel
  exact ⟨hbackground.trans (by decide +kernel), hcompletion.trans (by decide +kernel), ⟨hwords, hnamed hwords⟩, hblank,
    hempty hblank⟩

end Pipeline

end LineShell
