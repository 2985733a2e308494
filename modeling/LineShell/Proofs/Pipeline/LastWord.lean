import LineShell.Proofs.Pipeline.Characters
import Mathlib.Data.List.Chain
import Mathlib.Data.List.Induction

/-!
# What the last word of a line is read as

Read from left to right, some words leave a stage open or none (`Word.openStage`), and a redirect sign that
waits for its target or none (`Word.awaited`). That alone says what the next word becomes: the name of a
stage, an argument, a redirect or the target of one (`Word.Read`). The last stage of a line is what its
last word becomes (`Pipeline.read_last`).
-/

namespace LineShell

variable {front group ws : List Word} {w name : Word} {d : Direction}

/-! ## Texts without quotes -/

namespace Word

variable {before text : List Char}

theorem openQuote_plain (h : ∀ c ∈ text, isQuote c = false) : openQuote none text = none := by
  induction text with
  | nil => rfl
  | cons c text ih =>
    obtain ⟨hc, htext⟩ := List.forall_mem_cons.1 h
    rw [openQuote, List.foldl_cons, quoteAfter, hc, if_neg Bool.false_ne_true]
    exact ih htext

/-- Where the front of a text has no quotes and ends in a blank, the rest has words of its own. -/
theorem ofLine_append_of_last (hplain : ∀ c ∈ before, isQuote c = false) (hlast : ∀ c ∈ before.getLast?, isBlank c)
    (rest : List Char) : ofLine (before ++ rest) = ofLine before ++ ofLine rest := by
  rcases List.eq_nil_or_concat' before with rfl | ⟨front, b, rfl⟩
  · rfl
  · have hb : isBlank b := hlast b (by simp)
    have hfront : openQuote none front = none := openQuote_plain fun c hc => hplain c (by simp [hc])
    rw [List.append_assoc, List.singleton_append, ofLine_append_blank hfront hb, ofLine_append_blank hfront hb]
    simp [ofLine, cut]

theorem ofLine_append_gap (hplain : ∀ c ∈ text, isQuote c = false) {gap : List Char} (hgap : ∀ c ∈ gap, isBlank c) :
    ofLine (text ++ gap) = ofLine text := by
  by_cases hnone : gap = []
  · rw [hnone, List.append_nil]
  · have hwords := ofLine_append_blanks (openQuote_plain hplain) hgap hnone []
    rw [List.append_nil] at hwords
    rw [hwords]
    simp [ofLine, cut]

/-- Blanks at the ends of a text without quotes hold no word. -/
theorem ofLine_trim (hplain : ∀ c ∈ text, isQuote c = false) : ofLine (trim text) = ofLine text := by
  obtain ⟨front, back, htext, hfront, hback⟩ := exists_trim text
  conv_rhs => rw [htext, List.append_assoc, ofLine_blanks_append hfront]
  exact (ofLine_append_gap (fun c hc => hplain c (mem_of_mem_trim hc)) hback).symm

end Word

/-! ## The stage that is open -/

namespace Word

/-- The next word either names a stage, or belongs to the one that is open or ends it. -/
def stepStage (stage : Option (Word × List Word)) (w : Word) : Option (Word × List Word) :=
  match stage with
  | none => some (w, [])
  | some (name, group) => if w = pipe then none else some (name, group ++ [w])

/-- The stage that is open behind some words: its name and the words behind that. There is none at the
beginning, and behind a pipe that ends one. -/
def openStage (ws : List Word) : Option (Word × List Word) := ws.foldl stepStage none

theorem openStage_concat (ws : List Word) (w : Word) : openStage (ws ++ [w]) = stepStage (openStage ws) w := by
  rw [openStage, List.foldl_append]
  rfl

/-- It is a pipe that leaves no stage open. -/
theorem getLast?_of_openStage_eq_none (h : openStage front = none) : front = [] ∨ front.getLast? = some pipe := by
  rcases front.eq_nil_or_concat' with rfl | ⟨ws, w, rfl⟩
  · exact .inl rfl
  · rw [openStage_concat] at h
    right
    cases hopen : openStage ws with
    | none => simp [hopen, stepStage] at h
    | some stage =>
      rw [hopen, stepStage] at h
      split at h
      · next hw => rw [List.getLast?_concat, hw]
      · cases h

/-- Where no word is a pipe by being behind a pipe or the first, every pipe ends a stage. -/
theorem openStage_eq_none_iff (hfirst : front.head? ≠ some pipe)
    (hapart : front.IsChain fun v v' => ¬ (v = pipe ∧ v' = pipe)) :
    openStage front = none ↔ front = [] ∨ front.getLast? = some pipe := by
  refine ⟨getLast?_of_openStage_eq_none, ?_⟩
  rintro (rfl | hlast)
  · rfl
  · obtain ⟨ws, rfl⟩ := List.getLast?_eq_some_iff.1 hlast
    rw [openStage_concat]
    cases hopen : openStage ws with
    | some stage => simp [stepStage]
    | none =>
      -- a pipe that no stage is open in front of is the first word, or stands behind a pipe
      rcases getLast?_of_openStage_eq_none hopen with rfl | hpipe
      · exact absurd rfl hfirst
      · exact absurd ⟨rfl, rfl⟩ ((List.isChain_append.1 hapart).2.2 pipe hpipe pipe rfl)

/-- The last group of words, the first one included. -/
theorem getLastD_groupsAfter (hw : w ≠ pipe) (ws : List Word) (name : Word) (group : List Word) :
    (groupsAfter (ws ++ [w])).2.getLastD (name, group ++ (groupsAfter (ws ++ [w])).1) =
      match ws.foldl stepStage (some (name, group)) with
      | none => (w, [])
      | some (name, group) => (name, group ++ [w]) := by
  induction ws using groupsAfter.induct generalizing name group with
  | case1 => simp [groupsAfter, hw]
  | case2 => simp [groupsAfter, stepStage]
  | case3 first ws _ _ _ ih =>
    rw [List.cons_append, List.cons_append, groupsAfter_pipe, List.getLastD_cons]
    simpa only [List.foldl_cons, stepStage, if_true, List.nil_append] using ih first []
  | case4 v ws hv _ _ _ ih =>
    rw [List.cons_append, groupsAfter_cons hv]
    simpa [stepStage, hv] using ih name (group ++ [v])

end Word

namespace Pipeline

/-- The last stage is made of the last group of words. -/
theorem last_ofWords (hw : w ≠ Word.pipe) (ws : List Word) : (ofWords (ws ++ [w])).last =
    match Word.openStage ws with
    | none => Stage.ofWords w []
    | some (name, group) => Stage.ofWords name (group ++ [w]) := by
  cases ws with
  | nil => rfl
  | cons name ws =>
    have hgroup := Word.getLastD_groupsAfter hw ws name []
    rw [List.nil_append] at hgroup
    have hlast : (ofWords (name :: ws ++ [w])).last =
        (fun g : Word × List Word => Stage.ofWords g.1 g.2) ((Word.groupsAfter (ws ++ [w])).2.getLastD
          (name, (Word.groupsAfter (ws ++ [w])).1)) := by
      simp only [List.cons_append, ofWords, last]
      rw [List.getLastD_eq_getLast?, List.getLastD_eq_getLast?, List.getLast?_map]
      cases (Word.groupsAfter (ws ++ [w])).2.getLast? <;> rfl
    rw [hlast, hgroup, Word.openStage, List.foldl_cons]
    simp only [Word.stepStage]
    split <;> rfl

end Pipeline

/-! ## The sign that waits -/

namespace Word

/-- The direction of the sign that the words behind a name end in, if it takes the next word as its target. A
sign has done with the word behind it, whatever that is. -/
def awaited : List Word → Option Direction
  | [] => none
  | w :: ws =>
    match redirect? w with
    | some (d, []) =>
      match ws with
      | [] => some d
      | _ :: rest => awaited rest
    | _ => awaited ws

theorem awaited_sign {sign next : Word} (h : redirect? sign = some (d, [])) (ws : List Word) :
    awaited (sign :: next :: ws) = awaited ws := by
  rw [awaited.eq_def]
  simp only [h]

theorem awaited_cons (h : ∀ d, redirect? w ≠ some (d, [])) (ws : List Word) : awaited (w :: ws) = awaited ws := by
  rw [awaited.eq_def]
  dsimp only
  split
  · exact absurd ‹_› (h _)
  · rfl

/-- A sign that waits is the last word, and no other waits for it. -/
theorem exists_sign (h : awaited ws = some d) :
    ∃ front sign, ws = front ++ [sign] ∧ awaited front = none ∧ redirect? sign = some (d, []) := by
  fun_induction awaited ws with
  | case1 => cases h
  | case2 sign d' hsign =>
    cases h
    exact ⟨[], sign, rfl, rfl, hsign⟩
  | case3 sign d' hsign next rest ih =>
    obtain ⟨front, sign', rfl, hfront, hsign'⟩ := ih h
    exact ⟨sign :: next :: front, sign', rfl, by rw [awaited_sign hsign, hfront], hsign'⟩
  | case4 w ws hw ih =>
    obtain ⟨front, sign, rfl, hfront, hsign⟩ := ih h
    exact ⟨w :: front, sign, rfl, by rw [awaited_cons hw, hfront], hsign⟩

end Word

namespace Stage

/-- Where no sign waits, the words behind are read on their own. -/
theorem addWords_append (s : Stage) (h : Word.awaited ws = none) (vs : List Word) :
    s.addWords (ws ++ vs) = (s.addWords ws).addWords vs := by
  fun_induction addWords s ws with
  | case1 s => rfl
  | case2 s ws ih =>
    rw [Word.awaited_cons (by simp [Word.redirect?, Word.ampersand])] at h
    rw [List.cons_append, addWords.eq_def]
    simp only [if_true]
    exact ih h
  | case3 s v ws hv hplain ih =>
    rw [Word.awaited_cons (by simp [hplain])] at h
    rw [List.cons_append, addWords.eq_def]
    simp only [hv, if_false, hplain]
    exact ih h
  | case4 s v hv d hsign =>
    rw [Word.awaited.eq_def] at h
    simp [hsign] at h
  | case5 s v hv d hsign rest ih =>
    rw [Word.awaited_sign hsign] at h
    rw [List.cons_append, List.cons_append, addWords.eq_def]
    simp only [hv, if_false, hsign, if_true]
    exact ih (by rwa [Word.awaited_cons (by simp [Word.redirect?, Word.ampersand])])
  | case6 s v hv d hsign next rest hnext ih =>
    rw [Word.awaited_sign hsign] at h
    rw [List.cons_append, List.cons_append, addWords.eq_def]
    simp only [hv, if_false, hsign, hnext]
    exact ih h
  | case7 s v ws hv d target hne hredirect ih =>
    rw [Word.awaited_cons (by simpa [hredirect] using hne)] at h
    rw [List.cons_append, addWords.eq_def]
    simp only [hv, if_false, hredirect]
    exact ih h

theorem addWords_of_sign (s : Stage) {sign : Word} (hsign : Word.redirect? sign = some (d, [])) (hw : w ≠ Word.ampersand) :
    s.addWords [sign, w] = s.redirect d w := by
  have hne : sign ≠ Word.ampersand := by
    rintro rfl
    cases hsign
  rw [addWords.eq_def]
  simp only [hne, if_false, hsign, hw]
  rfl

theorem addWords_of_plain (s : Stage) (hw : w ≠ Word.ampersand) (h : Word.redirect? w = none) :
    s.addWords [w] = s.argument w := by
  rw [addWords.eq_def]
  simp only [hw, if_false, h]
  rfl

theorem addWords_of_redirect (s : Stage) {target : Word} (h : Word.redirect? w = some (d, target)) :
    s.addWords [w] = s.redirect d target := by
  have hne : w ≠ Word.ampersand := by
    rintro rfl
    cases h
  rw [addWords.eq_def]
  simp only [hne, if_false, h]
  cases target <;> rfl

end Stage

/-! ## The last word -/

/-- What a word is read as. -/
inductive Role where
  | name
  | argument
  /-- A redirect sign, with a target behind it or without. -/
  | redirect
  /-- The target of the sign in front of it. -/
  | target
  deriving Repr, DecidableEq

/-- What a word is read as behind others, and the last stage with it. Names, arguments and targets are taken
as they stand. -/
inductive Word.Read (front : List Word) (w : Word) : Role → Stage → Prop where
  | name (hopen : openStage front = none) : Read front w .name { name := String.ofList w }
  | argument {name : Word} {group : List Word} (hopen : openStage front = some (name, group))
    (hplain : w ≠ pipe ∧ w ≠ ampersand) (hwaits : awaited group = none) (hsign : redirect? w = none) :
    Read front w .argument
      { Stage.ofWords name group with arguments := (Stage.ofWords name group).arguments ++ [String.ofList w] }
  | redirect {name target : Word} {group : List Word} {d : Direction} (hopen : openStage front = some (name, group))
    (hwaits : awaited group = none) (hsign : redirect? w = some (d, target)) :
    Read front w .redirect ((Stage.ofWords name group).redirect d target)
  | target {name sign : Word} {group : List Word} {d : Direction}
    (hopen : openStage front = some (name, group ++ [sign])) (hplain : w ≠ pipe ∧ w ≠ ampersand)
    (hwaits : awaited (group ++ [sign]) = some d) :
    Read front w .target ((Stage.ofWords name group).record (d, String.ofList w))

theorem Stage.redirect_eq_record (s : Stage) (d : Direction) (hw : Word.unquote w = w) :
    s.redirect d w = s.record (d, String.ofList w) := by
  cases d <;> simp only [redirect, record, hw]

/-- The last stage of a line is what its last word is read as. -/
theorem Pipeline.read_last (front : List Word) (hpipe : w ≠ Word.pipe) (hampersand : w ≠ Word.ampersand)
    (hquotes : Word.unquote w = w) : ∃ role, Word.Read front w role (ofWords (front ++ [w])).last := by
  rw [last_ofWords hpipe]
  cases hopen : Word.openStage front with
  | none => exact ⟨.name, .name hopen⟩
  | some stage =>
    obtain ⟨name, group⟩ := stage
    dsimp only
    cases hwaits : Word.awaited group with
    | some d =>
      obtain ⟨group, sign, rfl, hgroup, hsign⟩ := Word.exists_sign hwaits
      refine ⟨.target, ?_⟩
      rw [Stage.ofWords, List.append_assoc, Stage.addWords_append _ hgroup, List.singleton_append,
        Stage.addWords_of_sign _ hsign hampersand, Stage.redirect_eq_record _ _ hquotes]
      exact .target hopen ⟨hpipe, hampersand⟩ hwaits
    | none =>
      rw [Stage.ofWords, Stage.addWords_append _ hwaits]
      cases hsign : Word.redirect? w with
      | none =>
        refine ⟨.argument, ?_⟩
        rw [Stage.addWords_of_plain _ hampersand hsign, Stage.argument, hquotes]
        exact .argument hopen ⟨hpipe, hampersand⟩ hwaits hsign
      | some r =>
        obtain ⟨d, target⟩ := r
        refine ⟨.redirect, ?_⟩
        rw [Stage.addWords_of_redirect _ hsign]
        exact .redirect hopen hwaits hsign

end LineShell
