import LineShell.Proofs.Pipeline.Marks

/-!
# Lines joined by a pipe

Two lines with a pipe between them are read as the stages of the first line and the stages of the
second behind them (`parse_joined`). Nothing goes over the pipe: no quote is open in front of it
(`Word.ofLine_append_blank`), a redirect without a target ends with its group (`Word.groupsAfter_append_pipe`),
and the mark is taken off the end of the second line (`LineEnd.split_append`).
-/

namespace LineShell

/-! ## The blanks around a text -/

/-- What trimming leaves has no blanks at its ends. -/
theorem tight_trim {text : List Char} (h : trim text ≠ []) : Tight (trim text) := by
  obtain ⟨back, hdrop, -⟩ := dropWhile_eq_trim_append text
  refine ⟨(trim text).head h, (trim text).getLast h, List.head?_eq_some_head h,
    List.getLast?_eq_some_getLast h, ?_, ?_⟩
  · have hhead := List.head?_dropWhile_not isBlank text
    rw [hdrop, List.head?_append_of_ne_nil _ h, List.head?_eq_some_head h] at hhead
    simpa using hhead
  · have hlast := List.head?_dropWhile_not isBlank (text.dropWhile isBlank).reverse
    rw [← List.getLast?_reverse, ← trim, List.getLast?_eq_some_getLast h] at hlast
    simpa using hlast

/-- The blanks in front of a text are kept behind another text. -/
theorem trim_append {front text : List Char} (hfront : ∃ c, front.head? = some c ∧ isBlank c = false)
    (htext : trim text ≠ []) : trim (front ++ text) = front ++ text.takeWhile isBlank ++ trim text := by
  obtain ⟨a, ha, hna⟩ := hfront
  obtain ⟨-, b, -, hb, -, hnb⟩ := tight_trim htext
  obtain ⟨back, hdrop, hback⟩ := dropWhile_eq_trim_append text
  have hsplit : front ++ text = front ++ text.takeWhile isBlank ++ trim text ++ back := by
    rw [List.append_assoc, ← hdrop, List.append_assoc, List.takeWhile_append_dropWhile]
  rw [hsplit, trim_append_blanks _ hback]
  exact Tight.trim ⟨a, b, by simp [ha], by simp [hb], hna, hnb⟩

namespace Word

/-! ## Words on both sides of a blank -/

/-- The quote that is open behind a text. -/
def openQuote (quote : Option Char) (text : List Char) : Option Char := text.foldl quoteAfter quote

theorem quoteAfter_blank {b : Char} (hb : isBlank b) : quoteAfter none b = none := by
  have hq : isQuote b = false := by
    rcases (by simpa [isBlank] using hb : b = ' ' ∨ b = '\t') with rfl | rfl <;> rfl
  simp [quoteAfter, hq]

/-- A blank behind closed quotes cuts the text. -/
theorem cut_append_blank {quote : Option Char} {text : List Char} (hclosed : openQuote quote text = none)
    {b : Char} (hb : isBlank b) (rest : List Char) :
    cut quote (text ++ b :: rest) =
      ((cut quote text).1, (cut quote text).2 ++ (cut none rest).1 :: (cut none rest).2) := by
  induction text generalizing quote with
  | nil =>
    obtain rfl : quote = none := hclosed
    simp [cut, hb]
  | cons c cs ih =>
    rw [List.cons_append, cut, cut]
    split
    · next hcut =>
      obtain ⟨rfl, hc⟩ := hcut
      have hclosed' : openQuote none cs = none := by rwa [openQuote, List.foldl_cons, quoteAfter_blank hc] at hclosed
      simp only [ih hclosed', List.cons_append]
    · simp only [ih hclosed]

/-- The words on both sides of a blank that no quote is open in front of. -/
theorem ofLine_append_blank {text : List Char} (hclosed : openQuote none text = none) {b : Char}
    (hb : isBlank b) (rest : List Char) : ofLine (text ++ b :: rest) = ofLine text ++ ofLine rest := by
  simp only [ofLine, cut_append_blank hclosed hb, ← List.filter_append, List.cons_append]

theorem ofLine_blanks_append {b : List Char} (hb : ∀ c ∈ b, isBlank c) (text : List Char) :
    ofLine (b ++ text) = ofLine text := by
  induction b with
  | nil => rfl
  | cons c cs ih =>
    have hclosed : openQuote none [] = none := rfl
    rw [List.cons_append, ← ih fun d hd => hb d (by simp [hd])]
    exact ofLine_append_blank hclosed (hb c (by simp)) (cs ++ text)

/-- Blanks behind closed quotes hold no word. -/
theorem ofLine_append_blanks {text : List Char} (hclosed : openQuote none text = none) {b : List Char}
    (hb : ∀ c ∈ b, isBlank c) (hne : b ≠ []) (rest : List Char) :
    ofLine (text ++ (b ++ rest)) = ofLine text ++ ofLine rest := by
  obtain ⟨c, cs, rfl⟩ := List.exists_cons_of_ne_nil hne
  rw [List.cons_append, ofLine_append_blank hclosed (hb c (by simp)),
    ofLine_blanks_append fun d hd => hb d (by simp [hd])]

theorem ofLine_ne_nil {text : List Char} (h : Tight text) : ofLine text ≠ [] := by
  obtain ⟨c, -, hc, -, hblank, -⟩ := h
  obtain ⟨cs, rfl⟩ : ∃ cs, text = c :: cs := List.head?_eq_some_iff.1 hc
  simp [ofLine, cut, hblank]

theorem ne_nil_of_mem_ofLine {w : Word} {text : List Char} (h : w ∈ ofLine text) : w ≠ [] := by
  simpa using (List.mem_filter.1 h).2

/-! ## Groups on both sides of a pipe -/

theorem groupsAfter_pipe (name : Word) (rest : List Word) :
    groupsAfter (pipe :: name :: rest) = ([], (name, (groupsAfter rest).1) :: (groupsAfter rest).2) := by
  simp only [groupsAfter, if_true]

theorem groupsAfter_cons {w : Word} (hw : w ≠ pipe) (ws : List Word) :
    groupsAfter (w :: ws) = (w :: (groupsAfter ws).1, (groupsAfter ws).2) := by
  rw [groupsAfter.eq_def]
  simp only [if_neg hw]

theorem getLast?_ne_of_cons {w v : Word} {ws : List Word} (h : (w :: ws).getLast? ≠ some v) :
    ws.getLast? ≠ some v := by
  cases ws with
  | nil => simp
  | cons u us => rwa [List.getLast?_cons_cons] at h

/-- A pipe with a word behind it opens a group, unless it is itself the first word of one. -/
theorem groupsAfter_append_pipe {ws : List Word} (h : ws.getLast? ≠ some pipe) (name : Word) (rest : List Word) :
    groupsAfter (ws ++ pipe :: name :: rest) =
      ((groupsAfter ws).1, (groupsAfter ws).2 ++ (name, (groupsAfter rest).1) :: (groupsAfter rest).2) := by
  induction ws using groupsAfter.induct with
  | case1 => rw [List.nil_append, groupsAfter_pipe, groupsAfter, List.nil_append]
  | case2 => exact absurd rfl h
  | case3 first ws _ _ _ ih =>
    rw [List.cons_append, List.cons_append, groupsAfter_pipe, groupsAfter_pipe,
      ih (getLast?_ne_of_cons (getLast?_ne_of_cons h)), List.cons_append]
  | case4 w ws hw _ _ _ ih =>
    rw [List.cons_append, groupsAfter_cons hw, groupsAfter_cons hw, ih (getLast?_ne_of_cons h)]

end Word

/-! ## Stages on both sides of a pipe -/

namespace Pipeline

/-- The words of two lines with a pipe between them. -/
theorem ofWords_append_pipe {v : Word} {vs : List Word} (h : (v :: vs).getLast? ≠ some Word.pipe)
    (w : Word) (ws : List Word) :
    ofWords (v :: vs ++ Word.pipe :: w :: ws) =
      ⟨(ofWords (v :: vs)).head, (ofWords (v :: vs)).tail ++ (ofWords (w :: ws)).stages⟩ := by
  rw [List.cons_append]
  simp only [ofWords, Word.groupsAfter_append_pipe (Word.getLast?_ne_of_cons h), stages, List.map_append, List.map_cons]

theorem markLast_append (background : Bool) (s t : Stage) (ss ts : List Stage) :
    markLast background s (ss ++ t :: ts) = ⟨s, ss ++ (markLast background t ts).stages⟩ := by
  induction ss generalizing s with
  | nil => rfl
  | cons u us ih =>
    rw [List.cons_append, markLast, ih]
    rfl

/-- Behind other stages, the request for completion goes to the first of them. -/
theorem markLast_joined (background completion : Bool) (s : Stage) (ss : List Stage) {t : Stage}
    (ht : t.needsCompletion = false) (ts : List Stage) :
    (markLast background { s with needsCompletion := completion } (ss ++ t :: ts)).stages =
      { s with needsCompletion := (markLast background { t with needsCompletion := completion } ts).needsCompletion } ::
        ss ++ { (markLast background { t with needsCompletion := completion } ts).head with needsCompletion := false } ::
          (markLast background { t with needsCompletion := completion } ts).tail := by
  rw [markLast_append, List.cons_append]
  cases ts <;> simp only [markLast, stages, needsCompletion, ← ht]

end Pipeline

/-! ## The end of a joined line -/

namespace LineEnd

theorem split_congr {a b : List Char} (h : trim a = trim b) : split a = split b := by
  unfold split
  rw [h]

theorem split_of_trim {text rest : List Char} {c : Char} (h : trim text = rest ++ [c]) :
    split text = if c = '?' then (trim rest, .completion) else if c = '&' then (trim rest, .background)
      else (rest ++ [c], .plain) := by
  simp only [split, h, List.getLast?_concat, List.dropLast_concat, Option.some_inj]

/-- A mark at the end of a line is taken off, and what is in front of it is trimmed. -/
theorem split_concat {c : Char} (hc : isBlank c = false) (text : List Char) :
    split (text ++ [c]) = if c = '?' then (trim text, .completion) else if c = '&' then (trim text, .background)
      else (text.dropWhile isBlank ++ [c], .plain) := by
  rw [split_of_trim (trim_concat hc text), trim_dropWhile]

theorem split_plain_iff {text : List Char} : (split text).2 = .plain ↔ ∀ x ∈ (trim text).getLast?, x ≠ '?' ∧ x ≠ '&' := by
  cases hlast : (trim text).getLast? with
  | none => simp [split, hlast]
  | some x => by_cases hq : x = '?' <;> by_cases ha : x = '&' <;> simp [split, hlast, hq, ha]

theorem fst_split_of_plain {text : List Char} (h : (split text).2 = .plain) : (split text).1 = trim text := by
  unfold split at h ⊢
  dsimp only at h ⊢
  split
  · next hmark => simp [hmark] at h
  · split
    · next hq hmark => simp [hmark] at h
    · rfl

/-- What stands in front of a line does not change how the line ends. -/
theorem split_append {front text : List Char} (hfront : ∃ c, front.head? = some c ∧ isBlank c = false)
    (htext : (split text).1 ≠ []) : ∃ gap, (∀ c ∈ gap, isBlank c) ∧
      split (front ++ text) = (front ++ gap ++ (split text).1, (split text).2) := by
  have hne : trim text ≠ [] := by
    intro hnil
    simp [split, hnil] at htext
  obtain ⟨rest, hrest⟩ := List.getLast?_eq_some_iff.1 (List.getLast?_eq_some_getLast hne)
  have hgap : ∀ c ∈ text.takeWhile isBlank, isBlank c := fun c hc => List.mem_takeWhile_imp hc
  have hwhole := trim_append hfront hne
  rw [hrest, ← List.append_assoc] at hwhole
  have hmarked : trim rest ≠ [] → ∃ gap, (∀ c ∈ gap, isBlank c) ∧
      trim (front ++ text.takeWhile isBlank ++ rest) = front ++ gap ++ trim rest := by
    obtain ⟨a, ha, hna⟩ := hfront
    intro hne
    refine ⟨text.takeWhile isBlank ++ rest.takeWhile isBlank, fun c hc => ?_, ?_⟩
    · rcases List.mem_append.1 hc with hc | hc
      · exact hgap c hc
      · exact List.mem_takeWhile_imp hc
    · rw [trim_append ⟨a, by simp [ha], hna⟩ hne, ← List.append_assoc]
  rw [split_of_trim hrest] at htext ⊢
  rw [split_of_trim hwhole]
  split_ifs at htext ⊢
  · obtain ⟨gap, hblank, htrim⟩ := hmarked htext
    exact ⟨gap, hblank, by rw [htrim]⟩
  · obtain ⟨gap, hblank, htrim⟩ := hmarked htext
    exact ⟨gap, hblank, by rw [htrim]⟩
  · exact ⟨_, hgap, by rw [List.append_assoc]⟩

end LineEnd

/-! ## Reading a joined line -/

namespace Pipeline

/-- A line that a pipe can be put behind: it is not blank, its quotes are closed, it does not end in a mark,
and its last word is not a pipe itself. -/
@[mk_iff]
structure Joinable (line : String) : Prop where
  nonblank : trim line.toList ≠ []
  closed : Word.openQuote none (trim line.toList) = none
  unmarked : (trim line.toList).getLast? ≠ some '?' ∧ (trim line.toList).getLast? ≠ some '&'
  last : (Word.ofLine (trim line.toList)).getLast? ≠ some Word.pipe

instance (line : String) : Decidable (Joinable line) := decidable_of_iff' _ (joinable_iff line)

/-- The words of a line with a pipe behind the first part of it. -/
theorem ofLine_split_joined {first second : String} (hfirst : Joinable first)
    (hsecond : (LineEnd.split second.toList).1 ≠ []) :
    (Word.ofLine (LineEnd.split (first ++ " | " ++ second).toList).1 =
      Word.ofLine (trim first.toList) ++ Word.pipe :: Word.ofLine (LineEnd.split second.toList).1) ∧
      (LineEnd.split (first ++ " | " ++ second).toList).2 = (LineEnd.split second.toList).2 := by
  obtain ⟨lead, back, htext, hlead, hback⟩ := exists_trim first.toList
  obtain ⟨a, -, ha, -, hna, -⟩ := tight_trim hfirst.nonblank
  have hfront : ∃ c, (trim first.toList ++ (back ++ [' ', '|', ' '])).head? = some c ∧ isBlank c = false :=
    ⟨a, by simp [ha], hna⟩
  obtain ⟨gap, hgap, hsplit⟩ := LineEnd.split_append hfront hsecond
  have hline : LineEnd.split (first ++ " | " ++ second).toList =
      LineEnd.split (trim first.toList ++ (back ++ [' ', '|', ' ']) ++ second.toList) := by
    refine LineEnd.split_congr ?_
    conv_lhs => rw [String.toList_append, String.toList_append, htext]
    conv_rhs => rw [← trim_blanks_append hlead]
    simp
  have hwords : trim first.toList ++ (back ++ [' ', '|', ' ']) ++ gap ++ (LineEnd.split second.toList).1 =
      trim first.toList ++ ((back ++ [' ']) ++ (Word.pipe ++ ((' ' :: gap) ++ (LineEnd.split second.toList).1))) := by
    simp [Word.pipe]
  rw [hline, hsplit, hwords]
  refine ⟨?_, rfl⟩
  have hbefore : ∀ c ∈ back ++ [' '], isBlank c := by
    intro c hc
    rcases List.mem_append.1 hc with hc | hc
    · exact hback c hc
    · rw [List.mem_singleton.1 hc]
      rfl
  have hbehind : ∀ c ∈ ' ' :: gap, isBlank c := List.forall_mem_cons.2 ⟨rfl, hgap⟩
  have hpipe : Word.openQuote none Word.pipe = none := rfl
  rw [Word.ofLine_append_blanks hfirst.closed hbefore (by simp),
    Word.ofLine_append_blanks hpipe hbehind (by simp)]
  rfl

theorem Joinable.ofLine_ne_nil {line : String} (h : Joinable line) : Word.ofLine (trim line.toList) ≠ [] :=
  Word.ofLine_ne_nil (tight_trim h.nonblank)

/-- Such a line is read as its words. -/
theorem Joinable.parse_eq {line : String} (h : Joinable line) :
    parse line = ofWords (Word.ofLine (trim line.toList)) := by
  have hmark : (LineEnd.split line.toList).2 = .plain := by
    refine LineEnd.split_plain_iff.2 fun c hc => ?_
    exact ⟨fun hmark => h.unmarked.1 (hmark ▸ hc), fun hmark => h.unmarked.2 (hmark ▸ hc)⟩
  rw [parse_eq_flagged, LineEnd.fst_split_of_plain hmark, hmark]
  rfl

theorem head_name_markLast (background : Bool) (s : Stage) (ss : List Stage) :
    (markLast background s ss).head.name = s.name := by
  cases ss <;> rfl

/-- A line whose first stage has a name has words. -/
theorem exists_words_of_name {line : String} (h : (parse line).head.name ≠ "") :
    ∃ w ws, Word.ofLine (LineEnd.split line.toList).1 = w :: ws := by
  rw [parse_eq_markLast, head_name_markLast] at h
  cases hwords : Word.ofLine (LineEnd.split line.toList).1 with
  | nil =>
    rw [hwords] at h
    exact absurd rfl h
  | cons w ws => exact ⟨w, ws, rfl⟩

/-- **Reading goes over pipes.** Two lines with a pipe between them are read as the stages of the first and
then those of the second. Whether the whole is completed or left running is what the second line asks for. -/
theorem parse_joined {first second : String} (hfirst : Joinable first) (hsecond : (parse second).head.name ≠ "") :
    (parse (first ++ " | " ++ second)).stages =
      { (parse first).head with needsCompletion := (parse second).needsCompletion } :: (parse first).tail ++
        { (parse second).head with needsCompletion := false } :: (parse second).tail ∧
      (parse (first ++ " | " ++ second)).isBackground = (parse second).isBackground := by
  obtain ⟨w, ws, hws⟩ := exists_words_of_name hsecond
  obtain ⟨v, vs, hvs⟩ := List.exists_cons_of_ne_nil hfirst.ofLine_ne_nil
  have hne : (LineEnd.split second.toList).1 ≠ [] := by
    intro hnil
    rw [hnil] at hws
    cases hws
  obtain ⟨hwords, hmark⟩ := ofLine_split_joined hfirst hne
  have hlast : (v :: vs).getLast? ≠ some Word.pipe := hvs ▸ hfirst.last
  have hjoined : parse (first ++ " | " ++ second) =
      markLast ((LineEnd.split second.toList).2 = .background)
        { (parse first).head with needsCompletion := (LineEnd.split second.toList).2 = .completion }
        ((parse first).tail ++ (ofWords (w :: ws)).stages) := by
    rw [parse_eq_markLast, hwords, hmark, hws, hvs, ofWords_append_pipe hlast, hfirst.parse_eq, hvs]
  have hunasked : (ofWords (w :: ws)).head.needsCompletion = false := (markless_of_mem List.mem_cons_self).2
  rw [hjoined, parse_eq_markLast second, hws, isBackground_markLast, isBackground_markLast]
  exact ⟨markLast_joined _ _ _ _ hunasked _, rfl⟩

/-- A quoted pipe and a redirect without a target in front of the pipe, a mark behind the second line. -/
theorem parse_joined_dangling : Joinable "cat 'a | b' >" ∧ (parse " wc -l &").head.name ≠ "" ∧
    (parse ("cat 'a | b' >" ++ " | " ++ " wc -l &")).stages =
      [{ name := "cat", arguments := ["a | b"], output := some ⟨.truncate, ""⟩ },
        { name := "wc", arguments := ["-l"], background := true }] ∧
    (parse ("cat 'a | b' >" ++ " | " ++ " wc -l &")).isBackground = true := by
  have hfirst : Joinable "cat 'a | b' >" := by decide +kernel
  have hsecond : (parse " wc -l &").head.name ≠ "" := by decide +kernel
  obtain ⟨hstages, hbackground⟩ := parse_joined hfirst hsecond
  exact ⟨hfirst, hsecond, hstages.trans (by decide +kernel), hbackground.trans (by decide +kernel)⟩

end Pipeline

end LineShell
