import LineShell.Proofs.Pipeline.Joined

/-!
# How a text falls into words

A word is made of plain characters and quoted parts (`Word.Whole`); the last one may end in a quote that is
never closed (`Word.Unfinished`). A text is such words with blanks around them, and something between any
two of them (`Word.Parts`). Every text can be taken apart like that, in one way only: the words that are read
are the words of any such parts, whichever way they were found (`ofLine_eq_iff_parts`).
-/

namespace LineShell.Word

variable {text lead : List Char} {w : Word} {q : Char} {parts : List (Word × List Char)}

/-! ## Quotes in a word -/

/-- A text whose blanks all stand in quotes, and whose quotes are all closed. A quoted part goes up to the
next quote of its own kind; the other kind means nothing in it. -/
inductive Whole : List Char → Prop where
  | nil : Whole []
  | plain {c : Char} {text : List Char} (hblank : isBlank c = false) (hquote : isQuote c = false)
    (htext : Whole text) : Whole (c :: text)
  | quoted {q : Char} {body text : List Char} (hquote : isQuote q) (hbody : q ∉ body)
    (htext : Whole text) : Whole (q :: (body ++ q :: text))

/-- A text of that kind, and behind it a quote that is never closed. -/
inductive Unfinished : List Char → Prop where
  | open {front body : List Char} {q : Char} (hfront : Whole front) (hquote : isQuote q) (hbody : q ∉ body) :
    Unfinished (front ++ q :: body)

theorem isBlank_of_isQuote (h : isQuote q) : isBlank q = false := by
  rcases (by simpa [isQuote] using h : q = '\x22' ∨ q = '\x27') with rfl | rfl <;> rfl

theorem run_cons_quote (h : isQuote q) (text : List Char) : run none (q :: text) = run (some q) text := by
  simp only [run, quoteAfter, isBlank_of_isQuote h, h, Bool.false_eq_true, and_false, if_false, if_true]

theorem run_some_self (q : Char) (text : List Char) : run (some q) (q :: text) = run none text := by
  simp [run, quoteAfter]

theorem Whole.run_eq (h : Whole w) : run none w = some none := by
  induction h with
  | nil => rfl
  | plain hblank hquote _ ih => simpa [run, quoteAfter, hblank, hquote] using ih
  | quoted hquote hbody _ ih => rw [run_cons_quote hquote, run_append (run_quoted hbody), run_some_self, ih]

theorem Unfinished.exists_run (h : Unfinished w) : ∃ q, isQuote q ∧ run none w = some (some q) := by
  obtain ⟨hfront, hquote, hbody⟩ := h
  exact ⟨_, hquote, by rw [run_append hfront.run_eq, run_cons_quote hquote, run_quoted hbody]⟩

/-- An open quote is closed by the next one of its kind, or not at all. -/
theorem run_some_cases (q : Char) (text : List Char) :
    q ∉ text ∨ ∃ body rest, text = body ++ q :: rest ∧ q ∉ body ∧ run (some q) text = run none rest := by
  by_cases hq : q ∈ text
  · obtain ⟨body, rest, rfl, hbody⟩ := List.eq_append_cons_of_mem hq
    exact .inr ⟨body, rest, rfl, hbody, by rw [run_append (run_quoted hbody), run_some_self]⟩
  · exact .inl hq

/-- A text without an unquoted blank is whole, or would be if its last quote were closed. -/
theorem whole_or_unfinished {state : Option Char} (h : run none w = some state) :
    Whole w ∧ state = none ∨ Unfinished w ∧ state ≠ none := by
  induction hlength : w.length using Nat.strongRecOn generalizing w with
  | ind n ih =>
    subst hlength
    cases w with
    | nil =>
      cases h
      exact .inl ⟨.nil, rfl⟩
    | cons c text =>
      by_cases hquote : isQuote c
      · rw [run_cons_quote hquote] at h
        rcases run_some_cases c text with hopen | ⟨body, rest, rfl, hbody, hrest⟩
        · rw [run_quoted hopen] at h
          cases h
          exact .inr ⟨.open .nil hquote hopen, by simp⟩
        · rw [hrest] at h
          rcases ih _ (by simp only [List.length_cons, List.length_append]; omega) h rfl with ⟨hwhole, hstate⟩ |
            ⟨⟨hfront, hquote', hbody'⟩, hstate⟩
          · exact .inl ⟨.quoted hquote hbody hwhole, hstate⟩
          · refine .inr ⟨?_, hstate⟩
            have := Unfinished.open (.quoted hquote hbody hfront) hquote' hbody'
            simpa using this
      · have hblank : isBlank c = false := by
          by_contra hblank
          simp [run, hblank] at h
        have hplain : run none text = some state := by
          simpa [run, quoteAfter, hblank, hquote] using h
        rcases ih _ (Nat.lt_succ_self _) hplain rfl with ⟨hwhole, hstate⟩ | ⟨⟨hfront, hquote', hbody'⟩, hstate⟩
        · exact .inl ⟨.plain hblank (by simpa using hquote) hwhole, hstate⟩
        · exact .inr ⟨.open (.plain hblank (by simpa using hquote) hfront) hquote' hbody', hstate⟩

/-! ## Words and gaps -/

/-- A text as blanks in front, and words each of which has its gap behind it. -/
structure Parts (text lead : List Char) (parts : List (Word × List Char)) : Prop where
  /-- No character is lost, doubled or moved. -/
  text : text = lead ++ parts.flatMap fun p => p.1 ++ p.2
  lead : ∀ c ∈ lead, isBlank c
  gaps : ∀ p ∈ parts, ∀ c ∈ p.2, isBlank c
  between : ∀ p ∈ parts.dropLast, p.2 ≠ []
  begins : ∀ p ∈ parts, ∃ c, p.1.head? = some c ∧ isBlank c = false
  whole : ∀ p ∈ parts.dropLast, Whole p.1
  /-- An open quote runs to the end of the text. -/
  last : ∀ p ∈ parts.getLast?, Whole p.1 ∨ Unfinished p.1 ∧ p.2 = []

/-- A whole word in front of blanks is the first word. -/
theorem ofLine_whole_append {gap : List Char} (hw : Whole w) (hne : w ≠ []) (hgap : ∀ c ∈ gap, isBlank c)
    (hbetween : gap ≠ []) (rest : List Char) : ofLine (w ++ gap ++ rest) = w :: ofLine rest := by
  obtain ⟨b, bs, rfl⟩ := List.exists_cons_of_ne_nil hbetween
  obtain ⟨hb, hbs⟩ := List.forall_mem_cons.1 hgap
  rw [List.append_assoc, List.cons_append, ofLine_append ⟨hne, hw.run_eq⟩ hb, ofLine_blanks_append hbs]

theorem ne_nil_of_head? (h : ∃ c, w.head? = some c ∧ isBlank c = false) : w ≠ [] := by
  rintro rfl
  obtain ⟨c, hc, -⟩ := h
  cases hc

/-- The words that are read are those of the parts. -/
theorem Parts.ofLine_eq (h : Parts text lead parts) : ofLine text = parts.map Prod.fst := by
  rw [h.text, ofLine_blanks_append h.lead]
  obtain ⟨-, -, hgaps, hbetween, hbegins, hwhole, hlast⟩ := h
  induction parts with
  | nil => rfl
  | cons p parts ih =>
    obtain ⟨w, gap⟩ := p
    have hne : w ≠ [] := ne_nil_of_head? (hbegins _ List.mem_cons_self)
    have hgap := hgaps _ List.mem_cons_self
    cases parts with
    | nil =>
      rw [List.flatMap_cons, List.flatMap_nil, List.append_nil]
      rcases hlast _ rfl with hw | ⟨hw, rfl⟩
      · by_cases hnone : gap = []
        · subst hnone
          rw [List.append_nil]
          exact ofLine_of_run hne hw.run_eq
        · have hword := ofLine_whole_append hw hne hgap hnone []
          rw [List.append_nil] at hword
          exact hword
      · obtain ⟨q, -, hq⟩ := hw.exists_run
        rw [List.append_nil]
        exact ofLine_of_run hne hq
    | cons next parts =>
      rw [List.dropLast_cons_cons] at hbetween hwhole
      obtain ⟨hbehind, hbetween⟩ := List.forall_mem_cons.1 hbetween
      obtain ⟨hw, hwhole⟩ := List.forall_mem_cons.1 hwhole
      rw [List.flatMap_cons, ofLine_whole_append hw hne hgap hbehind, List.map_cons,
        ih (fun p hp => hgaps p (List.mem_cons_of_mem _ hp)) hbetween
          (fun p hp => hbegins p (List.mem_cons_of_mem _ hp)) hwhole fun p hp => hlast p (by simpa using hp)]

theorem forall_mem_dropLast_cons {α : Type} {P : α → Prop} {x : α} {xs : List α} (hx : P x)
    (h : ∀ y ∈ xs.dropLast, P y) : ∀ y ∈ (x :: xs).dropLast, P y := by
  cases xs with
  | nil => simp
  | cons next xs =>
    rw [List.dropLast_cons_cons]
    exact List.forall_mem_cons.2 ⟨hx, h⟩

/-- Blanks, a whole word and a blank in front of a text that is taken apart. -/
theorem Parts.cons {b : Char} {front behind : List Char} (h : Parts behind front parts)
    (hlead : ∀ c ∈ lead, isBlank c) (hw : Whole w) (hbegins : ∃ c, w.head? = some c ∧ isBlank c = false)
    (hb : isBlank b) : Parts (lead ++ (w ++ b :: behind)) lead ((w, b :: front) :: parts) where
  text := by
    rw [List.flatMap_cons]
    conv_lhs => rw [h.text]
    simp
  lead := hlead
  gaps := List.forall_mem_cons.2 ⟨List.forall_mem_cons.2 ⟨hb, h.lead⟩, h.gaps⟩
  between := forall_mem_dropLast_cons (by simp) h.between
  begins := List.forall_mem_cons.2 ⟨hbegins, h.begins⟩
  whole := forall_mem_dropLast_cons hw h.whole
  last := by
    cases parts with
    | nil => simp [hw]
    | cons next parts => simpa using h.last

/-- A text that is one word behind blanks. -/
theorem Parts.word (hlead : ∀ c ∈ lead, isBlank c) (hw : Whole w ∨ Unfinished w)
    (hbegins : ∃ c, w.head? = some c ∧ isBlank c = false) : Parts (lead ++ w) lead [(w, [])] where
  text := by simp
  lead := hlead
  gaps := by simp
  between := by simp
  begins := by simpa using hbegins
  whole := by simp
  last := by simpa using hw

/-- Either there is an unquoted blank in a text, or there is none. -/
theorem run_or_blank (state : Option Char) (text : List Char) : (∃ state', run state text = some state') ∨
    ∃ w b rest, text = w ++ b :: rest ∧ run state w = some none ∧ isBlank b := by
  induction text generalizing state with
  | nil => exact .inl ⟨state, rfl⟩
  | cons c text ih =>
    by_cases hcut : state = none ∧ isBlank c
    · obtain ⟨rfl, hblank⟩ := hcut
      exact .inr ⟨[], c, text, rfl, rfl, hblank⟩
    · rcases ih (quoteAfter state c) with ⟨state', hrun⟩ | ⟨w, b, rest, rfl, hrun, hblank⟩
      · exact .inl ⟨state', by rw [run, if_neg hcut, hrun]⟩
      · exact .inr ⟨c :: w, b, rest, rfl, by rw [run, if_neg hcut, hrun], hblank⟩

/-- Every text can be taken apart: behind its first blanks stands its last word, or a whole word with a
blank behind it. -/
theorem exists_parts (text : List Char) : ∃ lead parts, Parts text lead parts := by
  induction hlength : text.length using Nat.strongRecOn generalizing text with
  | ind n ih =>
    subst hlength
    have hlead : ∀ c ∈ text.takeWhile isBlank, isBlank c := fun c hc => List.mem_takeWhile_imp hc
    have htext : text.takeWhile isBlank ++ text.dropWhile isBlank = text := List.takeWhile_append_dropWhile
    have hhead := List.head?_dropWhile_not isBlank text
    generalize text.takeWhile isBlank = lead at hlead htext
    generalize text.dropWhile isBlank = rest at htext hhead
    subst htext
    cases rest with
    | nil => exact ⟨lead, [], ⟨by simp, hlead, by simp, by simp, by simp, by simp, by simp⟩⟩
    | cons c rest =>
      have hc : isBlank c = false := by simpa using hhead
      rcases run_or_blank none (c :: rest) with ⟨state, hrun⟩ | ⟨w, b, behind, heq, hrun, hb⟩
      · have hword := (whole_or_unfinished hrun).imp And.left And.left
        exact ⟨lead, _, Parts.word hlead hword ⟨c, rfl, hc⟩⟩
      · have hbegins : ∃ a, w.head? = some a ∧ isBlank a = false := by
          cases w with
          | nil =>
            obtain ⟨rfl, -⟩ := List.cons.inj heq
            rw [hc] at hb
            cases hb
          | cons a w =>
            obtain ⟨rfl, -⟩ := List.cons.inj heq
            exact ⟨c, rfl, hc⟩
        have hw : Whole w := by
          rcases whole_or_unfinished hrun with ⟨hw, -⟩ | ⟨-, hopen⟩
          · exact hw
          · exact absurd rfl hopen
        have hshorter : behind.length < (lead ++ c :: rest).length := by
          rw [heq, List.length_append, List.length_append, List.length_cons]
          omega
        obtain ⟨front, parts, hparts⟩ := ih behind.length hshorter behind rfl
        rw [heq]
        exact ⟨lead, _, hparts.cons hlead hw hbegins hb⟩

/-- The words that are read come with the blanks around them. -/
theorem parts_of_ofLine (text : List Char) : ∃ lead parts, Parts text lead parts ∧ ofLine text = parts.map Prod.fst := by
  obtain ⟨lead, parts, hparts⟩ := exists_parts text
  exact ⟨lead, parts, hparts, hparts.ofLine_eq⟩

/-- **The words of a text.** They are the one list of words that the text consists of: with blanks in front,
between and behind, each word whole, but for the last, whose quote may run to the end of the text. -/
theorem ofLine_eq_iff_parts (text : List Char) (words : List Word) :
    ofLine text = words ↔ ∃ lead parts, Parts text lead parts ∧ words = parts.map Prod.fst := by
  constructor
  · rintro rfl
    exact parts_of_ofLine text
  · rintro ⟨lead, parts, hparts, rfl⟩
    exact hparts.ofLine_eq

example : ofLine " a\"b c\"d\t 'it\" s".toList = ["a\"b c\"d".toList, "'it\" s".toList] := by decide

end LineShell.Word
