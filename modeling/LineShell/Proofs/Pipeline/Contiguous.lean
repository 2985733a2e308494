import LineShell.Proofs.Pipeline.Characters

/-!
# Pieces of a line

Whatever the reader puts into a stage stands in the line as one piece: words are cut out of it, and lose characters at
their ends only (`contiguous_of_mem_parse`).
-/

namespace LineShell

variable {text : List Char}

theorem trim_isInfix (text : List Char) : trim text <:+: text := by
  obtain ⟨front, back, htext, -, -⟩ := exists_trim text
  exact ⟨front, back, htext.symm⟩

theorem LineEnd.split_isInfix (text : List Char) : (split text).1 <:+: text := by
  have hdrop : trim (trim text).dropLast <:+: text :=
    (trim_isInfix _).trans ((List.dropLast_prefix _).isInfix.trans (trim_isInfix text))
  unfold split
  dsimp only
  split
  · exact hdrop
  split
  · exact hdrop
  · exact trim_isInfix text

namespace Word

theorem infix_of_mem_cut (quote : Option Char) (text : List Char) :
    (cut quote text).1 <+: text ∧ ∀ w ∈ (cut quote text).2, w <:+: text := by
  induction text generalizing quote with
  | nil => exact ⟨List.prefix_rfl, by simp [cut]⟩
  | cons c text ih =>
    rw [cut]
    split
    · obtain ⟨hfirst, hmore⟩ := ih none
      exact ⟨List.nil_prefix,
        List.forall_mem_cons.2 ⟨List.infix_cons hfirst.isInfix, fun w hw => List.infix_cons (hmore w hw)⟩⟩
    · obtain ⟨hfirst, hmore⟩ := ih (quoteAfter quote c)
      exact ⟨List.cons_prefix_cons.2 ⟨rfl, hfirst⟩, fun w hw => List.infix_cons (hmore w hw)⟩

theorem infix_of_mem_ofLine {w : Word} (h : w ∈ ofLine text) : w <:+: text := by
  obtain ⟨hfirst, hmore⟩ := infix_of_mem_cut none text
  unfold ofLine at h
  rcases List.mem_cons.1 (List.mem_of_mem_filter h) with rfl | hw
  · exact hfirst.isInfix
  · exact hmore w hw

theorem unquote_isInfix (w : Word) : unquote w <:+: w := by
  unfold unquote
  split
  · exact List.infix_rfl
  · split
    · exact (List.dropLast_prefix _).isInfix.trans (List.infix_cons List.infix_rfl)
    · exact List.infix_rfl

theorem suffix_of_redirect? {w target : Word} {d : Direction} (h : redirect? w = some (d, target)) : target <:+ w := by
  unfold redirect? at h
  split at h
  · cases h
    exact ⟨['>', '>'], rfl⟩
  · cases h
    exact List.suffix_cons _ _
  · cases h
    exact List.suffix_cons _ _
  · cases h

/-- Groups are made of the words. -/
theorem forall_groupsAfter {P : Word → Prop} {ws : List Word} (h : ∀ w ∈ ws, P w) :
    (∀ w ∈ (groupsAfter ws).1, P w) ∧ ∀ g ∈ (groupsAfter ws).2, P g.1 ∧ ∀ w ∈ g.2, P w := by
  fun_induction groupsAfter ws with
  | case1 => simp
  | case2 => simp
  | case3 name rest group more heq ih =>
    obtain ⟨hname, hrest⟩ := List.forall_mem_cons.1 (List.forall_mem_cons.1 h).2
    rw [heq] at ih
    exact ⟨by simp, List.forall_mem_cons.2 ⟨⟨hname, (ih hrest).1⟩, (ih hrest).2⟩⟩
  | case4 w ws hw group more heq ih =>
    obtain ⟨hw, hws⟩ := List.forall_mem_cons.1 h
    rw [heq] at ih
    exact ⟨List.forall_mem_cons.2 ⟨hw, (ih hws).1⟩, (ih hws).2⟩

end Word

/-- Name, arguments and targets of a stage are pieces of a text. -/
structure Stage.Contiguous (text : List Char) (s : Stage) : Prop where
  name : s.name.toList <:+: text
  arguments : ∀ a ∈ s.arguments, a.toList <:+: text
  input : ∀ path ∈ s.input, path.toList <:+: text
  output : ∀ o ∈ s.output, o.target.toList <:+: text

namespace Stage.Contiguous

variable {s : Stage} {w : Word}

theorem redirect (h : s.Contiguous text) (d : Direction) (hw : w <:+: text) : (s.redirect d w).Contiguous text := by
  have htarget : (String.ofList (Word.unquote w)).toList <:+: text := by
    rw [String.toList_ofList]
    exact (Word.unquote_isInfix w).trans hw
  cases d with
  | input =>
    refine ⟨h.name, h.arguments, fun path hpath => ?_, h.output⟩
    rcases Option.or_eq_some_iff.1 hpath with hpath | ⟨-, hpath⟩
    · exact h.input path hpath
    · cases hpath
      exact htarget
  | output mode =>
    refine ⟨h.name, h.arguments, h.input, fun o ho => ?_⟩
    rcases Option.or_eq_some_iff.1 ho with ho | ⟨-, ho⟩
    · exact h.output o ho
    · cases ho
      exact htarget

theorem argument (h : s.Contiguous text) (hw : w <:+: text) : (s.argument w).Contiguous text := by
  refine ⟨h.name, List.forall_mem_append.2 ⟨h.arguments, List.forall_mem_singleton.2 ?_⟩, h.input, h.output⟩
  rw [String.toList_ofList]
  exact (Word.unquote_isInfix w).trans hw

theorem addWords {ws : List Word} (h : s.Contiguous text) (hws : ∀ w ∈ ws, w <:+: text) :
    (s.addWords ws).Contiguous text := by
  fun_induction Stage.addWords s ws with
  | case1 => exact h
  | case2 s ws ih => exact ih h fun w hw => hws w (List.mem_cons_of_mem _ hw)
  | case3 s w ws _ _ ih =>
    obtain ⟨hw, hws⟩ := List.forall_mem_cons.1 hws
    exact ih (h.argument hw) hws
  | case4 s w _ d _ => exact h.redirect d List.nil_infix
  | case5 s w _ d _ rest ih =>
    exact ih (h.redirect d List.nil_infix) fun w hw => hws w (List.mem_cons_of_mem _ hw)
  | case6 s w _ d _ next rest _ ih =>
    obtain ⟨-, hws⟩ := List.forall_mem_cons.1 hws
    obtain ⟨hnext, hrest⟩ := List.forall_mem_cons.1 hws
    exact ih (h.redirect d hnext) hrest
  | case7 s w ws _ d target _ hsign ih =>
    obtain ⟨hw, hws⟩ := List.forall_mem_cons.1 hws
    exact ih (h.redirect d ((Word.suffix_of_redirect? hsign).isInfix.trans hw)) hws

theorem ofWords {name : Word} {ws : List Word} (hname : name <:+: text) (hws : ∀ w ∈ ws, w <:+: text) :
    (Stage.ofWords name ws).Contiguous text := by
  refine addWords ⟨?_, by simp, by simp, by simp⟩ hws
  rwa [String.toList_ofList]

end Stage.Contiguous

namespace Pipeline

theorem contiguous_ofWords {ws : List Word} (hws : ∀ w ∈ ws, w <:+: text) :
    ∀ s ∈ (ofWords ws).stages, s.Contiguous text := by
  cases ws with
  | nil =>
    intro s hs
    obtain rfl : s = {} := by simpa [ofWords, single, stages] using hs
    exact ⟨List.nil_infix, by simp, by simp, by simp⟩
  | cons name ws =>
    obtain ⟨hname, hws⟩ := List.forall_mem_cons.1 hws
    obtain ⟨hgroup, hmore⟩ := Word.forall_groupsAfter hws
    refine List.forall_mem_cons.2 ⟨.ofWords hname hgroup, fun s hs => ?_⟩
    obtain ⟨g, hg, rfl⟩ := List.mem_map.1 hs
    exact .ofWords (hmore g hg).1 (hmore g hg).2

/-- Every name, argument and target of what is read is a piece of the line. -/
theorem contiguous_of_mem_parse (line : String) : ∀ s ∈ (parse line).stages, s.Contiguous line.toList := by
  have hwords : ∀ w ∈ Word.ofLine (LineEnd.split line.toList).1, w <:+: line.toList :=
    fun w hw => (Word.infix_of_mem_ofLine hw).trans (LineEnd.split_isInfix _)
  intro s hs
  have hstage := contiguous_ofWords hwords s.unmarked (unmarked_mem_of_mem_parse hs)
  exact ⟨hstage.name, hstage.arguments, hstage.input, hstage.output⟩

end Pipeline

end LineShell
