import LineShell.Proofs.Pipeline.Written

/-!
# Lines of bare words

A word of neither blanks nor quotes nor signs stands for itself, as a name and as an argument. A line of such
words is one stage (`ofText_bare`).
-/

namespace LineShell

variable {w name : Word} {ws : List Word}

namespace Word

/-- A word without blanks, quotes and signs. -/
structure Bare (w : Word) : Prop where
  ne_nil : w ≠ []
  plain : ∀ c ∈ w, isBlank c = false ∧ isQuote c = false ∧ c ∉ ['|', '&', '?', '<', '>']

instance (w : Word) : Decidable w.Bare :=
  -- along the word, and not along all characters that there are
  let _ := List.decidableBAll (fun c => isBlank c = false ∧ isQuote c = false ∧ c ∉ ['|', '&', '?', '<', '>']) w
  decidable_of_iff (w ≠ [] ∧ ∀ c ∈ w, isBlank c = false ∧ isQuote c = false ∧ c ∉ ['|', '&', '?', '<', '>'])
    ⟨fun h => ⟨h.1, h.2⟩, fun h => ⟨h.ne_nil, h.plain⟩⟩

theorem Bare.closed (h : w.Bare) : w.Closed :=
  ⟨h.ne_nil, run_plain fun c hc => ⟨(h.plain c hc).1, (h.plain c hc).2.1⟩⟩

/-- A bare word is no pipe, no mark and no redirect, and has no quotes to lose. -/
theorem Bare.plainly (h : w.Bare) : w ≠ pipe ∧ w ≠ ampersand ∧ redirect? w = none ∧ unquote w = w := by
  obtain ⟨c, cs, rfl⟩ := List.exists_cons_of_ne_nil h.ne_nil
  obtain ⟨-, hquote, hsign⟩ := h.plain c List.mem_cons_self
  simp only [List.mem_cons, List.not_mem_nil, or_false, not_or] at hsign
  simp [pipe, ampersand, redirect?, unquote, hquote, hsign]

end Word

theorem Stage.addWords_bare (s : Stage) (h : ∀ w ∈ ws, w.Bare) :
    s.addWords ws = { s with arguments := s.arguments ++ ws.map String.ofList } := by
  induction ws generalizing s with
  | nil => simp [addWords]
  | cons w ws ih =>
    obtain ⟨hw, hws⟩ := List.forall_mem_cons.1 h
    obtain ⟨-, hampersand, hredirect, hunquote⟩ := hw.plainly
    rw [addWords.eq_def]
    simp only [hampersand, if_false, hredirect, argument, hunquote]
    rw [ih _ hws]
    simp

namespace Pipeline

theorem ofWords_bare (name : Word) (h : ∀ w ∈ ws, w.Bare) :
    ofWords (name :: ws) = single { name := String.ofList name, arguments := ws.map String.ofList } := by
  have hgroups := Word.groupsAfter_append (fun w hw => (h w hw).plainly.1) []
  rw [List.append_nil] at hgroups
  simp only [ofWords, hgroups, Word.groupsAfter, List.append_nil, List.map_nil, Stage.ofWords, Stage.addWords_bare _ h,
    List.nil_append, single]

/-- A line of bare words begins and ends in no blank, and does not end in a mark. -/
theorem tight_bare (h : ∀ w ∈ name :: ws, w.Bare) : Tight ([' '].intercalate (name :: ws)) ∧
    ∀ c ∈ ([' '].intercalate (name :: ws)).getLast?, c ≠ '?' ∧ c ≠ '&' := by
  have hname := h name List.mem_cons_self
  obtain ⟨a, as, hhead⟩ := List.exists_cons_of_ne_nil hname.ne_nil
  have hlast := getLast?_intercalate [' '] fun w hw => (h w hw).ne_nil
  obtain ⟨w, hw⟩ : ∃ w, (name :: ws).getLast? = some w := ⟨_, List.getLast?_eq_some_getLast (List.cons_ne_nil _ _)⟩
  have hbare := h w (List.mem_of_getLast? hw)
  obtain ⟨b, hb⟩ : ∃ b, w.getLast? = some b := ⟨_, List.getLast?_eq_some_getLast hbare.ne_nil⟩
  obtain ⟨hblank, -, hsign⟩ := hbare.plain b (List.mem_of_getLast? hb)
  have hend : ([' '].intercalate (name :: ws)).getLast? = some b := by rw [hlast, hw]; exact hb
  refine ⟨⟨a, b, ?_, hend, (hname.plain a (by simp [hhead])).1, hblank⟩, fun c hc => ?_⟩
  · rw [hhead, List.intercalate_cons_cons_left]
    rfl
  · rw [hend] at hc
    cases hc
    simp only [List.mem_cons, List.not_mem_nil, or_false, not_or] at hsign
    exact ⟨hsign.2.2.1, hsign.2.1⟩

/-- Bare words are read as a name and arguments, with a mark behind them or without. -/
theorem ofText_bare (h : ∀ w ∈ name :: ws, w.Bare) (background : Bool) :
    ofText ([' '].intercalate (name :: ws) ++ if background then [' ', '&'] else []) =
      single { name := String.ofList name, arguments := ws.map String.ofList, background } := by
  obtain ⟨htight, hend⟩ := tight_bare h
  have hwords := Word.ofLine_intercalate fun w hw => (h w hw).closed
  have hread := ofWords_bare name fun w hw => h w (List.mem_cons_of_mem _ hw)
  cases background with
  | false =>
    rw [if_neg Bool.false_ne_true, List.append_nil, ofText, LineEnd.split_plain htight hend]
    simp only [hwords, hread]
    rfl
  | true =>
    rw [if_pos rfl, ofText, LineEnd.split_mark htight [' ', '&'] '&' rfl (by simp [isBlank]) rfl]
    simp only [hwords, hread, Char.reduceEq, if_false, if_true]
    rfl

end Pipeline

end LineShell
