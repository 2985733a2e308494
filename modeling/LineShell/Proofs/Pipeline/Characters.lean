import LineShell.Proofs.Pipeline.Joined

/-!
# Characters of a line

Reading a line makes up no characters: those of the arguments of the first stage are characters of the line
(`mem_of_mem_arguments`), and if they are joined with blanks, nothing but blanks comes in.
-/

namespace LineShell

variable {c : Char} {text : List Char}

theorem mem_of_mem_trim (h : c ∈ trim text) : c ∈ text := by
  obtain ⟨front, back, htext, -, -⟩ := exists_trim text
  rw [htext]
  exact List.mem_append_left _ (List.mem_append_right _ h)

theorem LineEnd.mem_of_mem_split (h : c ∈ (split text).1) : c ∈ text := by
  unfold split at h
  dsimp only at h
  split at h
  · exact mem_of_mem_trim (List.dropLast_subset _ (mem_of_mem_trim h))
  split at h
  · exact mem_of_mem_trim (List.dropLast_subset _ (mem_of_mem_trim h))
  · exact mem_of_mem_trim h

namespace Word

variable {quote : Option Char} {w : Word}

theorem mem_of_mem_cut (h : w ∈ (cut quote text).1 :: (cut quote text).2) (hc : c ∈ w) : c ∈ text := by
  induction text generalizing quote w with
  | nil =>
    obtain rfl : w = [] := by simpa [cut] using h
    cases hc
  | cons d text ih =>
    rw [cut] at h
    split at h
    · rcases List.mem_cons.1 h with rfl | h
      · cases hc
      · exact List.mem_cons_of_mem _ (ih h hc)
    · rcases List.mem_cons.1 h with rfl | h
      · rcases List.mem_cons.1 hc with rfl | hc
        · exact List.mem_cons_self
        · exact List.mem_cons_of_mem _ (ih List.mem_cons_self hc)
      · exact List.mem_cons_of_mem _ (ih (List.mem_cons_of_mem _ h) hc)

theorem mem_of_mem_ofLine (h : w ∈ ofLine text) (hc : c ∈ w) : c ∈ text := by
  simp only [ofLine] at h
  exact mem_of_mem_cut (List.mem_of_mem_filter h) hc

theorem mem_of_mem_unquote (h : c ∈ unquote w) : c ∈ w := by
  unfold unquote at h
  split at h
  · exact h
  split at h
  · exact List.mem_cons_of_mem _ (List.dropLast_subset _ h)
  · exact h

/-- The first group goes up to the first pipe. -/
theorem groupsAfter_fst (ws : List Word) : (groupsAfter ws).1 = ws.takeWhile (· ≠ pipe) := by
  induction ws with
  | nil => rfl
  | cons w ws ih =>
    by_cases hw : w = pipe
    · subst hw
      cases ws <;> simp [groupsAfter]
    · rw [groupsAfter_cons hw, List.takeWhile_cons_of_pos (by simpa using hw), ih]

end Word

namespace Stage

variable {s : Stage}

theorem arguments_redirect (s : Stage) (d : Direction) (target : Word) :
    (s.redirect d target).arguments = s.arguments := by
  cases d <;> rfl

/-- An argument is a word without its quotes. -/
theorem forall_arguments_addWords (P : String → Prop) {ws : List Word} (hs : ∀ a ∈ s.arguments, P a)
    (hws : ∀ w ∈ ws, P (String.ofList (Word.unquote w))) : ∀ a ∈ (s.addWords ws).arguments, P a := by
  fun_induction addWords s ws with
  | case1 => exact hs
  | case2 s ws ih => exact ih hs fun w hw => hws w (List.mem_cons_of_mem _ hw)
  | case3 s w ws _ _ ih =>
    obtain ⟨hw, hws⟩ := List.forall_mem_cons.1 hws
    exact ih (List.forall_mem_append.2 ⟨hs, List.forall_mem_singleton.2 hw⟩) hws
  | case4 s w _ d _ => rwa [arguments_redirect]
  | case5 s w _ d _ rest ih =>
    exact ih (by rwa [arguments_redirect]) fun w hw => hws w (List.mem_cons_of_mem _ hw)
  | case6 s w _ d _ next rest _ ih =>
    exact ih (by rwa [arguments_redirect]) fun w hw => hws w (List.mem_cons_of_mem _ (List.mem_cons_of_mem _ hw))
  | case7 s w ws _ d target _ _ ih =>
    exact ih (by rwa [arguments_redirect]) fun w hw => hws w (List.mem_cons_of_mem _ hw)

end Stage

namespace Pipeline

theorem head_arguments_markLast (background : Bool) (s : Stage) (ss : List Stage) :
    (markLast background s ss).head.arguments = s.arguments := by
  cases ss <;> rfl

/-- The arguments of the first stage are made of characters of the line. -/
theorem mem_of_mem_arguments {line a : String} (ha : a ∈ (parse line).head.arguments) (hc : c ∈ a.toList) :
    c ∈ line.toList := by
  rw [parse_eq_markLast, head_arguments_markLast] at ha
  cases hwords : Word.ofLine (LineEnd.split line.toList).1 with
  | nil =>
    rw [hwords] at ha
    cases ha
  | cons name ws =>
    rw [hwords] at ha
    have hall : ∀ w ∈ (Word.groupsAfter ws).1, ∀ c ∈ (String.ofList (Word.unquote w)).toList, c ∈ line.toList := by
      intro w hw c hc
      rw [Word.groupsAfter_fst] at hw
      rw [String.toList_ofList] at hc
      have hword : w ∈ Word.ofLine (LineEnd.split line.toList).1 := by
        rw [hwords]
        exact List.mem_cons_of_mem _ ((List.takeWhile_prefix _).subset hw)
      exact LineEnd.mem_of_mem_split (Word.mem_of_mem_ofLine hword (Word.mem_of_mem_unquote hc))
    exact Stage.forall_arguments_addWords (fun a => ∀ c ∈ a.toList, c ∈ line.toList) (by simp) hall a ha c hc

end Pipeline

/-- Texts that are joined hold no more than the texts and what is between them. -/
theorem mem_intercalate {sep : String} {texts : List String} (h : c ∈ (sep.intercalate texts).toList) :
    c ∈ sep.toList ∨ ∃ text ∈ texts, c ∈ text.toList := by
  rw [String.toList_intercalate] at h
  induction texts with
  | nil => cases h
  | cons text texts ih =>
    cases texts with
    | nil => exact Or.inr ⟨text, List.mem_cons_self, by simpa using h⟩
    | cons next texts =>
      rw [List.map_cons, List.map_cons, List.intercalate_cons_cons, List.mem_append, List.mem_append] at h
      rcases h with (h | h) | h
      · exact Or.inr ⟨text, List.mem_cons_self, h⟩
      · exact Or.inl h
      · rw [List.map_cons] at ih
        exact (ih h).imp_right fun ⟨text', htext, hc⟩ => ⟨text', List.mem_cons_of_mem _ htext, hc⟩

end LineShell
