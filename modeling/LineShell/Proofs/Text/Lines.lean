import LineShell.Text.Lines
import Mathlib.Data.List.DropRight

/-!
# Lines of a text that grows

A text is made of complete lines and, maybe, one that is not ended (`exists_complete`). What is added behind
complete lines is read as if it stood alone (`lines_append`); behind a line that is not ended it is read as
the rest of that line.
-/

namespace LineShell.Text

variable {sep : Char} {line front text : List Char}

/-! ## Fields -/

theorem splitAt?_of_not_mem (h : sep ∉ text) : splitAt? sep text = none := by
  induction text with
  | nil => rfl
  | cons c text ih =>
    rw [List.mem_cons, not_or] at h
    rw [splitAt?, if_neg (Ne.symm h.1), ih h.2]
    rfl

/-- The first separator counts. -/
theorem splitAt?_append (h : sep ∉ front) (text : List Char) :
    splitAt? sep (front ++ sep :: text) = some (front, text) := by
  induction front with
  | nil => rw [List.nil_append, splitAt?, if_pos rfl]
  | cons c front ih =>
    rw [List.mem_cons, not_or] at h
    rw [List.cons_append, splitAt?, if_neg (Ne.symm h.1), ih h.2]
    rfl

theorem splitAt?_eq_some {behind : List Char} (h : splitAt? sep text = some (front, behind)) :
    text = front ++ sep :: behind := by
  by_cases hsep : sep ∈ text
  · obtain ⟨before, after, rfl, hbefore⟩ := List.eq_append_cons_of_mem hsep
    rw [splitAt?_append hbefore] at h
    cases h
    rfl
  · rw [splitAt?_of_not_mem hsep] at h
    cases h

/-! ## Complete lines -/

/-- Every line of the text is ended. -/
def Complete (text : List Char) : Prop := ∀ c ∈ text.getLast?, c = '\n'

instance (text : List Char) : Decidable (Complete text) :=
  decidable_of_iff (text.getLast?.all (· = '\n') = true) (by simp [Complete, Option.all_eq_true])

theorem complete_nil : Complete [] := by simp [Complete]

theorem complete_concat (text : List Char) : Complete (text ++ ['\n']) := by simp [Complete]

/-- The line that is not ended, without what is in front of it. -/
def openLine (text : List Char) : List Char := text.rtakeWhile (· ≠ '\n')

theorem not_mem_openLine (text : List Char) : '\n' ∉ openLine text := by
  intro h
  simpa using List.mem_rtakeWhile_imp h

/-- Everything in front of the line that is not ended is complete. -/
theorem exists_complete (text : List Char) : ∃ front, text = front ++ openLine text ∧ Complete front := by
  refine ⟨text.rdropWhile (· ≠ '\n'), List.rdropWhile_append_rtakeWhile.symm, fun c hc => ?_⟩
  obtain ⟨hne, rfl⟩ := List.mem_getLast?_eq_getLast hc
  simpa using List.rdropWhile_last_not (· ≠ '\n') text hne

theorem pieces_ne_nil (h : text ≠ []) : pieces text ≠ [] := by
  cases text with
  | nil => exact absurd rfl h
  | cons c text =>
    rw [pieces]
    split
    · exact List.cons_ne_nil _ _
    · split <;> exact List.cons_ne_nil _ _

theorem pieces_append_cons (front text : List Char) :
    pieces (front ++ '\n' :: text) = pieces (front ++ ['\n']) ++ pieces text := by
  induction front with
  | nil => rfl
  | cons c front ih =>
    by_cases hc : c = '\n'
    · simp [pieces, hc, ih]
    · have hne : front ++ ['\n'] ≠ [] := by simp
      obtain ⟨p, ps, hpieces⟩ := List.exists_cons_of_ne_nil (pieces_ne_nil hne)
      simp [pieces, hc, ih, hpieces]

/-- A text behind complete lines is read on its own. -/
theorem lines_append (h : Complete front) (text : List Char) : lines (front ++ text) = lines front ++ lines text := by
  rcases List.eq_nil_or_concat front with rfl | ⟨init, c, rfl⟩
  · rfl
  · obtain rfl : c = '\n' := h c (by simp)
    rw [lines, List.concat_eq_append, List.append_assoc, List.singleton_append, pieces_append_cons, List.map_append]
    rfl

theorem pieces_of_not_mem (h : '\n' ∉ line) (hne : line ≠ []) : pieces line = [line] := by
  induction line with
  | nil => exact absurd rfl hne
  | cons c line ih =>
    rw [List.mem_cons, not_or] at h
    cases line with
    | nil => simp [pieces, Ne.symm h.1]
    | cons d line => rw [pieces, if_neg (Ne.symm h.1), ih h.2 (by simp)]

/-- A line that is not ended is read as it stands. -/
theorem lines_of_not_mem (h : '\n' ∉ line) : lines line = if line = [] then [] else [line] := by
  by_cases hne : line = []
  · rw [hne]
    rfl
  · have hlast : line.getLast? ≠ some '\n' := fun hlast => h (List.mem_of_getLast? hlast)
    simp [lines, pieces_of_not_mem h hne, withoutEnd, dropLast?, hlast, hne]

/-- A line is read back without its newline, and without one carriage return in front of it. -/
theorem lines_concat_eq (h : '\n' ∉ line) : lines (line ++ ['\n']) = [(dropLast? '\r' line).getD line] := by
  have hpieces : pieces (line ++ ['\n']) = [line ++ ['\n']] := by
    induction line with
    | nil => rfl
    | cons c line ih =>
      rw [List.mem_cons, not_or] at h
      rw [List.cons_append, pieces, if_neg (Ne.symm h.1), ih h.2]
  simp [lines, hpieces, withoutEnd, dropLast?]

/-- A line that does not end in a carriage return is read back without its newline. -/
theorem lines_concat (h : '\n' ∉ line) (hreturn : line.getLast? ≠ some '\r') : lines (line ++ ['\n']) = [line] := by
  rw [lines_concat_eq h, dropLast?, if_neg hreturn, Option.getD_none]

theorem dropLast?_concat (c d : Char) (text : List Char) :
    dropLast? c (text ++ [d]) = if d = c then some text else none := by
  simp [dropLast?]

theorem dropLast?_append_cons {c d : Char} (h : d ≠ c) (front text : List Char) :
    (dropLast? c (front ++ d :: text)).getD (front ++ d :: text) = front ++ d :: (dropLast? c text).getD text := by
  rcases List.eq_nil_or_concat text with rfl | ⟨init, e, rfl⟩
  · rw [dropLast?_concat, if_neg h]
    rfl
  · rw [List.concat_eq_append, ← List.cons_append, ← List.append_assoc, dropLast?_concat, dropLast?_concat]
    split <;> simp

theorem newline_not_mem_of_mem_lines (h : line ∈ lines text) : '\n' ∉ line := by
  have hpieces : ∀ p ∈ pieces text, ∃ init, '\n' ∉ init ∧ (p = init ∨ p = init ++ ['\n']) := by
    clear h
    induction text with
    | nil => simp [pieces]
    | cons c text ih =>
      rw [pieces]
      split
      · next hc => exact List.forall_mem_cons.2 ⟨⟨[], by simp, .inr (by simp [hc])⟩, ih⟩
      · next hc =>
        split
        · simpa using ⟨[c], by simpa using Ne.symm hc, .inl rfl⟩
        · next p ps hps =>
          rw [hps] at ih
          obtain ⟨⟨init, hinit, hp⟩, hrest⟩ := List.forall_mem_cons.1 ih
          refine List.forall_mem_cons.2 ⟨⟨c :: init, by simp [Ne.symm hc, hinit], ?_⟩, hrest⟩
          exact hp.imp (congrArg _) (congrArg _)
  obtain ⟨p, hp, rfl⟩ := List.mem_map.1 h
  obtain ⟨init, hinit, rfl | rfl⟩ := hpieces p hp
  · have hlast : p.getLast? ≠ some '\n' := fun hlast => hinit (List.mem_of_getLast? hlast)
    simpa [withoutEnd, dropLast?, hlast] using hinit
  · simp only [withoutEnd, dropLast?, List.getLast?_concat, if_true, List.dropLast_concat]
    split
    · exact fun hmem => hinit (List.dropLast_subset _ hmem)
    · exact hinit

end LineShell.Text
