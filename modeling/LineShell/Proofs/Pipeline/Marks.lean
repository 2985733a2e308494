import LineShell.Proofs.Pipeline.Written

/-!
# The marks of a line

Words mark no stage (`Pipeline.markless_of_mem`). What the end of a line asks for is one flag, of the last stage or of
the first one (`Pipeline.parse_eq_flagged`). Flags aside, the stages of a line are those of its words, whatever its end
(`Pipeline.unmarked_stages_parse`).
-/

namespace LineShell

/-! ## Stages without flags -/

namespace Stage

variable {s : Stage}

/-- A stage that says nothing about how its line ends. -/
def Markless (s : Stage) : Prop := s.background = false ∧ s.needsCompletion = false

theorem Markless.redirect (h : s.Markless) (d : Direction) (target : Word) : (s.redirect d target).Markless := by
  cases d <;> exact h

/-- No word marks a stage. -/
theorem Markless.addWords (h : s.Markless) (ws : List Word) : (s.addWords ws).Markless := by
  fun_induction Stage.addWords s ws with
  | case1 => exact h
  | case2 s ws ih => exact ih h
  | case3 s w ws _ _ ih => exact ih h
  | case4 => exact h.redirect _ _
  | case5 s w _ d _ rest ih => exact ih (h.redirect d [])
  | case6 s w _ d _ next rest _ ih => exact ih (h.redirect d next)
  | case7 s w ws _ d target _ _ ih => exact ih (h.redirect d target)

theorem markless_ofWords (name : Word) (ws : List Word) : (ofWords name ws).Markless :=
  Markless.addWords ⟨rfl, rfl⟩ ws

theorem Markless.unmarked_eq (h : s.Markless) : s.unmarked = s := by
  obtain ⟨name, arguments, input, output, background, completion⟩ := s
  obtain ⟨rfl, rfl⟩ := h
  rfl

end Stage

namespace Pipeline

/-- The words of a line mark none of its stages. -/
theorem markless_of_mem {ws : List Word} {s : Stage} (h : s ∈ (ofWords ws).stages) : s.Markless := by
  cases ws with
  | nil =>
    obtain rfl : s = {} := by simpa [ofWords, single, stages] using h
    exact ⟨rfl, rfl⟩
  | cons name ws =>
    simp only [ofWords, stages, List.mem_cons, List.mem_map] at h
    rcases h with rfl | ⟨group, -, rfl⟩
    · exact Stage.markless_ofWords _ _
    · exact Stage.markless_ofWords _ _

/-! ## The flag of the last stage -/

/-- Stages that nothing has marked are not left running. -/
theorem markLast_false {s : Stage} {ss : List Stage} (h : ∀ t ∈ s :: ss, t.background = false) :
    markLast false s ss = ⟨s, ss⟩ := by
  induction ss generalizing s with
  | nil => rw [markLast, ← h s (by simp)]
  | cons t ts ih =>
    rw [markLast, ih fun u hu => h u (List.mem_cons_of_mem s hu)]
    rfl

theorem isBackground_markLast (background : Bool) (s : Stage) (ss : List Stage) :
    (markLast background s ss).isBackground = background := by
  induction ss generalizing s with
  | nil => rfl
  | cons t ts ih =>
    rw [markLast, isBackground, last, stages, List.getLastD_cons]
    exact ih t

theorem getLast?_stages (p : Pipeline) : p.stages.getLast? = some p.last := by
  simp [stages, last, List.getLast?_cons]

theorem dropLast_append_last (p : Pipeline) : p.stages.dropLast ++ [p.last] = p.stages :=
  List.dropLast_append_getLast? p.last p.getLast?_stages

theorem stages_markLast (background : Bool) (s : Stage) (ss : List Stage) :
    (markLast background s ss).stages = (s :: ss).dropLast ++ [{ ss.getLastD s with background }] := by
  induction ss generalizing s with
  | nil => rfl
  | cons t ts ih =>
    rw [List.dropLast_cons_cons, List.getLastD_cons, List.cons_append, ← ih t]
    rfl

/-! ## What the end of a line sets -/

/-- The stages of a line come from its words, the marks from its end. -/
theorem parse_eq_markLast (line : String) : parse line =
    markLast ((LineEnd.split line.toList).2 = .background)
      { (ofWords (Word.ofLine (LineEnd.split line.toList).1)).head with
        needsCompletion := (LineEnd.split line.toList).2 = .completion }
      (ofWords (Word.ofLine (LineEnd.split line.toList).1)).tail := by
  simp only [parse, ofText, setBackground]

/-- The pipeline with the flag that the end of a line sets. -/
def flagged (p : Pipeline) : LineEnd → Pipeline
  | .plain => p
  | .background => p.setBackground true
  | .completion => { p with head := { p.head with needsCompletion := true } }

/-- The end of a line sets its flag, and takes none away. -/
theorem parse_eq_flagged (line : String) : parse line =
    (ofWords (Word.ofLine (LineEnd.split line.toList).1)).flagged (LineEnd.split line.toList).2 := by
  have hmarkless : ∀ s ∈ (ofWords (Word.ofLine (LineEnd.split line.toList).1)).stages, s.Markless :=
    fun _ => markless_of_mem
  rw [parse_eq_markLast]
  generalize ofWords (Word.ofLine (LineEnd.split line.toList).1) = p at hmarkless ⊢
  obtain ⟨s, ss⟩ := p
  have hs : { s with needsCompletion := false } = s := by
    rw [← (hmarkless s List.mem_cons_self).2]
  have hbackground : ∀ t ∈ s :: ss, t.background = false := fun t ht => (hmarkless t ht).1
  cases (LineEnd.split line.toList).2 with
  | plain =>
    simp only [reduceCtorEq, decide_false, hs]
    exact markLast_false hbackground
  | background =>
    simp only [reduceCtorEq, decide_false, decide_true, hs]
    rfl
  | completion =>
    simp only [reduceCtorEq, decide_false, decide_true]
    obtain ⟨hhead, htail⟩ := List.forall_mem_cons.1 hbackground
    exact markLast_false (List.forall_mem_cons.2 ⟨hhead, htail⟩)

theorem stages_flagged_background (p : Pipeline) :
    (p.flagged .background).stages = p.stages.dropLast ++ [{ p.last with background := true }] :=
  stages_markLast true p.head p.tail

theorem unmarked_flagged (p : Pipeline) (e : LineEnd) :
    (p.flagged e).stages.map Stage.unmarked = p.stages.map Stage.unmarked := by
  cases e with
  | plain => rfl
  | background =>
    rw [stages_flagged_background]
    conv_rhs => rw [← p.dropLast_append_last]
    rw [List.map_append, List.map_append]
    rfl
  | completion => rfl

/-- Flags aside, the stages of a line come from its words. -/
theorem unmarked_stages_parse (line : String) : (parse line).stages.map Stage.unmarked =
    (ofWords (Word.ofLine (LineEnd.split line.toList).1)).stages := by
  rw [parse_eq_flagged, unmarked_flagged]
  exact (List.map_congr_left fun s hs => (markless_of_mem hs).unmarked_eq).trans (List.map_id _)

theorem unmarked_mem_of_mem_parse {line : String} {s : Stage} (h : s ∈ (parse line).stages) :
    s.unmarked ∈ (ofWords (Word.ofLine (LineEnd.split line.toList).1)).stages := by
  rw [← unmarked_stages_parse]
  exact List.mem_map_of_mem h

theorem unmarked_last_parse (line : String) : (parse line).last.unmarked =
    (ofWords (Word.ofLine (LineEnd.split line.toList).1)).last := by
  have hlast := congrArg List.getLast? (unmarked_stages_parse line)
  rw [List.getLast?_map, getLast?_stages, getLast?_stages] at hlast
  exact Option.some.inj hlast

end Pipeline

end LineShell
