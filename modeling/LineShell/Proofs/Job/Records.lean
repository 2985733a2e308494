import LineShell.Proofs.Job.Naming
import Mathlib.Data.List.Perm.Basic
import Mathlib.Data.List.Perm.Subperm
import Mathlib.Data.List.Nodup

/-!
# Ended for good

A record of a child that is known to have ended is never changed and never waited for again, and it came
to be so by an answer that ends a wait, the last one that was given for it (`Desk.ended_is_final`). What is
asked for one record leaves the records with other names alone (`Follows.frame`), so that the records of all
jobs follow what is asked for them, however long one goes on (`Desk.run_heeds`).
-/

namespace LineShell

universe u

variable {σ : Type u}

/-! ## What all records hear -/

section Answers

variable {name : Nat} {asked asked' : List Asked}

theorem answersFor_append : answersFor name (asked ++ asked') = answersFor name asked ++ answersFor name asked' := by
  simp [answersFor]

theorem answersFor_eq_nil_iff : answersFor name asked = [] ↔ ∀ e ∈ asked, e.name ≠ name := by
  simp [answersFor]

theorem answersFor_map (name : Nat) (answers : List WaitAnswer) :
    answersFor name (answers.map (Asked.mk name)) = answers := by
  simp [answersFor, List.filter_map, Function.comp_def]

end Answers

/-- What waiting makes of records: each of them has heard its own answers, and is kept unless it has ended.
There are no other records, and nothing is asked for anybody else. -/
structure Follows (cs : List Child) (asked : List Asked) (cs' : List Child) : Prop where
  heard : ∀ c ∈ cs, ∃ c', c.Hears (answersFor c.pid asked) c' ∧
    (c' ∈ cs' ∨ c'.status.state = .terminated ∧ c.pid ∉ cs'.map Child.pid)
  asked_mem : ∀ e ∈ asked, e.name ∈ cs.map Child.pid
  names : (cs'.map Child.pid).Subperm (cs.map Child.pid)

namespace Follows

variable {cs cs' cs'' rest : List Child} {asked asked' : List Asked}

theorem refl (cs : List Child) : Follows cs [] cs where
  heard c hc := ⟨c, .nil c, .inl hc⟩
  asked_mem _ he := absurd he List.not_mem_nil
  names := .refl _

theorem not_asked (h : Follows cs asked cs') {name : Nat} (hname : name ∉ cs.map Child.pid) :
    answersFor name asked = [] :=
  answersFor_eq_nil_iff.2 fun e he heq => hname (heq ▸ h.asked_mem e he)

theorem trans (h : Follows cs asked cs') (h' : Follows cs' asked' cs'') : Follows cs (asked ++ asked') cs'' where
  heard c hc := by
    obtain ⟨c₁, hears, hkept | ⟨hended, hgone⟩⟩ := h.heard c hc
    · obtain ⟨c₂, hears', hlast⟩ := h'.heard c₁ hkept
      rw [hears.pid_eq] at hears' hlast
      exact ⟨c₂, answersFor_append ▸ hears.append hears', hlast⟩
    · -- nothing is asked any more for a record that was dropped
      refine ⟨c₁, ?_, .inr ⟨hended, fun hmem => hgone (h'.names.subset hmem)⟩⟩
      rw [answersFor_append, h'.not_asked hgone, List.append_nil]
      exact hears
  asked_mem e he := by
    rcases List.mem_append.1 he with he | he
    · exact h.asked_mem e he
    · exact h.names.subset (h'.asked_mem e he)
  names := h'.names.trans h.names

theorem perm {ds ds' : List Child} (h : Follows cs asked cs') (hcs : cs.Perm ds) (hcs' : cs'.Perm ds') :
    Follows ds asked ds' where
  heard c hc := by
    obtain ⟨c', hears, hlast⟩ := h.heard c (hcs.mem_iff.2 hc)
    refine ⟨c', hears, ?_⟩
    rwa [← hcs'.mem_iff, ← (hcs'.map Child.pid).mem_iff]
  asked_mem e he := (hcs.map Child.pid).mem_iff.1 (h.asked_mem e he)
  names := ((hcs'.map Child.pid).symm.subperm.trans h.names).trans (hcs.map Child.pid).subperm

/-- Records with other names are left alone. -/
theorem frame (h : Follows cs asked cs') (hnames : ((cs ++ rest).map Child.pid).Nodup) :
    Follows (cs ++ rest) asked (cs' ++ rest) where
  heard c hc := by
    rw [List.map_append, List.nodup_append'] at hnames
    obtain ⟨-, -, hapart⟩ := hnames
    rcases List.mem_append.1 hc with hc | hc
    · obtain ⟨c', hears, hkept | ⟨hended, hgone⟩⟩ := h.heard c hc
      · exact ⟨c', hears, .inl (List.mem_append_left _ hkept)⟩
      · refine ⟨c', hears, .inr ⟨hended, ?_⟩⟩
        rw [List.map_append, List.mem_append, not_or]
        exact ⟨hgone, hapart (List.mem_map_of_mem hc)⟩
    · refine ⟨c, ?_, .inl (List.mem_append_right _ hc)⟩
      rw [h.not_asked fun hmem => hapart hmem (List.mem_map_of_mem hc)]
      exact .nil c
  asked_mem e he := by
    rw [List.map_append, List.mem_append]
    exact .inl (h.asked_mem e he)
  names := by
    rw [List.map_append, List.map_append]
    exact (List.subperm_append_right _).2 h.names

/-- Records that have ended may be dropped. -/
theorem drop (hended : ∀ c ∈ cs, c.status.state = .terminated)
    (hnames : ((cs ++ rest).map Child.pid).Nodup) : Follows (cs ++ rest) [] rest where
  heard c hc := by
    rw [List.map_append, List.nodup_append'] at hnames
    rcases List.mem_append.1 hc with hc | hc
    · exact ⟨c, .nil c, .inr ⟨hended c hc, hnames.2.2 (List.mem_map_of_mem hc)⟩⟩
    · exact ⟨c, .nil c, .inl hc⟩
  asked_mem _ he := absurd he List.not_mem_nil
  names := ((List.sublist_append_right cs rest).map Child.pid).subperm

theorem nodup (h : Follows cs asked cs') (hnames : (cs.map Child.pid).Nodup) : (cs'.map Child.pid).Nodup := by
  obtain ⟨names, hperm, hsublist⟩ := h.names
  exact hperm.nodup_iff.1 (hnames.sublist hsublist)

end Follows

/-- The list of what was asked goes on, and records follow what is new in it. -/
def Heeds (s s' : σ × List Asked) (cs cs' : List Child) : Prop :=
  ∃ asked, s'.2 = s.2 ++ asked ∧ Follows cs asked cs'

namespace Heeds

variable {s s' s'' : σ × List Asked} {cs cs' cs'' ds ds' : List Child}

theorem refl (s : σ × List Asked) (cs : List Child) : Heeds s s cs cs := ⟨[], by simp, .refl cs⟩

theorem trans (h : Heeds s s' cs cs') (h' : Heeds s' s'' cs' cs'') : Heeds s s'' cs cs'' := by
  obtain ⟨asked, hlog, hfollows⟩ := h
  obtain ⟨asked', hlog', hfollows'⟩ := h'
  exact ⟨asked ++ asked', by rw [hlog', hlog, List.append_assoc], hfollows.trans hfollows'⟩

theorem perm (h : Heeds s s' cs cs') (hcs : cs.Perm ds) (hcs' : cs'.Perm ds') : Heeds s s' ds ds' := by
  obtain ⟨asked, hlog, hfollows⟩ := h
  exact ⟨asked, hlog, hfollows.perm hcs hcs'⟩

theorem frame (h : Heeds s s' cs cs') (rest : List Child) (hnames : ((cs ++ rest).map Child.pid).Nodup) :
    Heeds s s' (cs ++ rest) (cs' ++ rest) := by
  obtain ⟨asked, hlog, hfollows⟩ := h
  exact ⟨asked, hlog, hfollows.frame hnames⟩

theorem nodup (h : Heeds s s' cs cs') (hnames : (cs.map Child.pid).Nodup) : (cs'.map Child.pid).Nodup := by
  obtain ⟨asked, -, hfollows⟩ := h
  exact hfollows.nodup hnames

end Heeds

section Steps

variable (w : Waiter σ) (pid : Nat → Pid)

theorem Child.settle_hears (mode : WaitMode) (c : Child) (s : σ × List Asked) (hc : c.status.state = .active) :
    ∃ answers, (c.settle (w.naming pid) mode s).2.2 = s.2 ++ answers.map (Asked.mk c.pid) ∧
      c.Hears answers (c.settle (w.naming pid) mode s).1 := by
  -- along the answers, which run out of patience
  induction hpatience : w.patience s.1 using Nat.strongRecOn generalizing c s with
  | ind n ih =>
    subst hpatience
    rw [settle_eq]
    split
    · next hunsettled =>
      obtain ⟨answers, hlog, hears⟩ := ih _ ((w.naming pid).patience_lt c.pid mode s hunsettled)
        (c.told ((w.naming pid).wait c.pid mode s).1) _ (state_told_of_unsettled hc hunsettled) rfl
      refine ⟨((w.naming pid).wait c.pid mode s).1 :: answers, ?_, .cons hc hears⟩
      rw [hlog, told_pid]
      simp [Waiter.naming]
    · exact ⟨[((w.naming pid).wait c.pid mode s).1], rfl, .cons hc (.nil _)⟩

theorem Child.poll_hears (mode : WaitMode) (c : Child) (s : σ × List Asked) :
    ∃ answers, (c.poll (w.naming pid) mode s).2.2 = s.2 ++ answers.map (Asked.mk c.pid) ∧
      c.Hears answers (c.poll (w.naming pid) mode s).1 := by
  unfold Child.poll
  cases hc : c.status.state with
  | terminated => exact ⟨[], by simp, .nil c⟩
  | active => exact settle_hears w pid mode c s hc

theorem Child.poll_heeds (mode : WaitMode) (c : Child) (s : σ × List Asked) :
    Heeds s (c.poll (w.naming pid) mode s).2 [c] [(c.poll (w.naming pid) mode s).1] := by
  obtain ⟨answers, hlog, hears⟩ := c.poll_hears w pid mode s
  refine ⟨_, hlog, ?_, ?_, ?_⟩
  · intro c₁ hc₁
    obtain rfl := List.mem_singleton.1 hc₁
    exact ⟨_, by rwa [answersFor_map], .inl (List.mem_singleton_self _)⟩
  · simp
  · simp [hears.pid_eq]

theorem Job.pollEach_heeds (mode : WaitMode) (cs : List Child) (s : σ × List Asked)
    (hnames : (cs.map Child.pid).Nodup) :
    Heeds s (pollEach (w.naming pid) mode cs s).2 cs (pollEach (w.naming pid) mode cs s).1 := by
  induction cs generalizing s with
  | nil => exact .refl s []
  | cons c cs ih =>
    have hfirst := (c.poll_heeds w pid mode s).frame cs hnames
    have hlater := (ih (c.poll (w.naming pid) mode s).2 hnames.of_cons).frame
      [(c.poll (w.naming pid) mode s).1]
      (((List.perm_append_singleton _ _).map Child.pid).nodup_iff.2 (hfirst.nodup hnames))
    exact hfirst.trans (hlater.perm (List.perm_append_singleton _ _) (List.perm_append_singleton _ _))

theorem Job.poll_heeds (j : Job) (s : σ × List Asked) (hnames : (j.children.map Child.pid).Nodup) :
    Heeds s (j.poll (w.naming pid) s).2 j.children (j.poll (w.naming pid) s).1.children :=
  pollEach_heeds w pid .look j.children s hnames

theorem Job.wait_heeds (j : Job) (s : σ × List Asked) (hnames : (j.children.map Child.pid).Nodup) :
    Heeds s (j.wait (w.naming pid) s).2 j.children (j.wait (w.naming pid) s).1.children :=
  pollEach_heeds w pid .block j.children s hnames

theorem Job.state_eq_terminated_iff {j : Job} :
    j.state = .terminated ↔ ∀ c ∈ j.children, c.status.state = .terminated := by
  simp [Job.state]

theorem JobSet.reapEach_heeds (js : List Job) (s : σ × List Asked)
    (hnames : ((js.flatMap Job.children).map Child.pid).Nodup) :
    Heeds s (reapEach (w.naming pid) js s).2 (js.flatMap Job.children)
      ((reapEach (w.naming pid) js s).1.flatMap Job.children) := by
  induction js generalizing s with
  | nil => exact .refl s []
  | cons j js ih =>
    rw [List.flatMap_cons] at hnames
    obtain ⟨hj, hjs, -⟩ := List.nodup_append'.1 (List.map_append ▸ hnames)
    have hfirst := (j.poll_heeds w pid s hj).frame (js.flatMap Job.children) hnames
    have hlater := (ih (j.poll (w.naming pid) s).2 hjs).frame (j.poll (w.naming pid) s).1.children
      ((List.perm_append_comm.map Child.pid).nodup_iff.2 (hfirst.nodup hnames))
    have hboth := hfirst.trans (hlater.perm List.perm_append_comm List.perm_append_comm)
    simp only [reapEach, List.flatMap_cons]
    split
    · next hended =>
      exact hboth.trans ⟨[], by simp, .drop (Job.state_eq_terminated_iff.1 hended) (hboth.nodup hnames)⟩
    · exact hboth

namespace Desk

theorem nodup_held {d : Desk} {i : Nat} {j : Job} (hj : d.held[i]? = some j)
    (hnames : (d.children.map Child.pid).Nodup) : (j.children.map Child.pid).Nodup := by
  rw [children, List.map_flatMap, List.nodup_flatMap] at hnames
  exact hnames.1 j (List.mem_append_left _ (List.mem_of_getElem? hj))

/-- To change one of the jobs at hand is to change its records. -/
theorem heeds_set {d : Desk} {s s' : σ × List Asked} {i : Nat} {j j' : Job} (hj : d.held[i]? = some j)
    (h : Heeds s s' j.children j'.children) (hnames : (d.children.map Child.pid).Nodup) :
    Heeds s s' d.children ({ d with held := d.held.set i j' } : Desk).children := by
  obtain ⟨hi, rfl⟩ := List.getElem?_eq_some_iff.1 hj
  have hbefore : (d.held[i].children ++ (d.held.eraseIdx i ++ d.left.jobs).flatMap Job.children).Perm d.children := by
    rw [← List.flatMap_cons, ← List.cons_append]
    exact ((List.getElem_cons_eraseIdx_perm hi).append_right _).flatMap_right _
  have hafter : (j'.children ++ (d.held.eraseIdx i ++ d.left.jobs).flatMap Job.children).Perm
      ({ d with held := d.held.set i j' } : Desk).children := by
    rw [← List.flatMap_cons, ← List.cons_append]
    exact ((List.set_perm_cons_eraseIdx hi j').symm.append_right _).flatMap_right _
  exact (h.frame _ ((hbefore.map Child.pid).nodup_iff.2 hnames)).perm hbefore hafter

theorem step_heeds (deed : Deed) (d : Desk) (s : σ × List Asked)
    (hnames : ((d.children ++ deed.children).map Child.pid).Nodup) :
    Heeds s (d.step (w.naming pid) deed s).2 (d.children ++ deed.children)
      (d.step (w.naming pid) deed s).1.children := by
  cases deed with
  | take j =>
    refine (Heeds.refl s _).perm (List.Perm.refl _) ?_
    have hjobs : (d.held ++ d.left.jobs ++ [j]).Perm (d.held ++ [j] ++ d.left.jobs) := by
      rw [List.append_assoc, List.append_assoc]
      exact List.perm_append_comm.append_left _
    simpa [step, children, Deed.children] using hjobs.flatMap_right Job.children
  | push i =>
    simp only [Deed.children, List.append_nil, step]
    cases hj : d.held[i]? with
    | none => exact .refl s _
    | some j =>
      obtain ⟨hi, rfl⟩ := List.getElem?_eq_some_iff.1 hj
      refine (Heeds.refl s _).perm (List.Perm.refl _) (List.Perm.flatMap_right _ ?_)
      have hheld : d.held.Perm (d.held.eraseIdx i ++ [d.held[i]]) :=
        (List.getElem_cons_eraseIdx_perm hi).symm.trans (List.perm_append_singleton _ _).symm
      refine (hheld.append_right d.left.jobs).trans ?_
      rw [List.append_assoc]
      exact List.perm_append_comm.append_left _
  | poll i =>
    simp only [Deed.children, List.append_nil, step] at hnames ⊢
    cases hj : d.held[i]? with
    | none => exact .refl s _
    | some j => exact heeds_set hj (j.poll_heeds w pid s (nodup_held hj hnames)) hnames
  | wait i =>
    simp only [Deed.children, List.append_nil, step] at hnames ⊢
    cases hj : d.held[i]? with
    | none => exact .refl s _
    | some j => exact heeds_set hj (j.wait_heeds w pid s (nodup_held hj hnames)) hnames
  | reap =>
    simp only [Deed.children, List.append_nil, step] at hnames ⊢
    rw [children, List.flatMap_append] at hnames
    have hleft := JobSet.reapEach_heeds w pid d.left.jobs s
      (by rw [List.map_append] at hnames; exact hnames.of_append_right)
    have hall := (hleft.frame (d.held.flatMap Job.children)
      ((List.perm_append_comm.map Child.pid).nodup_iff.2 hnames)).perm List.perm_append_comm List.perm_append_comm
    rw [← List.flatMap_append, ← List.flatMap_append] at hall
    exact hall

/-- However long one goes on, records follow what is asked for them. -/
theorem run_heeds (deeds : List Deed) (d : Desk) (s : σ × List Asked)
    (hnames : ((d.children ++ deeds.flatMap Deed.children).map Child.pid).Nodup) :
    Heeds s (run (w.naming pid) deeds d s).2 (d.children ++ deeds.flatMap Deed.children)
      (run (w.naming pid) deeds d s).1.children := by
  induction deeds generalizing d s with
  | nil => simpa [run] using Heeds.refl s d.children
  | cons deed deeds ih =>
    rw [List.flatMap_cons, ← List.append_assoc] at hnames ⊢
    have hfirst := (step_heeds w pid deed d s
      (by rw [List.map_append] at hnames; exact hnames.of_append_left)).frame _ hnames
    exact hfirst.trans (ih _ _ (hfirst.nodup hnames))

end Desk

end Steps

namespace Desk

/-- What is known to have ended stays as it is, and nothing is asked for it any more. What has ended since,
dropped or not, has ended by the last answer that was given for it. -/
structure Ends (mid : Desk) (asked : List Asked) (fin : Desk) : Prop where
  stays : ∀ c ∈ mid.children, c.status.state = .terminated →
    (∀ e ∈ asked, e.name ≠ c.pid) ∧ ∀ c' ∈ fin.children, c'.pid = c.pid → c' = c
  ended : ∀ c ∈ mid.children, c.status.state = .active →
    ∀ c' ∈ fin.children, c'.pid = c.pid → c'.status.state = .terminated →
      EndedBy (answersFor c.pid asked) c'.status
  dropped : ∀ c ∈ mid.children, c.status.state = .active → c.pid ∉ fin.children.map Child.pid →
    ∃ status, EndedBy (answersFor c.pid asked) status

theorem ends_of_follows {mid fin : Desk} {cs : List Child} {asked : List Asked} (hmid : mid.children ⊆ cs)
    (h : Follows cs asked fin.children) (hnames : (cs.map Child.pid).Nodup) : mid.Ends asked fin := by
  have hunique : ∀ c₁ ∈ fin.children, ∀ c₂ ∈ fin.children, c₁.pid = c₂.pid → c₁ = c₂ := fun _ h₁ _ h₂ =>
    List.inj_on_of_nodup_map (h.nodup hnames) h₁ h₂
  refine ⟨fun c hc hended => ?_, fun c hc hactive c' hc' hpid hended => ?_, fun c hc hactive hgone => ?_⟩
  · obtain ⟨c₁, hears, hlast⟩ := h.heard c (hmid hc)
    obtain ⟨hnone, rfl⟩ := hears.eq_of_terminated hended
    refine ⟨answersFor_eq_nil_iff.1 hnone, fun c' hc' hpid => ?_⟩
    rcases hlast with hkept | ⟨-, hgone⟩
    · exact hunique c' hc' c₁ hkept hpid
    · exact absurd (hpid ▸ List.mem_map_of_mem hc') hgone
  · obtain ⟨c₁, hears, hkept | ⟨-, hgone⟩⟩ := h.heard c (hmid hc)
    · obtain rfl := hunique c' hc' c₁ hkept (by rw [hpid, hears.pid_eq])
      exact hears.endedBy hactive hended
    · exact absurd (hpid ▸ List.mem_map_of_mem hc') hgone
  · obtain ⟨c₁, hears, hkept | ⟨hended, -⟩⟩ := h.heard c (hmid hc)
    · rw [← hears.pid_eq] at hgone
      exact absurd (List.mem_map_of_mem hkept) hgone
    · exact ⟨_, hears.endedBy hactive hended⟩

/-- **Ended for good.** Whatever is done with jobs, whatever is answered, and at whatever moment one looks
at it: a record of a child that is known to have ended never changes and is never waited for again. A child
comes to be known to have ended by a wait for its own number only, which says so, or fails other than by
an interruption and is recorded as a plain exit. A job has ended when all its children have. The records
are told apart by names, and what is done is the same with names and with numbers. Any jobs can be taken
in hand and left running before one looks. -/
theorem ended_is_final (w : Waiter σ) (s : σ) (before after : List Deed) :
    ∃ (pid : Nat → Pid) (before' after' : List Deed) (mid fin : Desk) (s₁ s₂ : σ)
      (asked₁ asked₂ : List Asked),
      before'.map (Deed.renamed pid) = before ∧ after'.map (Deed.renamed pid) = after ∧
      (((before' ++ after').flatMap Deed.children).map Child.pid).Nodup ∧
      run (w.naming pid) before' {} (s, []) = (mid, s₁, asked₁) ∧
      run (w.naming pid) after' mid (s₁, asked₁) = (fin, s₂, asked₁ ++ asked₂) ∧
      run w before {} s = (mid.renamed pid, s₁) ∧ run w after (mid.renamed pid) s₁ = (fin.renamed pid, s₂) ∧
      mid.Ends asked₂ fin ∧
      ∀ j : Job, j.state = .terminated ↔ ∀ c ∈ j.children, c.status.state = .terminated := by
  obtain ⟨pid, named, hnamed, hnames⟩ := Deed.exists_named (before ++ after)
  obtain ⟨before', after', rfl, rfl, rfl⟩ := List.map_eq_append_iff.1 hnamed
  have hbefore := run_heeds w pid before' {} (s, [])
    (by rw [List.flatMap_append, List.map_append] at hnames; exact hnames.of_append_left)
  have hall := hbefore.frame (after'.flatMap Deed.children) (by rwa [List.flatMap_append] at hnames)
  have hmid := hall.nodup (by rwa [List.flatMap_append] at hnames)
  obtain ⟨asked, hasked, hfollows⟩ := run_heeds w pid after' _ (run (w.naming pid) before' {} (s, [])).2 hmid
  refine ⟨pid, before', after', _, _, _, _, _, asked, rfl, rfl, hnames, rfl, Prod.ext rfl (Prod.ext rfl hasked),
    run_naming w pid before' {} (s, []), run_naming w pid after' _ _,
    ends_of_follows (List.subset_append_left _ _) hfollows hmid, fun j => Job.state_eq_terminated_iff⟩

end Desk

end LineShell
