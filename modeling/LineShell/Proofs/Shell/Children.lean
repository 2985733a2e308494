import LineShell.Proofs.Launch.Accounts
import LineShell.Proofs.Shell.Forgetting
import LineShell.Proofs.Shell.Frame
import Mathlib.Data.List.Nodup

/-!
# No child is lost

Whatever a shell executes, and whatever it is told about its children, the active processes of its
jobs are the children that are outstanding (`no_child_lost`): what is launched is put on the account, and
is waited for until it is off again, or becomes a job. The numbers of new children are not among those
that are outstanding (`FreshFrom`), so that a child belongs to one job only.
-/

namespace LineShell

/-! ## New numbers -/

/-- A new child does not get the number of one that is outstanding. -/
def Event.Fresh (pids : List Pid) : Event → Prop
  | .fork _ (.ok pid) => pid ∉ pids
  | _ => True

/-- All new children get numbers of their own. -/
def FreshFrom (pids : List Pid) : List Event → Prop
  | [] => True
  | e :: events => e.Fresh pids ∧ FreshFrom (e.tally pids) events

theorem Event.Fresh.nodup_tally {pids : List Pid} {e : Event} (h : e.Fresh pids) (hpids : pids.Nodup) :
    (e.tally pids).Nodup := by
  cases e with
  | fork image answer =>
    cases answer with
    | ok pid =>
      rw [Event.tally, ← List.concat_eq_append]
      exact hpids.concat h
    | error e => exact hpids
  | wait table pid mode answer =>
    rw [Event.tally]
    split
    · exact hpids.erase pid
    · exact hpids

theorem FreshFrom.nodup_foldl {pids : List Pid} {events : List Event} (h : FreshFrom pids events)
    (hpids : pids.Nodup) : (events.foldl Event.tally pids).Nodup := by
  induction events generalizing pids with
  | nil => exact hpids
  | cons e events ih => exact ih h.2 (h.1.nodup_tally hpids)

theorem JobSet.mem_active {js : JobSet} {pid : Pid} :
    pid ∈ js.active ↔ ∃ (i : Nat) (j : Job), js.jobs[i]? = some j ∧ pid ∈ j.active := by
  rw [active, List.mem_flatMap]
  constructor
  · rintro ⟨j, hj, hpid⟩
    obtain ⟨i, hi⟩ := List.mem_iff_getElem?.1 hj
    exact ⟨i, j, hi, hpid⟩
  · rintro ⟨i, j, hi, hpid⟩
    exact ⟨j, List.mem_of_getElem? hi, hpid⟩

/-- Where no process is active twice, it belongs to one job. -/
theorem JobSet.eq_of_mem_active {js : JobSet} (h : js.active.Nodup) {i i' : Nat} {j j' : Job} {pid : Pid}
    (hi : js.jobs[i]? = some j) (hi' : js.jobs[i']? = some j') (hj : pid ∈ j.active) (hj' : pid ∈ j'.active) :
    i = i' := by
  obtain ⟨-, hapart⟩ := List.nodup_flatMap.1 h
  obtain ⟨hlength, rfl⟩ := List.getElem?_eq_some_iff.1 hi
  obtain ⟨hlength', rfl⟩ := List.getElem?_eq_some_iff.1 hi'
  by_contra hne
  rcases Nat.lt_or_gt_of_ne hne with hlt | hlt
  · exact List.pairwise_iff_getElem.1 hapart i i' hlength hlength' hlt hj hj'
  · exact List.pairwise_iff_getElem.1 hapart i' i hlength' hlength hlt hj' hj

namespace Shell

variable {κ : Type u} {k : Kernel κ} {s s' : Shell (κ × List Event)} {o : Outcome} {p : Pipeline}

/-! ## Accounts of shells -/

/-- The record goes on so that what is outstanding changes as the active processes of the jobs do. -/
def Accounts (s s' : Shell (κ × List Event)) : Prop :=
  LineShell.Accounts s.kernel.2 s'.kernel.2 s.jobs.active s'.jobs.active

theorem framed_accounts : Framed (Accounts (κ := κ)) where
  stays h := by
    rw [Accounts, h.jobs, h.kernel]
    exact .refl _ _
  trans := .trans

variable {launched : Launched (κ × List Event)}

theorem withLaunched_keeps (s : Shell (κ × List Event)) (launched : Launched (κ × List Event)) :
    (s.withLaunched launched).jobs = s.jobs ∧ (s.withLaunched launched).kernel = launched.kernel :=
  ⟨(withLaunched_rests s launched).jobs, (withLaunched_rests s launched).kernel⟩

/-- What is launched in the foreground is off the account when the shell goes on. -/
theorem conclude_waits
    (h : LineShell.Accounts s.kernel.2 launched.kernel.2 [] (Job.active ⟨launched.children⟩)) :
    (s.conclude k.recording false launched).2.jobs = s.jobs ∧
      LineShell.Accounts s.kernel.2 (s.conclude k.recording false launched).2.kernel.2 [] [] := by
  obtain ⟨hjobs, hkernel⟩ := withLaunched_keeps s launched
  unfold conclude
  simp only [Bool.false_eq_true, if_false]
  split
  · next hempty =>
    obtain hnone : launched.children = [] := by simpa [Job.isEmpty] using hempty
    rw [hnone] at h
    rw [hkernel]
    exact ⟨hjobs, h⟩
  · have hwait := Job.wait_accounts k (s.withLaunched launched).host.table ⟨launched.children⟩
      (s.withLaunched launched).system
    rw [system, hkernel] at hwait
    refine ⟨hjobs, h.trans ?_⟩
    rw [system, hkernel]
    exact hwait

/-- What is launched in the background becomes a job. -/
theorem conclude_accounts
    (h : LineShell.Accounts s.kernel.2 launched.kernel.2 [] (Job.active ⟨launched.children⟩))
    (background : Bool) : s.Accounts (s.conclude k.recording background launched).2 := by
  cases background with
  | false =>
    obtain ⟨hjobs, hrecord⟩ := conclude_waits (k := k) h
    have hall := hrecord.append_left s.jobs.active
    rw [List.append_nil] at hall
    rwa [Accounts, hjobs]
  | true =>
    obtain ⟨hjobs, hkernel⟩ := withLaunched_keeps s launched
    have hall := h.append_left s.jobs.active
    rw [List.append_nil] at hall
    unfold conclude Accounts
    simp only [if_true]
    split
    · next hempty =>
      obtain hnone : launched.children = [] := by simpa [Job.isEmpty] using hempty
      rw [hnone] at hall
      rw [hjobs, hkernel]
      simpa [Job.active] using hall
    · rw [hjobs, hkernel, JobSet.active_push]
      exact hall

theorem runStages_accounts (k : Kernel κ) (s : Shell (κ × List Event)) (p : Pipeline) :
    s.Accounts (s.runStages k.recording p).2 :=
  conclude_accounts (launchFrom_accounts k s.config.name true p.stages { host := s.host, kernel := s.kernel }) _

theorem execute_accounts (h : s.execute k.recording p = some (o, s')) : s.Accounts s' :=
  executeWithin_keeps framed_accounts (runStages_accounts k) _ p s o s' h

theorem reap_accounts (k : Kernel κ) (s : Shell (κ × List Event)) : s.Accounts (s.reap k.recording) :=
  JobSet.reapEach_accounts k s.host.table s.jobs.jobs s.system

/-- What is executed in the foreground, and is no builtin, leaves the jobs as they are, and all children
that it forks are reported to have ended. -/
theorem execute_foreground (hbuiltin : Builtin.ofName? p.head.name = none) (hforeground : p.isBackground = false)
    (h : s.execute k.recording p = some (o, s')) :
    s'.jobs = s.jobs ∧ LineShell.Accounts s.kernel.2 s'.kernel.2 [] [] := by
  by_cases hname : p.head.name.toList = []
  · obtain ⟨depth, hdepth⟩ := s.depthBound_eq_succ
    rw [execute, hdepth, executeWithin, if_pos (by simp [hname])] at h
    cases h
    exact ⟨rfl, .refl _ _⟩
  · rw [execute_eq_runStages _ s hname hbuiltin] at h
    obtain rfl : (s.runStages k.recording p).2 = s' := congrArg Prod.snd (Option.some.inj h)
    rw [runStages, hforeground]
    exact conclude_waits (launchFrom_accounts k s.config.name true p.stages { host := s.host, kernel := s.kernel })

/-! ## Whole sessions -/

/-- What a shell comes to by executing lines and dropping jobs that have ended. Between the steps it may
read and change whatever it likes, as long as its jobs and its children are left alone. -/
inductive Works {κ : Type u} (k : Kernel κ) (s : Shell κ) : Shell κ → Prop where
  | start : Works k s s
  | execute {s' s'' : Shell κ} {p : Pipeline} {o : Outcome} :
      Works k s s' → s'.execute k p = some (o, s'') → Works k s s''
  | reap {s' : Shell κ} : Works k s s' → Works k s (s'.reap k)
  | elsewhere {s' s'' : Shell κ} :
      Works k s s' → s''.jobs = s'.jobs → s''.kernel = s'.kernel → Works k s s''

/-- With the record forgotten, a shell has worked in the same way. -/
theorem Works.forget (h : Works k.recording s s') : Works k s.forget s'.forget := by
  induction h with
  | start => exact .start
  | @execute s' s'' p o _ hexecute ih =>
    refine ih.execute (p := p) (o := o) ?_
    rw [execute_recording, hexecute]
    rfl
  | @reap s' _ ih =>
    rw [← reap_recording]
    exact ih.reap
  | @elsewhere s' s'' _ hjobs hkernel ih => exact ih.elsewhere hjobs (congrArg Prod.fst hkernel)

/-- All that a shell comes to, it comes to with a record. -/
theorem Works.exists_recording {t : Shell κ} (h : Works k s.forget t) :
    ∃ s', Works k.recording s s' ∧ s'.forget = t := by
  induction h with
  | start => exact ⟨s, .start, rfl⟩
  | @execute t t' p o _ hexecute ih =>
    obtain ⟨s', hworks, rfl⟩ := ih
    rw [execute_recording, Option.map_eq_some_iff] at hexecute
    obtain ⟨⟨o', s''⟩, hrecorded, hforget⟩ := hexecute
    exact ⟨s'', hworks.execute hrecorded, congrArg Prod.snd hforget⟩
  | reap _ ih =>
    obtain ⟨s', hworks, rfl⟩ := ih
    exact ⟨_, hworks.reap, (reap_recording k s').symm⟩
  | @elsewhere t t' _ hjobs hkernel ih =>
    obtain ⟨s', hworks, rfl⟩ := ih
    refine ⟨{ t' with kernel := s'.kernel }, hworks.elsewhere hjobs rfl, ?_⟩
    obtain ⟨config, editor, jobs, diagnostics, host, kernel⟩ := t'
    cases hkernel
    rfl

/-- A shell works on a kernel that keeps a record as it does on the kernel itself. -/
theorem works_recording_iff {t : Shell κ} :
    Works k s.forget t ↔ ∃ s', Works k.recording s s' ∧ s'.forget = t := by
  refine ⟨Works.exists_recording, ?_⟩
  rintro ⟨s', hworks, rfl⟩
  exact hworks.forget

theorem Works.accounts (h : Works k.recording s s') : s.Accounts s' := by
  induction h with
  | start => exact .refl _ _
  | execute _ hexecute ih => exact ih.trans (execute_accounts hexecute)
  | reap _ ih => exact ih.trans (reap_accounts k _)
  | elsewhere _ hjobs hkernel ih => rwa [Accounts, hjobs, hkernel]

/-- **No child is lost.** In whatever way a shell has worked since its start, its children that are not
reported to have ended are the active processes of its jobs. So every child it has ever forked is reported
to have ended since, or is active in a job; in one job only, if the system gives every new child a number
of its own. And when a pipeline in the foreground that is no builtin has been executed, all children that
were forked for it are reported to have ended. -/
theorem no_child_lost (k : Kernel κ) (config : Config) (diagnostics : Diagnostics) (host : Host) (kernel : κ)
    (h : Works k.recording (start config diagnostics host (kernel, [])) s) :
    (outstanding s.kernel.2).Perm s.jobs.active ∧
    (∀ before image pid after, s.kernel.2 = before ++ .fork image (.ok pid) :: after →
      (∃ e ∈ after, e.Ends pid) ∨ ∃ (i : Nat) (j : Job), s.jobs.jobs[i]? = some j ∧ pid ∈ j.active ∧
        (FreshFrom [] s.kernel.2 →
          ∀ (i' : Nat) (j' : Job), s.jobs.jobs[i']? = some j' → pid ∈ j'.active → i' = i)) ∧
    (∀ p o s', Builtin.ofName? p.head.name = none → p.isBackground = false →
      s.execute k.recording p = some (o, s') → s'.jobs = s.jobs ∧ ∃ events, s'.kernel.2 = s.kernel.2 ++ events ∧
        ∀ before image pid after, events = before ++ .fork image (.ok pid) :: after → ∃ e ∈ after, e.Ends pid) := by
  have hperm : (outstanding s.kernel.2).Perm s.jobs.active := h.accounts.perm_outstanding
  refine ⟨hperm, fun before image pid after hsplit => ?_, fun p o s' hbuiltin hforeground hexecute => ?_⟩
  · rcases ends_or_mem_of_fork hsplit [] with hends | hmem
    · exact .inl hends
    · obtain ⟨i, j, hi, hj⟩ := JobSet.mem_active.1 (hperm.mem_iff.1 hmem)
      refine .inr ⟨i, j, hi, hj, fun hfresh i' j' hi' hj' => ?_⟩
      have hnodup : s.jobs.active.Nodup := hperm.nodup_iff.1 (hfresh.nodup_foldl .nil)
      exact JobSet.eq_of_mem_active hnodup hi' hi hj' hj
  · obtain ⟨hjobs, hrecord⟩ := execute_foreground hbuiltin hforeground hexecute
    exact ⟨hjobs, hrecord.exists_ends⟩

/-- A shell that has left a program running. -/
def resting : Shell (Machine × List Event) :=
  ((start { name := "sh", dataDir := "/" } .shown .withProgram ({}, [])).runStages
    (Machine.kernel fun _ => none).recording (.single { name := "x", background := true })).2

/-- Its only child is active in one job, and is still there when another one has been executed in the
foreground. -/
theorem no_child_lost_resting :
    Works (Machine.kernel fun _ => none).recording
      (start { name := "sh", dataDir := "/" } .shown .withProgram ({}, [])) resting ∧
    (∃ image, resting.kernel.2 = [] ++ .fork image (.ok 1000) :: []) ∧ FreshFrom [] resting.kernel.2 ∧
    (outstanding resting.kernel.2).Perm resting.jobs.active ∧
    (∃ (i : Nat) (j : Job), resting.jobs.jobs[i]? = some j ∧ 1000 ∈ j.active ∧
      ∀ (i' : Nat) (j' : Job), resting.jobs.jobs[i']? = some j' → 1000 ∈ j'.active → i' = i) ∧
    ∃ o s', resting.execute (Machine.kernel fun _ => none).recording (.single { name := "x" }) = some (o, s') ∧
      s'.jobs = resting.jobs := by
  have hworks : Works (Machine.kernel fun _ => none).recording
      (start { name := "sh", dataDir := "/" } .shown .withProgram ({}, [])) resting :=
    .execute .start (execute_eq_runStages (p := .single { name := "x", background := true }) _ _
      (by decide) (by decide))
  have hrecord : ∃ image, resting.kernel.2 = [] ++ .fork image (.ok 1000) :: [] := ⟨_, rfl⟩
  obtain ⟨image, hfork⟩ := hrecord
  have hfresh : FreshFrom [] resting.kernel.2 := by
    rw [hfork]
    exact ⟨List.not_mem_nil, trivial⟩
  obtain ⟨hperm, hchildren, hforeground⟩ := no_child_lost (Machine.kernel fun _ => none) _ _ _ _ hworks
  refine ⟨hworks, ⟨image, hfork⟩, hfresh, hperm, ?_, ?_⟩
  · rcases hchildren [] image 1000 [] hfork with ⟨e, he, -⟩ | ⟨i, j, hi, hj, hone⟩
    · cases he
    · exact ⟨i, j, hi, hj, hone hfresh⟩
  · have hexecute := execute_eq_runStages (p := .single { name := "x" }) (Machine.kernel fun _ => none).recording
      resting (by decide) (by decide)
    exact ⟨_, _, hexecute, (hforeground _ _ _ (by decide) rfl hexecute).1⟩

end Shell

end LineShell
