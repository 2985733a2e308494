import LineShell.Proofs.Launch.Recording
import Mathlib.Data.List.Perm.Basic

/-!
# Accounts of children

The record of a shell says which of its children are outstanding: those that were forked and have not
been reported to have ended (`outstanding`). `Accounts` says what a part of the record does to some
of them, whatever others there are. A wait takes a child from the account exactly if the child is not
active any more (`Child.settle_accounts`), a launch puts its children on it (`launchFrom_accounts`).
-/

namespace LineShell

variable {κ σ : Type u} {k : Kernel κ} {table : DescriptorTable}

/-! ## The record -/

namespace Event

/-- The answer to a wait tells that the child has ended: it has terminated, or there is nothing left to
wait for. -/
def Ends (pid : Pid) : Event → Prop
  | .fork _ _ => False
  | .wait _ waited _ answer => waited = pid ∧ answer.settles .block = true

/-- The children that are outstanding behind an event. -/
def tally (pids : List Pid) : Event → List Pid
  | .fork _ (.ok pid) => pids ++ [pid]
  | .fork _ (.error _) => pids
  | .wait _ pid _ answer => if answer.settles .block then pids.erase pid else pids

end Event

/-- The children that were forked and have not been reported to have ended. -/
def outstanding (record : List Event) : List Pid := record.foldl Event.tally []

theorem Event.mem_tally {pid : Pid} {pids : List Pid} {e : Event} (h : pid ∈ pids) (hends : ¬ e.Ends pid) :
    pid ∈ e.tally pids := by
  cases e with
  | fork image answer =>
    cases answer with
    | ok other => exact List.mem_append_left _ h
    | error e => exact h
  | wait table waited mode answer =>
    rw [Event.tally]
    split
    · next hsettles =>
      have hne : pid ≠ waited := fun heq => hends ⟨heq.symm, hsettles⟩
      exact (List.mem_erase_of_ne hne).2 h
    · exact h

/-- A child that is outstanding stays so until it is reported to have ended. -/
theorem ends_or_mem_tally {pid : Pid} {pids : List Pid} (h : pid ∈ pids) (events : List Event) :
    (∃ e ∈ events, e.Ends pid) ∨ pid ∈ events.foldl Event.tally pids := by
  induction events generalizing pids with
  | nil => exact .inr h
  | cons e events ih =>
    by_cases hends : e.Ends pid
    · exact .inl ⟨e, List.mem_cons_self, hends⟩
    · rw [List.foldl_cons]
      exact (ih (Event.mem_tally h hends)).imp_left fun ⟨e', he', hends'⟩ => ⟨e', List.mem_cons_of_mem _ he', hends'⟩

/-- A child that was forked is outstanding, unless it has been reported to have ended since. -/
theorem ends_or_mem_of_fork {record before after : List Event} {image : Image} {pid : Pid}
    (h : record = before ++ .fork image (.ok pid) :: after) (pids : List Pid) :
    (∃ e ∈ after, e.Ends pid) ∨ pid ∈ record.foldl Event.tally pids := by
  rw [h, List.foldl_append, List.foldl_cons]
  exact ends_or_mem_tally (by simp [Event.tally]) after

/-! ## Accounts -/

/-- The record goes on with events that lead from the outstanding children `before` to `after`, whatever
other children there are. -/
def Accounts (record record' : List Event) (before after : List Pid) : Prop :=
  ∃ events, record' = record ++ events ∧
    ∀ pids rest, pids.Perm (before ++ rest) → (events.foldl Event.tally pids).Perm (after ++ rest)

namespace Accounts

variable {r r' r'' : List Event} {a b c : List Pid}

theorem refl (r : List Event) (a : List Pid) : Accounts r r a a :=
  ⟨[], (List.append_nil r).symm, fun _ _ h => h⟩

theorem trans (h : Accounts r r' a b) (h' : Accounts r' r'' b c) : Accounts r r'' a c := by
  obtain ⟨events, rfl, hevents⟩ := h
  obtain ⟨events', rfl, hevents'⟩ := h'
  refine ⟨events ++ events', List.append_assoc .., fun pids rest hpids => ?_⟩
  rw [List.foldl_append]
  exact hevents' _ _ (hevents _ _ hpids)

theorem append_right (h : Accounts r r' a b) (others : List Pid) : Accounts r r' (a ++ others) (b ++ others) := by
  obtain ⟨events, rfl, hevents⟩ := h
  refine ⟨events, rfl, fun pids rest hpids => ?_⟩
  rw [List.append_assoc] at hpids ⊢
  exact hevents pids (others ++ rest) hpids

theorem append_left (h : Accounts r r' a b) (others : List Pid) : Accounts r r' (others ++ a) (others ++ b) := by
  obtain ⟨events, rfl, hevents⟩ := h
  refine ⟨events, rfl, fun pids rest hpids => ?_⟩
  rw [List.append_assoc] at hpids ⊢
  have hothers := hevents pids (others ++ rest) (hpids.trans (List.perm_append_comm_assoc _ _ _))
  exact hothers.trans (List.perm_append_comm_assoc _ _ _)

theorem fork_ok (r : List Event) (image : Image) (pid : Pid) :
    Accounts r (r ++ [.fork image (.ok pid)]) [] [pid] :=
  ⟨_, rfl, fun _ _ hpids => (hpids.append_right [pid]).trans List.perm_append_comm⟩

theorem fork_error (r : List Event) (image : Image) (e : Errno) (a : List Pid) :
    Accounts r (r ++ [.fork image (.error e)]) a a :=
  ⟨_, rfl, fun _ _ hpids => hpids⟩

theorem wait_unsettled (r : List Event) (table : DescriptorTable) (pid : Pid) (mode : WaitMode) {answer : WaitAnswer}
    (h : answer.settles .block = false) (a : List Pid) : Accounts r (r ++ [.wait table pid mode answer]) a a := by
  refine ⟨_, rfl, fun pids rest hpids => ?_⟩
  simpa [Event.tally, h] using hpids

theorem wait_settled (r : List Event) (table : DescriptorTable) (pid : Pid) (mode : WaitMode) {answer : WaitAnswer}
    (h : answer.settles .block = true) : Accounts r (r ++ [.wait table pid mode answer]) [pid] [] := by
  refine ⟨_, rfl, fun pids rest hpids => ?_⟩
  simpa [Event.tally, h] using hpids.erase pid

/-- A child that was forked, and is not on the account at the end, has been reported to have ended. -/
theorem exists_ends (h : Accounts r r' [] []) : ∃ events, r' = r ++ events ∧
    ∀ before image pid after, events = before ++ .fork image (.ok pid) :: after → ∃ e ∈ after, e.Ends pid := by
  obtain ⟨events, hrecord, hevents⟩ := h
  refine ⟨events, hrecord, fun before image pid after hsplit => ?_⟩
  rcases ends_or_mem_of_fork hsplit [] with hends | hmem
  · exact hends
  · have hnone := (hevents [] [] .nil).mem_iff.1 hmem
    cases hnone

theorem perm_outstanding (h : Accounts [] r [] a) : (outstanding r).Perm a := by
  obtain ⟨events, rfl, hevents⟩ := h
  simpa [outstanding] using hevents [] [] .nil

end Accounts

/-! ## Waits -/

namespace Child

/-- The child, unless it is known to have ended. -/
def active (c : Child) : List Pid := if c.status.state = .active then [c.pid] else []

end Child

/-- The processes of the job that are active. -/
def Job.active (j : Job) : List Pid := j.children.flatMap Child.active

/-- The active processes of all jobs. -/
def JobSet.active (js : JobSet) : List Pid := js.jobs.flatMap Job.active

/-- What ends a wait that blocks ends any wait. -/
theorem WaitAnswer.settles_block {answer : WaitAnswer} {mode : WaitMode} (h : answer.settles mode = false) :
    answer.settles .block = false := by
  cases answer with
  | error e => exact h
  | ok status => cases mode <;> simp_all [WaitAnswer.settles]

theorem Child.active_of_active {c : Child} (h : c.status.state = .active) : c.active = [c.pid] := if_pos h

theorem Child.active_of_terminated {c : Child} (h : c.status.state = .terminated) : c.active = [] := by
  rw [active, h]
  rfl

/-- The answer that ends a wait takes the child from the account exactly if it is not active any more. -/
theorem Accounts.wait (r : List Event) (table : DescriptorTable) (c : Child) {mode : WaitMode} {answer : WaitAnswer}
    (h : answer.settles mode ≠ false) :
    Accounts r (r ++ [.wait table c.pid mode answer]) [c.pid]
      (match answer with
        | .ok status => { c with status }
        | .error _ => { c with status := .exited 0 }).active := by
  cases answer with
  | error e =>
    rw [Child.active_of_terminated rfl]
    exact wait_settled r table c.pid mode (eq_true_of_ne_false h)
  | ok status =>
    cases hstate : status.state with
    | terminated =>
      rw [Child.active_of_terminated hstate]
      exact wait_settled r table c.pid mode (by simp [WaitAnswer.settles, hstate])
    | active =>
      rw [Child.active_of_active hstate]
      exact wait_unsettled r table c.pid mode (by simp [WaitAnswer.settles, hstate]) [c.pid]

/-- Waiting takes the child from the account exactly if it is not active any more. -/
theorem Child.settle_accounts (k : Kernel κ) (table : DescriptorTable) (mode : WaitMode) (c : Child)
    (s : World × κ × List Event) {pid : Pid} (hpid : c.pid = pid) :
    Accounts s.2.2 (c.settle (k.recording.waiter table) mode s).2.2.2 [pid]
      (c.settle (k.recording.waiter table) mode s).1.active := by
  -- along the answers, which run out of patience
  induction c, s using Child.settle.induct (k.recording.waiter table) mode with
  | case1 c s hunsettled ih =>
    have hsame := Accounts.wait_unsettled s.2.2 table c.pid mode (WaitAnswer.settles_block hunsettled) [pid]
    rw [Child.settle, dif_pos hunsettled]
    refine hsame.trans (ih ?_)
    split <;> exact hpid
  | case2 c s hsettled =>
    subst hpid
    rw [Child.settle, dif_neg hsettled]
    exact Accounts.wait s.2.2 table c hsettled

theorem Child.poll_accounts (k : Kernel κ) (table : DescriptorTable) (mode : WaitMode) (c : Child)
    (s : World × κ × List Event) :
    Accounts s.2.2 (c.poll (k.recording.waiter table) mode s).2.2.2 c.active
      (c.poll (k.recording.waiter table) mode s).1.active := by
  unfold Child.poll
  cases hstate : c.status.state with
  | terminated => exact .refl _ _
  | active =>
    rw [Child.active_of_active hstate]
    exact c.settle_accounts k table mode s rfl

/-- A wait that blocks ends with the child. -/
theorem Child.poll_block (w : Waiter σ) (c : Child) (s : σ) : (c.poll w .block s).1.active = [] := by
  have hsettle : (c.settle w .block s).1.status.state = .terminated := by
    induction c, s using Child.settle.induct w .block with
    | case1 c s hunsettled ih =>
      rw [Child.settle, dif_pos hunsettled]
      exact ih
    | case2 c s hsettled =>
      rw [Child.settle, dif_neg hsettled]
      cases hanswer : (w.wait c.pid .block s).1 with
      | error e => rfl
      | ok status =>
        rw [hanswer] at hsettled
        simpa [WaitAnswer.settles] using hsettled
  unfold Child.poll
  cases hstate : c.status.state with
  | terminated => exact Child.active_of_terminated hstate
  | active => exact Child.active_of_terminated hsettle

namespace Job

theorem pollEach_accounts (k : Kernel κ) (table : DescriptorTable) (mode : WaitMode) (cs : List Child)
    (s : World × κ × List Event) :
    Accounts s.2.2 (pollEach (k.recording.waiter table) mode cs s).2.2.2 (cs.flatMap Child.active)
      ((pollEach (k.recording.waiter table) mode cs s).1.flatMap Child.active) := by
  induction cs generalizing s with
  | nil => exact .refl _ _
  | cons c cs ih =>
    have hpoll := (c.poll_accounts k table mode s).append_right (cs.flatMap Child.active)
    simp only [pollEach, List.flatMap_cons]
    exact hpoll.trans ((ih _).append_left _)

/-- Waiting for a job takes all its processes from the account. -/
theorem wait_accounts (k : Kernel κ) (table : DescriptorTable) (j : Job) (s : World × κ × List Event) :
    Accounts s.2.2 (j.wait (k.recording.waiter table) s).2.2.2 j.active [] := by
  have hended : ∀ (cs : List Child) (s : World × κ × List Event),
      (pollEach (k.recording.waiter table) .block cs s).1.flatMap Child.active = [] := by
    intro cs
    induction cs with
    | nil => exact fun _ => rfl
    | cons c cs ih =>
      intro s
      simp only [pollEach, List.flatMap_cons, ih, List.append_nil]
      exact c.poll_block _ s
  have hpolled := pollEach_accounts k table .block j.children s
  rwa [hended] at hpolled

/-- A job that has ended has no active process. -/
theorem active_of_terminated {j : Job} (h : j.state = .terminated) : j.active = [] := by
  unfold state at h
  split at h
  · next hall =>
    refine List.flatMap_eq_nil_iff.2 fun c hc => Child.active_of_terminated ?_
    simpa using List.all_eq_true.1 hall c hc
  · cases h

end Job

namespace JobSet

theorem reapEach_accounts (k : Kernel κ) (table : DescriptorTable) (js : List Job) (s : World × κ × List Event) :
    Accounts s.2.2 (reapEach (k.recording.waiter table) js s).2.2.2 (js.flatMap Job.active)
      ((reapEach (k.recording.waiter table) js s).1.flatMap Job.active) := by
  induction js generalizing s with
  | nil => exact .refl _ _
  | cons j js ih =>
    have hpoll : Accounts s.2.2 (j.poll (k.recording.waiter table) s).2.2.2 j.active
        (j.poll (k.recording.waiter table) s).1.active := Job.pollEach_accounts k table .look j.children s
    have hall := (hpoll.append_right (js.flatMap Job.active)).trans
      ((ih (j.poll (k.recording.waiter table) s).2).append_left (j.poll (k.recording.waiter table) s).1.active)
    simp only [reapEach, List.flatMap_cons]
    split
    · next hended => rwa [Job.active_of_terminated hended] at hall
    · exact hall

theorem active_push (js : JobSet) (j : Job) : (js.push j).active = js.active ++ j.active := by
  simp [active, push]

end JobSet

/-! ## Launches -/

namespace StageResult

/-- The other processes that a step leaves behind. -/
def kernel : StageResult κ → κ
  | .forked _ _ next => next.kernel
  | .failed _ _ kernel => kernel

/-- The child that a step has forked, if there is one. -/
def child : StageResult κ → List Pid
  | .forked _ pid _ => [pid]
  | .failed .. => []

end StageResult

theorem forkStage_accounts (k : Kernel κ) (shellName : String) (stage : Stage) (launch : Launch)
    (incoming reader writer : Option Descriptor) (h : Host) (kernel : κ × List Event) :
    Accounts kernel.2 (forkStage k.recording shellName stage launch incoming reader writer h kernel).kernel.2 []
      (forkStage k.recording shellName stage launch incoming reader writer h kernel).child := by
  simp only [forkStage, Kernel.recording_fork]
  generalize k.fork _ (h.world, kernel.1) = answer
  obtain ⟨answer, world, kernel'⟩ := answer
  cases answer with
  | error e => exact .fork_error _ _ e []
  | ok pid => exact .fork_ok _ _ pid

theorem launchStage_accounts (k : Kernel κ) (shellName : String) (first last : Bool) (stage : Stage)
    (st : Standing (κ × List Event)) :
    Accounts st.kernel.2 (launchStage k.recording shellName first last stage st).kernel.2 []
      (launchStage k.recording shellName first last stage st).child := by
  rcases launchStage_cases k.recording shellName first last stage st with ⟨_, _, -, h⟩ | ⟨_, _, _, -, -, -, h⟩ |
    ⟨launch, _, reader, writer, h', -, -, h⟩
  · rw [h]
    exact .refl _ _
  · rw [h]
    exact .refl _ _
  · rw [h]
    exact forkStage_accounts k shellName stage launch st.incoming reader writer h' st.kernel

/-- A launch puts its children on the account, whether it fails or not. -/
theorem launchFrom_accounts (k : Kernel κ) (shellName : String) (first : Bool) (stages : List Stage)
    (st : Standing (κ × List Event)) :
    Accounts st.kernel.2 (launchFrom k.recording shellName first stages st).kernel.2 []
      ((launchFrom k.recording shellName first stages st).children.flatMap Child.active) := by
  induction stages generalizing first st with
  | nil => exact .refl _ _
  | cons stage later ih =>
    have hstep := launchStage_accounts k shellName first later.isEmpty stage st
    rw [launchFrom]
    split
    · rename_i heq
      rwa [heq] at hstep
    · rename_i image pid next heq
      rw [heq] at hstep
      exact hstep.trans ((ih false next).append_left [pid])

end LineShell
