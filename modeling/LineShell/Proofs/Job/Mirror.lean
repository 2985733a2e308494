import LineShell.Proofs.Job.Answers

/-!
# The same jobs under another waiter

A waiter mirrors another one if it gives the same answers, to numbers where the other one is asked by names
(`Waiter.Mirrors`). What becomes of jobs is the same then: with the names replaced by the numbers, the ones
are the others (`Job.pollEach_mirror`, `JobSet.reapEach_mirror`).
-/

namespace LineShell

universe u v

variable {σ : Type u} {τ : Type v}

/-- The first waiter answers to a number as the second one does to the name of it, from a state that shows
less. -/
def Waiter.Mirrors (w' : Waiter τ) (w : Waiter σ) (view : σ → τ) (pid : Pid → Pid) : Prop :=
  ∀ name mode s, w'.wait (pid name) mode (view s) = ((w.wait name mode s).1, view (w.wait name mode s).2)

def Child.renamed (pid : Pid → Pid) (c : Child) : Child := { c with pid := pid c.pid }

def Job.renamed (pid : Pid → Pid) (j : Job) : Job := ⟨j.children.map (Child.renamed pid)⟩

def JobSet.renamed (pid : Pid → Pid) (js : JobSet) : JobSet := ⟨js.jobs.map (Job.renamed pid)⟩

theorem Child.renamed_id : Child.renamed id = id := rfl

theorem Job.renamed_id : Job.renamed id = id := by
  funext j
  rw [Job.renamed, Child.renamed_id, List.map_id]
  rfl

theorem Job.state_renamed (pid : Pid → Pid) (j : Job) : (j.renamed pid).state = j.state := by
  unfold Job.state Job.renamed
  rw [List.all_map]
  rfl

theorem Child.renamed_told (pid : Pid → Pid) (c : Child) (a : WaitAnswer) :
    (c.told a).renamed pid = (c.renamed pid).told a := by
  cases a with
  | ok status => rfl
  | error e => by_cases he : e = .interrupted <;> simp [told, renamed, he]

variable {w' : Waiter τ} {w : Waiter σ} {view : σ → τ} {pid : Pid → Pid}

namespace Child

theorem settle_mirror (h : w'.Mirrors w view pid) (mode : WaitMode) (c : Child) (s : σ) :
    (c.renamed pid).settle w' mode (view s) =
      ((c.settle w mode s).1.renamed pid, view (c.settle w mode s).2) := by
  -- along the answers, which run out of patience
  induction hpatience : w.patience s using Nat.strongRecOn generalizing c s with
  | ind n ih =>
    subst hpatience
    have hsame : w'.wait (c.renamed pid).pid mode (view s) =
        ((w.wait c.pid mode s).1, view (w.wait c.pid mode s).2) := h c.pid mode s
    rw [settle_eq w', settle_eq w, hsame, ← renamed_told]
    by_cases hunsettled : (w.wait c.pid mode s).1.settles mode = false
    · rw [if_pos hunsettled, if_pos hunsettled]
      exact ih _ (w.patience_lt c.pid mode s hunsettled) _ _ rfl
    · rw [if_neg hunsettled, if_neg hunsettled]

theorem poll_mirror (h : w'.Mirrors w view pid) (mode : WaitMode) (c : Child) (s : σ) :
    (c.renamed pid).poll w' mode (view s) = ((c.poll w mode s).1.renamed pid, view (c.poll w mode s).2) := by
  unfold Child.poll
  rw [show (c.renamed pid).status = c.status from rfl]
  cases c.status.state with
  | terminated => rfl
  | active => exact settle_mirror h mode c s

end Child

namespace Job

theorem pollEach_mirror (h : w'.Mirrors w view pid) (mode : WaitMode) (cs : List Child) (s : σ) :
    pollEach w' mode (cs.map (Child.renamed pid)) (view s) =
      ((pollEach w mode cs s).1.map (Child.renamed pid), view (pollEach w mode cs s).2) := by
  induction cs generalizing s with
  | nil => rfl
  | cons c cs ih => simp only [List.map_cons, pollEach, Child.poll_mirror h, ih]

theorem poll_mirror (h : w'.Mirrors w view pid) (j : Job) (s : σ) :
    (j.renamed pid).poll w' (view s) = ((j.poll w s).1.renamed pid, view (j.poll w s).2) := by
  simp only [poll, renamed, pollEach_mirror h]

theorem wait_mirror (h : w'.Mirrors w view pid) (j : Job) (s : σ) :
    (j.renamed pid).wait w' (view s) = ((j.wait w s).1.renamed pid, view (j.wait w s).2) := by
  simp only [wait, renamed, pollEach_mirror h]

end Job

theorem JobSet.reapEach_mirror (h : w'.Mirrors w view pid) (js : List Job) (s : σ) :
    reapEach w' (js.map (Job.renamed pid)) (view s) =
      ((reapEach w js s).1.map (Job.renamed pid), view (reapEach w js s).2) := by
  induction js generalizing s with
  | nil => rfl
  | cons j js ih =>
    simp only [List.map_cons, reapEach, Job.poll_mirror h, ih, Job.state_renamed]
    split <;> rfl

end LineShell
