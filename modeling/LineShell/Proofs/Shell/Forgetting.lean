import LineShell.Proofs.Launch.Execution
import LineShell.Proofs.Shell.Kernels

/-!
# Executing without a record

A shell executes pipelines on a kernel that keeps a record as it does on the kernel itself, builtins
included (`execute_recording`).
-/

namespace LineShell.Shell

variable {κ : Type u} {k : Kernel κ} {s : Shell (κ × List Event)} {again : Again κ}
  {again' : Again (κ × List Event)}

/-- The outcome of an execution, the record forgotten. -/
def forgetting (r : Outcome × Shell (κ × List Event)) : Outcome × Shell κ := (r.1, r.2.forget)

/-- Other pipelines are executed in the same way without the record. -/
def Forgets (again : Again κ) (again' : Again (κ × List Event)) : Prop :=
  ∀ p s, again p s.forget = (again' p s).map forgetting

theorem executeWithin_recording (k : Kernel κ) (depth : Nat) :
    Forgets (executeWithin k depth) (executeWithin k.recording depth) := by
  induction depth with
  | zero => exact fun _ _ => rfl
  | succ depth ih =>
    intro p s
    rw [executeWithin, executeWithin]
    split
    · rfl
    · split
      · exact runBuiltin_mapKernel ih s _ _ _
      · exact congrArg some (runStages_recording k s p)

/-- A shell executes a pipeline on a kernel that keeps a record as it does on the kernel itself. -/
theorem execute_recording (k : Kernel κ) (p : Pipeline) (s : Shell (κ × List Event)) :
    s.forget.execute k p = (s.execute k.recording p).map forgetting :=
  executeWithin_recording k s.depthBound p s

theorem reapEach_recording (k : Kernel κ) (table : DescriptorTable) (js : List Job) (s : World × κ × List Event) :
    JobSet.reapEach (k.waiter table) js (s.1, s.2.1) =
      ((JobSet.reapEach (k.recording.waiter table) js s).1, (JobSet.reapEach (k.recording.waiter table) js s).2.1,
        (JobSet.reapEach (k.recording.waiter table) js s).2.2.1) := by
  have hmirror := JobSet.reapEach_mirror (k.mirrors_recording table) js s
  rwa [Job.renamed_id, List.map_id, List.map_id] at hmirror

/-- A shell drops the same jobs. -/
theorem reap_recording (k : Kernel κ) (s : Shell (κ × List Event)) :
    s.forget.reap k = (s.reap k.recording).forget := by
  have hreaped := reapEach_recording k s.host.table s.jobs.jobs s.system
  simp only [reap, JobSet.reap]
  rw [show s.forget.jobs.jobs = s.jobs.jobs from rfl, show s.forget.host.table = s.host.table from rfl,
    show s.forget.system = (s.system.1, s.system.2.1) from rfl, hreaped]
  rfl

end LineShell.Shell
