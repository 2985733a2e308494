import LineShell.Shell.State
import LineShell.System.Machine

/-!
# Waiting for jobs that were left running

The shell itself never waits for such jobs. `Shell.awaitJobs` lets time pass until they have ended,
or until there is no use in waiting.
-/

namespace LineShell.Shell

/-- Drops jobs as they end, until none is left, nothing more can happen, or the clock would pass the
limit. Looks at most so often. -/
def awaitJobs (programs : Machine.ProgramTable) (limit : Nat) : Nat → Shell Machine → Shell Machine
  | 0, s => s
  | looks + 1, s =>
    let s := s.reap (Machine.kernel programs)
    if s.jobs.size = 0 then s
    else match s.kernel.nextAwakening with
      | none => s
      | some time =>
        if limit < time then s
        else awaitJobs programs limit looks { s with kernel := { s.kernel with clock := max s.kernel.clock time } }

end LineShell.Shell
