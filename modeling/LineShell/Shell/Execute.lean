import LineShell.Shell.Commands
import LineShell.Shell.Launch

/-!
# Executing a pipeline

A pipeline whose first stage names a builtin is run by the shell itself, and the other stages and
all redirects count for nothing. Any other is launched and waited for, unless it is to be left
running. A failed launch is reported; what was launched before runs nevertheless.

Builtins may execute other pipelines, and a bookmark may name another. `executeWithin` bounds how
deep that goes; `execute` uses a bound that is enough for all that ends, because a chain of stored
commands either ends before it has used every bookmark or never does.

| here | function of the shell |
| --- | --- |
| `withLaunched`, `conclude` | what `execute` does behind `spawn_stages` |
| `runStages` | `execute` of a pipeline that names no builtin |
| `executeWithin`, `execute` | `execute` |
-/

namespace LineShell.Shell

variable {κ : Type u}

/-- Takes over what a launch has left behind, and reports its failure. -/
def withLaunched (s : Shell κ) (launched : Launched κ) : Shell κ :=
  let s := { s with host := launched.host, kernel := launched.kernel }
  match launched.failure with
  | none => s
  | some e => s.report e.message

/-- Waits for what was launched, or leaves it running: the end of `execute`, behind `spawn_stages`. -/
def conclude (k : Kernel κ) (background : Bool) (launched : Launched κ) (s : Shell κ) : Outcome × Shell κ :=
  let s := s.withLaunched launched
  let failure := launched.failure.map (·.status)
  let job : Job := ⟨launched.children⟩
  if job.isEmpty then (.done (failure.getD statusNotExecutable), s)
  else if background then (failure.elim .detached .done, { s with jobs := s.jobs.push job })
  else
    let (job, system) := job.wait (k.waiter s.host.table) s.system
    (.done (failure.getD job.code), s.withSystem system)

/-- Launches a pipeline and waits for it, or leaves it running. -/
def runStages (k : Kernel κ) (s : Shell κ) (p : Pipeline) : Outcome × Shell κ :=
  let launched := launchFrom k s.config.name true p.stages { host := s.host, kernel := s.kernel }
  s.conclude k p.isBackground launched

/-- Executes a pipeline; builtins execute others at most `depth` levels deep. -/
def executeWithin (k : Kernel κ) : Nat → Pipeline → Shell κ → Option (Outcome × Shell κ)
  | 0, _, _ => none
  | depth + 1, p, s =>
    if p.head.name.toList.isEmpty then some (.done 0, s)
    else match Builtin.ofName? p.head.name with
      | some b => s.runBuiltin (executeWithin k depth) p.head.arguments p.isBackground b
      | none => some (s.runStages k p)

/-- How deep an execution can go that ends. -/
def depthBound (s : Shell κ) : Nat :=
  match Bookmarks.load s.host.world.files s.host.cwd s.config.dataDir with
  | .ok bs => bs.length + 4
  | .error _ => 4

/-- Executes a pipeline (`execute`): what it comes to, if it ends. -/
def execute (k : Kernel κ) (p : Pipeline) (s : Shell κ) : Option (Outcome × Shell κ) :=
  executeWithin k s.depthBound p s

end LineShell.Shell
