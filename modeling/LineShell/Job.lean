import LineShell.System.WaitStatus

/-!
# Jobs

A job is the list of children that were launched for one pipeline, each with the last thing known
about it. A process that is known to have ended is never waited for again. A `JobSet` holds the
jobs that were left running, so that the finished ones can be dropped.

| here | function of the shell |
| --- | --- |
| `Child`, `Child.settle`, `Child.poll` | `Process`, the loop of `Process::poll`, `Process::poll` |
| `Job.state`, `isEmpty`, `pids`, `code` | `Job::state`, `is_empty`, `pids`, `code` |
| `Job.wait`, `Job.poll` | `Job::wait`, `Job::poll` |
| `JobSet.push`, `size`, `pids` | `JobSet::push`, `len`, `pids` |
| `JobSet.reap` | `JobSet::reap` |
-/

namespace LineShell

/-- A child, the name of its stage, and the last thing known about it. -/
structure Child where
  pid : Pid
  stage : String
  status : WaitStatus := .alive
  deriving Repr, DecidableEq

namespace Child

variable {σ : Type u}

/-- Repeats a wait until an answer ends it (the loop of `Process::poll`). An error other than an interruption means that there is
nothing left to wait for, and is recorded as a plain exit. -/
def settle (w : Waiter σ) (mode : WaitMode) (c : Child) (s : σ) : Child × σ :=
  if _h : (w.wait c.pid mode s).1.settles mode = false then
    settle w mode
      (match (w.wait c.pid mode s).1 with
        | .ok status => { c with status }
        | .error _ => c)
      (w.wait c.pid mode s).2
  else
    (match (w.wait c.pid mode s).1 with
      | .ok status => { c with status }
      | .error _ => { c with status := .exited 0 }, (w.wait c.pid mode s).2)
termination_by w.patience s
decreasing_by exact w.patience_lt c.pid mode s ‹_›

/-- Brings what is known about a child up to date, unless it has ended (`Process::poll`). -/
def poll (w : Waiter σ) (mode : WaitMode) (c : Child) (s : σ) : Child × σ :=
  match c.status.state with
  | .terminated => (c, s)
  | .active => c.settle w mode s

end Child

/-- The children of one pipeline, in its order. -/
structure Job where
  children : List Child := []
  deriving Repr, DecidableEq

namespace Job

variable {σ : Type u}

/-- A job has ended when all its children have. -/
def state (j : Job) : State :=
  if j.children.all (·.status.state = .terminated) then .terminated else .active

def isEmpty (j : Job) : Bool := j.children.isEmpty

def pids (j : Job) : List Pid := j.children.map (·.pid)

/-- The status of the last process, which stands for the whole pipeline. -/
def code (j : Job) : UInt8 :=
  match j.children.getLast? with
  | some c => c.status.code
  | none => 0

/-- Polls children in order. -/
def pollEach (w : Waiter σ) (mode : WaitMode) : List Child → σ → List Child × σ
  | [], s => ([], s)
  | c :: cs, s =>
    let (c, s) := c.poll w mode s
    let (cs, s) := pollEach w mode cs s
    (c :: cs, s)

/-- Waits for every process, one after the other. -/
def wait (w : Waiter σ) (j : Job) (s : σ) : Job × σ :=
  let (children, s) := pollEach w .block j.children s
  ({ children }, s)

/-- Looks at every process without blocking. -/
def poll (w : Waiter σ) (j : Job) (s : σ) : Job × σ :=
  let (children, s) := pollEach w .look j.children s
  ({ children }, s)

end Job

/-- Jobs that were left running, oldest first. -/
structure JobSet where
  jobs : List Job := []
  deriving Repr, DecidableEq

namespace JobSet

variable {σ : Type u}

def push (js : JobSet) (j : Job) : JobSet := ⟨js.jobs ++ [j]⟩

def size (js : JobSet) : Nat := js.jobs.length

def pids (js : JobSet) : List Pid := js.jobs.flatMap Job.pids

/-- Polls jobs in order and keeps those that have not ended. -/
def reapEach (w : Waiter σ) : List Job → σ → List Job × σ
  | [], s => ([], s)
  | j :: js, s =>
    let (j, s) := j.poll w s
    let (js, s) := reapEach w js s
    (if j.state = .terminated then js else j :: js, s)

/-- Drops the jobs that have ended (`JobSet::reap`). -/
def reap (w : Waiter σ) (js : JobSet) (s : σ) : JobSet × σ :=
  let (jobs, s) := reapEach w js.jobs s
  (⟨jobs⟩, s)

end JobSet

end LineShell
