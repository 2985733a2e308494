import LineShell.System.WaitStatus
import LineShell.System.World

/-!
# What the shell asks of the system

The shell changes the world itself where only its own files and descriptors are concerned. For
everything that the world alone does not decide it asks a `Kernel`: may a file be opened or a pipe be
made, make a child, what has become of a child. The kernel decides what the children do to the world
meanwhile.

| here | system call |
| --- | --- |
| `Kernel.fork`, with its `Image` | `fork`, and `execv` in the child; `Image.excuse` is what `exit_child` says ahead of the error |
| `Kernel.wait` | `waitpid` |
| `Kernel.openFault`, `Kernel.pipeFault` | `open` and `pipe` where they fail for want of something |
-/

namespace LineShell

/-- What a new process is to become. -/
structure Image where
  /-- The file of the program. -/
  path : String
  /-- What the program is given, its own name first. -/
  arguments : List String
  /-- The descriptors when the program is started. -/
  table : DescriptorTable
  cwd : NodeId
  environment : List (String × String)
  /-- What the process says ahead of the reason if the program cannot be started. -/
  excuse : String
  deriving Repr, DecidableEq

/-- The answers of a system with other processes `κ`. -/
structure Kernel (κ : Type u) where
  /-- Why a file cannot be opened now, whatever the file tree says. -/
  openFault : String → OpenMode → World × κ → Option Errno
  /-- Why no pipe can be made now. -/
  pipeFault : World × κ → Option Errno
  /-- Makes a child of the shell. -/
  fork : Image → World × κ → Except Errno Pid × World × κ
  /-- Waits for a child of the shell, whose own descriptors are given. -/
  wait : DescriptorTable → Pid → WaitMode → World × κ → WaitAnswer × World × κ
  /-- A bound on how often in a row `wait` may answer without ending the wait. -/
  patience : DescriptorTable → World × κ → Nat
  patience_lt : ∀ table pid mode s, (wait table pid mode s).1.settles mode = false →
    patience table (wait table pid mode s).2 < patience table s

/-- The kernel as the answerer of waits. -/
def Kernel.waiter {κ : Type u} (k : Kernel κ) (table : DescriptorTable) : Waiter (World × κ) where
  wait := k.wait table
  patience := k.patience table
  patience_lt := k.patience_lt table

end LineShell
