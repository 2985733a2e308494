import LineShell.System.Errno

/-!
# What is known about a child

A wait status says what became of a child: it has ended in one of two ways, or it has only changed
its condition. `WaitStatus.state` draws that line and `WaitStatus.code` is the status a shell
reports. `Waiter` is whatever answers when a child is waited for.

| here | function of the shell |
| --- | --- |
| `WaitStatus.state`, `WaitStatus.code` | `WaitStatusExt::state`, `WaitStatusExt::code` |
| `WaitMode` | the flags of `Process::poll` |
| `WaitAnswer.settles` | where the loop of `Process::poll` ends |
| `Waiter` | the system call `waitpid` |
-/

namespace LineShell

/-- The number of a process. -/
abbrev Pid := Nat

/-- What became of a child. -/
inductive WaitStatus where
  | exited (code : Int)
  | signaled (signal : Nat) (core : Bool)
  | stopped (signal : Nat)
  | continued
  /-- Nothing has happened. -/
  | alive
  deriving Repr, DecidableEq

/-- Is there still something to wait for? -/
inductive State where
  | active
  | terminated
  deriving Repr, DecidableEq

namespace WaitStatus

def state : WaitStatus → State
  | .exited _ | .signaled .. => .terminated
  | _ => .active

/-- The exit code modulo 256, or 128 plus the number of the signal. -/
def code : WaitStatus → UInt8
  | .exited code => UInt8.ofNat (code % 256).toNat
  | .signaled signal _ => UInt8.ofNat (128 + signal)
  | _ => 0

end WaitStatus

/-- Whether a wait may block. -/
inductive WaitMode where
  | block
  | look
  deriving Repr, DecidableEq

/-- One answer to waiting for a child. -/
abbrev WaitAnswer := Except Errno WaitStatus

/-- Does an answer end the wait? An interrupted call is repeated; a call that may block goes on
until the child has ended; any other error ends it. -/
def WaitAnswer.settles (mode : WaitMode) : WaitAnswer → Bool
  | .error e => e ≠ .interrupted
  | .ok status => mode = .look || status.state = .terminated

/-- Something that answers when a child is waited for. `patience` bounds how often in a row it may
answer without ending the wait. -/
structure Waiter (σ : Type u) where
  wait : Pid → WaitMode → σ → WaitAnswer × σ
  patience : σ → Nat
  patience_lt : ∀ pid mode s, (wait pid mode s).1.settles mode = false →
    patience (wait pid mode s).2 < patience s

/-- The waiter of a process without children: there is nothing to wait for. -/
def Waiter.childless : Waiter Unit where
  wait _ _ s := (.error .noChild, s)
  patience _ := 0
  patience_lt _ _ _ h := by cases h

end LineShell
