import LineShell.System.Kernel

/-!
# What a program does

A program is described by its calls to the system: an `Act` is done with a result, makes a call and
goes on with the answer, makes a child, or repeats something until it comes to a result. A program
that never ends is a repetition whose every round says that there is another.
-/

namespace LineShell

/-- A call to the system, by the type of its answer. -/
inductive Call : Type → Type 1 where
  /-- Reads at most so many bytes; none at the end of the file. -/
  | read (d : Descriptor) (count : Nat) : Call (Except Errno Bytes)
  /-- Writes all bytes. -/
  | write (d : Descriptor) (bytes : Bytes) : Call (Except Errno Unit)
  | openFile (path : String) (mode : OpenMode) : Call (Except Errno Descriptor)
  | close (d : Descriptor) : Call Unit
  /-- The size of a regular file. -/
  | size (d : Descriptor) : Call (Option Nat)
  | duplicate (source target : Descriptor) : Call (Except Errno Unit)
  /-- Makes a pipe: its reading and its writing end. -/
  | makePipe : Call (Descriptor × Descriptor)
  /-- The descriptors, to be put back later. -/
  | table : Call DescriptorTable
  | restore (table : DescriptorTable) : Call Unit
  /-- Becomes another program; there is an answer only if that fails. -/
  | exec (path : String) (arguments : List String) (environment : List (String × String)) : Call Errno
  /-- Waits for a child, or for any. -/
  | wait (pid : Option Pid) : Call (Except Errno (Pid × WaitStatus))
  | kill (pid : Pid) (signal : Nat) : Call (Except Errno Unit)
  /-- Waits for some nanoseconds. -/
  | sleep (duration : Nat) : Call Unit
  | changeDirectory (path : String) : Call (Except Errno Unit)
  /-- Looks at the file tree, or changes it, from the working directory. -/
  | files {ρ : Type} (f : FileTree → NodeId → ρ × FileTree) : Call ρ
  /-- The numbers of the process and of its parent. -/
  | self : Call (Pid × Pid)

/-- What a program does until it comes to a result. -/
inductive Act : Type → Type 1 where
  | done {α : Type} (a : α) : Act α
  | call {α ρ : Type} (c : Call ρ) (next : ρ → Act α) : Act α
  /-- Makes a child that does something else. -/
  | fork {α : Type} (child : Act UInt8) (next : Pid → Act α) : Act α
  /-- Repeats `round` until it gives a result. -/
  | iterate {α σ β : Type} (round : σ → Act (σ ⊕ β)) (start : σ) (next : β → Act α) : Act α

namespace Act

/-- Does one thing after the other. -/
def bind {α β : Type} : Act α → (α → Act β) → Act β
  | .done a, f => f a
  | .call c next, f => .call c fun r => (next r).bind f
  | .fork child next, f => .fork child fun pid => (next pid).bind f
  | .iterate round start next, f => .iterate round start fun b => (next b).bind f

instance : Monad Act where
  pure := .done
  bind := bind

instance {α : Type} [Inhabited α] : Inhabited (Act α) := ⟨.done default⟩

/-- Does the next round of a repetition. -/
def unroll {α σ β : Type} (round : σ → Act (σ ⊕ β)) (start : σ) (next : β → Act α) : Act α :=
  (round start).bind fun
    | .inl s => .iterate round s next
    | .inr b => next b

/-- Makes a call. -/
def perform {ρ : Type} (c : Call ρ) : Act ρ := .call c .done

/-- Repeats something until it gives a result. -/
def loop {σ β : Type} (round : σ → Act (σ ⊕ β)) (start : σ) : Act β := .iterate round start .done

/-- Does something with every element, in order. -/
def forEach {α σ : Type} (f : α → σ → Act σ) : List α → σ → Act σ
  | [], s => .done s
  | a :: as, s => (f a s).bind (forEach f as)

end Act

end LineShell
