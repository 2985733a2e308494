import LineShell.Pipeline.Words
import LineShell.System.Act

/-!
# Running programs

A `Machine` holds the children of the shell and their descendants, each as a task with its own
descriptors and working directory. A task that has ended stays until its parent has been told.

`Machine.load` finds the program in a file. A script names its interpreter in its first line, which
is then given the path of the script.
-/

namespace LineShell

/-- A program: what it does with its arguments, its own name first, and its environment. -/
abbrev Program := List String → List (String × String) → Act UInt8

/-- How a task has ended. -/
inductive TaskEnd where
  | exited (code : UInt8)
  | killed (signal : Nat)
  deriving Repr, DecidableEq

namespace Signal

def kill : Nat := 9
def pipe : Nat := 13

/-- The highest signal that has a name. -/
def lastNamed : Nat := 31

/-- The highest signal. -/
def last : Nat := 64

/-- The signals that do nothing to a program that has not asked for them. -/
def harmless : List Nat := [0, 17, 18, 23, 28]

end Signal

/-- What is reported of an ended task; a signal without a name cannot be reported. -/
def TaskEnd.answer : TaskEnd → WaitAnswer
  | .exited code => .ok (.exited code.toNat)
  | .killed signal =>
    if signal ≤ Signal.lastNamed then .ok (.signaled signal false) else .error .invalid

inductive TaskState where
  | running (act : Act UInt8)
  | asleep (time : Nat) (act : Act UInt8)
  | ended (how : TaskEnd)

structure Task where
  pid : Pid
  /-- Who waits for the task; `Machine.nobody` if its parent is gone. -/
  parent : Pid
  table : DescriptorTable
  cwd : NodeId
  state : TaskState

structure Machine where
  tasks : List Task := []
  /-- Nanoseconds since the beginning. -/
  clock : Nat := 0
  nextPid : Pid := 1000

namespace Machine

def nobody : Pid := 0

/-- The number of the shell itself. -/
def shell : Pid := 1

/-- The number of bytes that a pipe holds. -/
def pipeCapacity : Nat := 65536

/-- How many calls a task makes before it is the turn of the next. -/
def turnLength : Nat := 64

/-- How often all tasks have their turn while the shell only looks. -/
def lookTurns : Nat := 2000

/-- How often all tasks have their turn while the shell waits. -/
def waitTurns : Nat := 10000000

def task? (m : Machine) (pid : Pid) : Option Task := m.tasks.find? (·.pid = pid)

/-- Changes one task. -/
def change (m : Machine) (pid : Pid) (f : Task → Task) : Machine :=
  { m with tasks := m.tasks.map fun t => if t.pid = pid then f t else t }

def setState (m : Machine) (pid : Pid) (state : TaskState) : Machine :=
  m.change pid fun t => { t with state }

def remove (m : Machine) (pid : Pid) : Machine :=
  { m with tasks := m.tasks.filter (·.pid ≠ pid) }

/-- Adds a task. -/
def add (m : Machine) (parent : Pid) (table : DescriptorTable) (cwd : NodeId) (act : Act UInt8) :
    Pid × Machine :=
  (m.nextPid, { m with
    tasks := m.tasks ++ [{ pid := m.nextPid, parent, table, cwd, state := .running act }]
    nextPid := m.nextPid + 1 })

/-- Has a task ended, and nobody is there to be told? -/
def isForgotten (t : Task) : Bool :=
  match t.state with
  | .ended _ => t.parent = nobody
  | _ => false

/-- Ends a task: its descriptors are closed and its children are left to nobody. -/
def finish (m : Machine) (pid : Pid) (how : TaskEnd) : Machine :=
  let tasks := m.tasks.map fun t =>
    if t.pid = pid then { t with table := {}, state := .ended how }
    else if t.parent = pid then { t with parent := nobody }
    else t
  { m with tasks := tasks.filter (!isForgotten ·) }

/-- Does the shell or a task have such a file open? -/
def isOpen (m : Machine) (shellTable : DescriptorTable) (file : FileId → Bool) : Bool :=
  shellTable.holds file || m.tasks.any (·.table.holds file)

/-! ## Starting programs -/

/-- The programs of the system, by name. -/
abbrev ProgramTable := String → Option Program

/-- How many scripts may be interpreted by scripts. -/
def maxInterpreters : Nat := 4

/-- The interpreter that a script names in its first line, and its argument, if any. -/
def interpreter? (content : Bytes) : Option (String × Option String) :=
  match content with
  | 0x23 :: 0x21 :: rest =>
    let line := trim (Utf8.decodeLossy (rest.takeWhile (· ≠ 0x0a)))
    let path := line.takeWhile (!isBlank ·)
    let argument := trim (line.drop path.length)
    if path.isEmpty then none
    else some (String.ofList path, if argument.isEmpty then none else some (String.ofList argument))
  | _ => none

/-- The name of the program that a file starts, and its arguments. -/
def load (files : FileTree) (cwd : NodeId) :
    Nat → String → List String → Except Errno (String × List String)
  | 0, _, _ => .error .tooManyLinks
  | depth + 1, path, arguments => do
    let i ← files.locate cwd path
    if !files.isExecutable i then throw .denied
    match files.node? i with
    | some (.program name) => return (name, arguments)
    | _ =>
      match interpreter? (← files.contentOf i) with
      | none => throw .noExec
      | some (interpreter, argument) =>
        load files cwd depth interpreter
          (interpreter :: argument.toList ++ path :: arguments.tail)

/-- What a new child of the shell does: it becomes its program, or says why not. -/
def boot (image : Image) : Act UInt8 := do
  let e ← .perform (.exec image.path image.arguments image.environment)
  let _ ← .perform (.write Descriptor.error (Utf8.ofString (image.excuse ++ e.text ++ "\n")))
  return 126

end Machine

end LineShell
