import LineShell.Program.Basic
import LineShell.Script.Grammar
import LineShell.Text.Number

/-!
# The state of an interpreter

An interpreter remembers variables, functions, the parameters of the script and the status of the
last command. Commands may be left before their end: a loop is broken off or goes on, a function
returns, or the whole script ends.
-/

namespace LineShell.Script

structure Session where
  /-- The name of the script, for messages and as parameter zero. -/
  name : String
  parameters : List String := []
  vars : List (String × String) := []
  /-- The variables that other programs are given. -/
  exported : List String := []
  /-- The variables that keep their values. -/
  fixed : List String := []
  /-- The local variables of the function that is being called, with their values outside of it. -/
  locals : Option (List (String × Option String)) := none
  functions : List (String × Command) := []
  status : UInt8 := 0
  /-- The status of the last script in a word of the current command. -/
  wordStatus : UInt8 := 0
  pid : Pid := 0
  parent : Pid := 0
  /-- The last command that was left running. -/
  lastBackground : Option Pid := none
  /-- The line that is carried out. -/
  line : Nat := 1
  /-- The file or the command of the interpreter that is being carried out, where that is not the
  script itself. -/
  place : Option String := none
  /-- How many loops are being carried out. -/
  loops : Nat := 0
  /-- A failing command ends the script. -/
  stopsOnFailure : Bool := false
  /-- A variable that is not set ends the script. -/
  needsVariables : Bool := false
  /-- File names are not expanded. -/
  keepsPatterns : Bool := false
  /-- Commands are shown before they are carried out. -/
  showsCommands : Bool := false
  /-- How many conditions are being tested; failures in them do not end the script. -/
  tested : Nat := 0
  /-- What is done at the end of the script. -/
  atExit : Option String := none

/-- How a command is left before its end. -/
inductive Leave where
  | exit (status : UInt8)
  | return (status : UInt8)
  | break (levels : Nat)
  | continue (levels : Nat)

/-- Something that an interpreter does. -/
abbrev Step (α : Type) := Session → Act (Except Leave α × Session)

namespace Step

def bind {α β : Type} (a : Step α) (f : α → Step β) : Step β := fun s => do
  match ← a s with
  | (.ok r, s) => f r s
  | (.error e, s) => return (.error e, s)

instance : Monad Step where
  pure a := fun s => .done (.ok a, s)
  bind := bind

instance {α : Type} [Inhabited α] : Inhabited (Step α) := ⟨pure default⟩

def act {α : Type} (a : Act α) : Step α := fun s => a.bind fun r => .done (.ok r, s)

def get : Step Session := fun s => .done (.ok s, s)

def modify (f : Session → Session) : Step Unit := fun s => .done (.ok (), f s)

def leave {α : Type} (e : Leave) : Step α := fun s => .done (.error e, s)

/-- Does something and finds out how it was left. -/
def attempt {α : Type} (a : Step α) : Step (Except Leave α) := fun s =>
  (a s).bind fun (r, s) => .done (.ok r, s)

/-- Repeats something until it gives a result. -/
def loop {σ β : Type} (round : σ → Step (σ ⊕ β)) (start : σ) : Step β := fun s =>
  .iterate (fun (a, s) => do
    match ← round a s with
    | (.ok (.inl a), s) => return .inl (a, s)
    | (.ok (.inr b), s) => return .inr (.ok b, s)
    | (.error e, s) => return .inr (.error e, s)) (start, s) .done

/-- Does something with every element, in order. -/
def forEach {α : Type} (f : α → Step Unit) : List α → Step Unit
  | [] => pure ()
  | a :: as => do
    f a
    forEach f as

/-- Does something and lets `finish` follow, however it was left. -/
def ensure {α : Type} (body : Step α) (finish : Step Unit) : Step α := do
  let result ← attempt body
  finish
  match result with
  | .ok r => return r
  | .error e => leave e

def setStatus (status : UInt8) : Step Unit := modify ({ · with status })

/-- The name and the line, as messages begin. -/
def speaker : Step String := do
  let s ← get
  return s.name ++ ": " ++ String.ofList (Number.digits s.line) ++ s.place.elim "" (": " ++ ·)

/-- Complains with the name and the line ahead. -/
def complain (message : String) : Step Unit := do
  act (Program.complain (← speaker) message)

/-- Complains and ends the script. -/
def abort {α : Type} (message : String) (status : UInt8) : Step α := do
  complain message
  leave (.exit status)

/-- Does something in a child, whose status is that of the session at the end. -/
def fork (body : Step Unit) : Step Pid := do
  let s ← get
  let child : Act UInt8 := do
    let (result, s) ← body { s with atExit := none }
    match result with
    | .error (.exit status) | .error (.return status) => return status
    | _ => return s.status
  fun s => .fork child fun pid => .done (.ok pid, s)

/-- What a shell says of a child that was killed. -/
def signalTexts : List (Nat × String) :=
  [(1, "Hangup"), (3, "Quit"), (4, "Illegal instruction"), (5, "Trace/breakpoint trap"), (6, "Aborted"),
   (7, "Bus error"), (8, "Floating point exception"), (9, "Killed"), (10, "User defined signal 1"),
   (11, "Segmentation fault"), (12, "User defined signal 2"), (14, "Alarm clock"), (15, "Terminated"),
   (16, "Stack fault"), (24, "CPU time limit exceeded"), (25, "File size limit exceeded"),
   (26, "Virtual timer expired"), (27, "Profiling timer expired"), (29, "I/O possible"),
   (30, "Power failure"), (31, "Bad system call")]

/-- Tells the user how a child has ended, if that was by a signal. -/
def mention (status : WaitStatus) : Step Unit :=
  match status with
  | .signaled n _ => (signalTexts.lookup n).elim (pure ()) fun text => act (Program.complainLine text)
  | _ => pure ()

/-! ## Variables -/

def value? (name : String) : Step (Option String) := do
  return (← get).vars.lookup name

/-- Gives a variable another value, or none, unless it has to keep its own. -/
def changeVariable (name : String) (value : Option String) : Step Unit := do
  if (← get).fixed.contains name then abort (name ++ ": is read only") 2
  let others (s : Session) := s.vars.filter (·.1 ≠ name)
  match value with
  | some value => modify fun s => { s with vars := (name, value) :: others s }
  | none => modify fun s => { s with vars := others s, exported := s.exported.filter (· ≠ name) }

def setVariable (name value : String) : Step Unit := changeVariable name (some value)

def unsetVariable (name : String) : Step Unit := changeVariable name none

/-- Does something for a while in the name of a file or command. -/
def inPlace {α : Type} (place : String) (body : Step α) : Step α := do
  let before ← get
  modify ({ · with place := some place })
  ensure body (modify ({ · with place := before.place }))

/-- What other programs are given. -/
def environment : Step (List (String × String)) := do
  let s ← get
  return s.exported.reverse.filterMap fun name => (s.vars.lookup name).map fun value => (name, value)

end Step

end LineShell.Script
