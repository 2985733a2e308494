import LineShell.System.Task

/-!
# A system of running programs

The tasks of a machine run only while the shell waits or looks: every task in turn makes a few
calls, until none can go on. Time passes only when all tasks sleep or wait and the shell still waits
for one of them; then it jumps to the next awakening.

A reader of an empty pipe waits while there is a writer, a writer of a full one while there is a
reader; without a reader, writing ends the task. `Machine.kernel` is the machine as the kernel of a
shell.
-/

namespace LineShell.Machine

/-! ## One call -/

/-- What became of a call: it is answered, it has to wait, it is partly done and goes on as another
call, or it ends the task. -/
inductive Progress (ρ : Type) where
  | answer (r : ρ) (w : World) (m : Machine)
  | wait
  | goOn (c : Call ρ) (w : World)
  | finish (how : TaskEnd)

/-- Answers a call with what is found out or changed without other tasks. -/
def reply {ρ : Type} (w : World) (m : Machine) (r : ρ) : Progress ρ := .answer r w m

def read (shellTable : DescriptorTable) (w : World) (m : Machine) (t : Task) (d : Descriptor) (count : Nat) :
    Progress (Except Errno Bytes) :=
  match t.table.file? d with
  | none => reply w m (.error .badDescriptor)
  | some f =>
    match w.read f count with
    | .error e => reply w m (.error e)
    | .ok (bytes, w') =>
      match w.file? f, bytes with
      | some (.reader p), [] =>
        if m.isOpen shellTable (w.isWriter p) then .wait else reply w m (.ok [])
      | _, _ => reply w' m (.ok bytes)

def write (shellTable : DescriptorTable) (w : World) (m : Machine) (t : Task) (d : Descriptor) (bytes : Bytes) :
    Progress (Except Errno Unit) :=
  match t.table.file? d with
  | none => reply w m (.error .badDescriptor)
  | some f =>
    match w.file? f with
    | some (.writer p) =>
      if !m.isOpen shellTable (w.isReader p) then .finish (.killed Signal.pipe)
      else
        let room := pipeCapacity - (w.inPipe p).length
        if room = 0 then .wait
        else match w.write f (bytes.take room) with
          | .error e => reply w m (.error e)
          | .ok w' =>
            match bytes.drop room with
            | [] => reply w' m (.ok ())
            | rest => .goOn (.write d rest) w'
    | _ =>
      match w.write f bytes with
      | .error e => reply w m (.error e)
      | .ok w' => reply w' m (.ok ())

/-- Waits for a child of a task. -/
def await (w : World) (m : Machine) (t : Task) (pid : Option Pid) :
    Progress (Except Errno (Pid × WaitStatus)) :=
  let children := m.tasks.filter fun c => c.parent = t.pid && pid.all (c.pid = ·)
  let ended := children.findSome? fun c => match c.state with
    | .ended how => some (c.pid, how)
    | _ => none
  match ended with
  | some (pid, how) => reply w (m.remove pid) (how.answer.map fun status => (pid, status))
  | none => if children.isEmpty then reply w m (.error .noChild) else .wait

/-- Sends a signal. -/
def signal (w : World) (m : Machine) (t : Task) (pid : Pid) (signal : Nat) : Progress (Except Errno Unit) :=
  match m.task? pid with
  | none => reply w m (.error ⟨3⟩)
  | some target =>
    if Signal.last < signal then reply w m (.error .invalid)
    else if Signal.harmless.contains signal then reply w m (.ok ())
    else if pid = t.pid then .finish (.killed signal)
    else match target.state with
      | .ended _ => reply w m (.ok ())
      | _ => reply w (m.finish pid (.killed signal)) (.ok ())

/-- Makes a call of a task. -/
def perform (shellTable : DescriptorTable) (w : World) (m : Machine) (t : Task) :
    {ρ : Type} → Call ρ → Progress ρ
  | _, .read d count => read shellTable w m t d count
  | _, .write d bytes => write shellTable w m t d bytes
  | _, .openFile path mode =>
    if Path.hasNul path then reply w m (.error .invalid)
    else match w.openPath t.cwd path mode with
      | .error e => reply w m (.error e)
      | .ok (f, w) =>
        let (d, table) := t.table.allocate { file := f }
        reply w (m.change t.pid ({ · with table })) (.ok d)
  | _, .close d => reply w (m.change t.pid ({ · with table := t.table.close d })) ()
  | _, .size d => reply w m (((t.table.file? d).bind w.file?).bind w.sizeOf?)
  | _, .duplicate source target =>
    if (t.table.slot? source).isNone then reply w m (.error .badDescriptor)
    else reply w (m.change t.pid ({ · with table := t.table.duplicate source target })) (.ok ())
  | _, .makePipe =>
    let (r, e, w) := w.makePipe
    let (d, table) := t.table.allocate { file := r }
    let (d', table) := table.allocate { file := e }
    reply w (m.change t.pid ({ · with table })) (d, d')
  | _, .table => reply w m t.table
  | _, .restore table => reply w (m.change t.pid ({ · with table })) ()
  | _, .exec .. => .wait
  | _, .wait pid => await w m t pid
  | _, .kill pid n => signal w m t pid n
  | _, .sleep _ => reply w m ()
  | _, .changeDirectory path =>
    match w.files.locateDirectory t.cwd path with
    | .error e => reply w m (.error e)
    | .ok cwd => reply w (m.change t.pid ({ · with cwd })) (.ok ())
  | _, .files f =>
    let (r, files) := f w.files t.cwd
    reply { w with files } m r
  | _, .self => reply w m (t.pid, t.parent)

/-- Lets a task make its next call: whether it could, and what is different now. -/
def step (programs : ProgramTable) (shellTable : DescriptorTable) (w : World) (m : Machine) (t : Task) :
    Bool × World × Machine :=
  let goOn (act : Act UInt8) (w : World) (m : Machine) := (true, w, m.setState t.pid (.running act))
  match t.state with
  | .ended _ => (false, w, m)
  | .asleep time act => if time ≤ m.clock then goOn act w m else (false, w, m)
  | .running (.done code) => (true, w, m.finish t.pid (.exited code))
  | .running (.iterate round start next) => goOn (.unroll round start next) w m
  | .running (.fork child next) =>
    let (pid, m) := m.add t.pid t.table t.cwd child
    goOn (next pid) w m
  | .running (.call (.exec path arguments environment) next) =>
    match load w.files t.cwd maxInterpreters path arguments with
    | .error e => goOn (next e) w m
    | .ok (name, arguments) =>
      match programs name with
      | none => goOn (next .noExec) w m
      | some program =>
        goOn (program arguments environment) w (m.change t.pid ({ · with table := t.table.afterExec }))
  | .running (.call (.sleep duration) next) =>
    (true, w, m.setState t.pid (.asleep (m.clock + duration) (next ())))
  | .running (.call c next) =>
    match perform shellTable w m t c with
    | .answer r w m => goOn (next r) w m
    | .wait => (false, w, m)
    | .goOn c w => goOn (.call c next) w m
    | .finish how => (true, w, m.finish t.pid how)

/-! ## Running -/

/-- Lets a task make at most so many calls. -/
def turn (programs : ProgramTable) (shellTable : DescriptorTable) (pid : Pid) :
    Nat → World → Machine → Bool × World × Machine
  | 0, w, m => (true, w, m)
  | n + 1, w, m =>
    match m.task? pid with
    | none => (true, w, m)
    | some t =>
      match step programs shellTable w m t with
      | (false, w, m) => (n + 1 < turnLength, w, m)
      | (true, w, m) => turn programs shellTable pid n w m

/-- Gives every task its turn: whether any of them made a call. -/
def turns (programs : ProgramTable) (shellTable : DescriptorTable) (w : World) (m : Machine) :
    Bool × World × Machine :=
  m.tasks.foldl (fun (moved, w, m) t =>
    let (moved', w, m) := turn programs shellTable t.pid turnLength w m
    (moved || moved', w, m)) (false, w, m)

/-- Lets tasks run until none can go on, at most so many turns. -/
def settle (programs : ProgramTable) (shellTable : DescriptorTable) : Nat → World → Machine → World × Machine
  | 0, w, m => (w, m)
  | n + 1, w, m =>
    match turns programs shellTable w m with
    | (false, w, m) => (w, m)
    | (true, w, m) => settle programs shellTable n w m

/-- When the next task awakes. -/
def nextAwakening (m : Machine) : Option Nat :=
  (m.tasks.filterMap fun t => match t.state with
    | .asleep time _ => some time
    | _ => none).min?

/-- How a child of the shell has ended, if it has. -/
def endOf (m : Machine) (pid : Pid) : Option TaskEnd :=
  (m.task? pid).bind fun t => match t.state with
    | .ended how => some how
    | _ => none

/-- Lets tasks run, and time pass, until a task has ended or nothing can happen any more. -/
def runUntilEnd (programs : ProgramTable) (shellTable : DescriptorTable) (pid : Pid) :
    Nat → World → Machine → World × Machine
  | 0, w, m => (w, m)
  | n + 1, w, m =>
    if (m.endOf pid).isSome then (w, m)
    else match turns programs shellTable w m with
      | (true, w, m) => runUntilEnd programs shellTable pid n w m
      | (false, w, m) =>
        match m.nextAwakening with
        | some time => runUntilEnd programs shellTable pid n w { m with clock := max m.clock time }
        | none => (w, m)

/-- Is this a child of the shell? -/
def isChild (m : Machine) (pid : Pid) : Bool := (m.task? pid).any (·.parent = shell)

/-- Waits for a child of the shell. One that can never end counts as killed. -/
def waitFor (programs : ProgramTable) (shellTable : DescriptorTable) (pid : Pid) (mode : WaitMode)
    (s : World × Machine) : WaitAnswer × World × Machine :=
  if !s.2.isChild pid then (.error .noChild, s)
  else match mode with
    | .block =>
      let (w, m) := runUntilEnd programs shellTable pid waitTurns s.1 s.2
      (((m.endOf pid).getD (.killed Signal.kill)).answer, w, m.remove pid)
    | .look =>
      let (w, m) := settle programs shellTable lookTurns s.1 s.2
      match m.endOf pid with
      | some how => (how.answer, w, m.remove pid)
      | none => (.ok .alive, w, m)

/-- Every wait is over with the first answer. -/
theorem waitFor_settles (programs : ProgramTable) (shellTable : DescriptorTable) (pid : Pid)
    (mode : WaitMode) (s : World × Machine) :
    (waitFor programs shellTable pid mode s).1.settles mode = true := by
  have ends : ∀ how : TaskEnd, WaitAnswer.settles mode how.answer = true := by
    intro how
    cases how with
    | exited code => simp [TaskEnd.answer, WaitAnswer.settles, WaitStatus.state]
    | killed n =>
      by_cases h : n ≤ Signal.lastNamed <;>
        simp [TaskEnd.answer, h, WaitAnswer.settles, WaitStatus.state, Errno.invalid, Errno.interrupted]
  unfold waitFor
  split
  · simp [WaitAnswer.settles, Errno.noChild, Errno.interrupted]
  · cases mode with
    | block => exact ends _
    | look =>
      dsimp only
      split
      · exact ends _
      · simp [WaitAnswer.settles]

/-- The machine as the kernel of a shell. -/
def kernel (programs : ProgramTable) : Kernel Machine where
  openFault _ _ _ := none
  pipeFault _ := none
  fork image s :=
    let (pid, m) := s.2.add shell image.table image.cwd (boot image)
    (.ok pid, s.1, m)
  wait := waitFor programs
  patience _ _ := 0
  patience_lt table pid mode s h := by
    rw [waitFor_settles] at h
    cases h

/-- Lets the machine run until nothing can happen before a certain time. -/
def runTo (programs : ProgramTable) (shellTable : DescriptorTable) (limit : Nat) :
    Nat → World → Machine → World × Machine
  | 0, w, m => (w, m)
  | n + 1, w, m =>
    let (w, m) := settle programs shellTable lookTurns w m
    match m.nextAwakening with
    | some time =>
      if time ≤ limit then runTo programs shellTable limit n w { m with clock := max m.clock time } else (w, m)
    | none => (w, m)

end LineShell.Machine
