import LineShell.Pipeline.Basic
import LineShell.Shell.State

/-!
# Launching a pipeline

Stages are launched from left to right. A stage is prepared first: its program is found and its
redirect files are opened, the input of the first stage and the output of the last. Then the pipe to
the next stage is made and the child is forked. It reads the pipe from the stage before and writes
the pipe to the stage behind; the ends of the pipeline use the redirect files, or the shell's own
streams.

A failure ends the launch and leaves the shell's descriptors as they were. Between two stages the
shell holds one end of one pipe, which the next stage will read.

| here | function of the shell |
| --- | --- |
| `Host.openFile`, `Host.openTarget` | `Redirect::open` |
| `Host.prepare` | `prepare` |
| `DescriptorTable.wire` | what `exec_stage` does to the descriptors of the child |
| `forkStage` | `JobBuilder::push_fork`, and what a round of `spawn_stages` drops behind it |
| `launchStage`, `launchFrom` | a round of `spawn_stages`, and its loop |
-/

namespace LineShell

/-- A stage that is ready to be forked. -/
structure Launch where
  /-- The file of the program. -/
  path : String
  /-- The redirect files. -/
  input : Option Descriptor
  output : Option Descriptor
  deriving Repr, DecidableEq

namespace Host

/-- Opens a file for the shell itself. -/
def openFile {κ : Type u} (k : Kernel κ) (kernel : κ) (h : Host) (path : String) (mode : OpenMode) :
    Except IoError (Descriptor × Host) :=
  if Path.hasNul path then .error .nulInPath
  else match k.openFault path mode (h.world, kernel) with
    | some e => .error (.system e)
    | none => match h.world.openPath h.cwd path mode with
      | .error e => .error (.system e)
      | .ok (f, world) =>
        let (d, table) := h.table.allocate { file := f, closeOnExec := true }
        .ok (d, { h with world, table })

/-- Opens a redirect file, if there is one. -/
def openTarget {κ : Type u} (k : Kernel κ) (kernel : κ) (h : Host) :
    Option (String × OpenMode) → Except IoError (Option Descriptor × Host)
  | none => .ok (none, h)
  | some (path, mode) => (h.openFile k kernel path mode).map fun (d, h) => (some d, h)

/-- Closes descriptors. -/
def closeAll (h : Host) (ds : List Descriptor) : Host :=
  { h with table := ds.foldl DescriptorTable.close h.table }

/-- Makes a pipe: its reading and its writing end. -/
def makePipe (h : Host) : Descriptor × Descriptor × Host :=
  let (r, w, world) := h.world.makePipe
  let (reader, table) := h.table.allocate { file := r, closeOnExec := true }
  let (writer, table) := table.allocate { file := w, closeOnExec := true }
  (reader, writer, { h with world, table })

/-- The file that a stage opens as its input. Behind the first stage a pipe takes its place. -/
def inputTarget (stage : Stage) (first : Bool) : Option (String × OpenMode) :=
  if first then stage.input.map fun path => (path, .read) else none

/-- The file that a stage opens as its output. Ahead of the last stage a pipe takes its place. -/
def outputTarget (stage : Stage) (last : Bool) : Option (String × OpenMode) :=
  if last then stage.output.map fun o => (o.target, .write o.mode) else none

/-- Makes a stage ready (`prepare`), and says what is left of the host if that fails. `first` and `last` say whether it stands at
an end of the pipeline. -/
def prepare {κ : Type u} (k : Kernel κ) (kernel : κ) (h : Host) (stage : Stage) (first last : Bool) :
    Except LaunchCause Launch × Host :=
  match Search.resolve h.world.files h.cwd h.searchPath stage.name with
  | none => (.error .notFound, h)
  | some path =>
    if (stage.name :: stage.arguments).any Path.hasNul then (.error .nulInArgument, h)
    else match h.openTarget k kernel (inputTarget stage first) with
      | .error e => (.error (.io e), h)
      | .ok (input, h) =>
        match h.openTarget k kernel (outputTarget stage last) with
        | .error e => (.error (.io e), h.closeAll input.toList)
        | .ok (output, h) => (.ok { path, input, output }, h)

end Host

/-- The descriptors of a child (`exec_stage`): `unused` is closed, and the given files become its standard input
and output. -/
def DescriptorTable.wire (t : DescriptorTable) (unused input output : Option Descriptor) :
    DescriptorTable :=
  let t := unused.elim t t.close
  let t := input.elim t fun d => t.duplicate d Descriptor.input
  output.elim t fun d => t.duplicate d Descriptor.output

/-- Where a launch stands between two stages. -/
structure Standing (κ : Type u) where
  /-- The reading end of the pipe that the next stage reads. -/
  incoming : Option Descriptor := none
  host : Host
  kernel : κ

/-- What became of one stage. -/
inductive StageResult (κ : Type u) where
  | forked (image : Image) (pid : Pid) (next : Standing κ)
  | failed (cause : LaunchCause) (host : Host) (kernel : κ)

/-- What the launch of a pipeline came to. -/
structure Launched (κ : Type u) where
  /-- The children that were forked. -/
  children : List Child
  failure : Option LaunchError
  host : Host
  kernel : κ

variable {κ : Type u}

/-- Forks a stage that is ready. The shell keeps the reading end of the pipe to the next stage, and
nothing else of what it opened. -/
def forkStage (k : Kernel κ) (shellName : String) (stage : Stage) (launch : Launch)
    (incoming reader writer : Option Descriptor) (h : Host) (kernel : κ) : StageResult κ :=
  let held := incoming.toList ++ launch.input.toList ++ launch.output.toList ++ writer.toList
  let image : Image := {
    path := launch.path
    arguments := stage.name :: stage.arguments
    table := h.table.wire reader (incoming.or launch.input) (writer.or launch.output)
    cwd := h.cwd
    environment := h.environment
    excuse := "-" ++ shellName ++ ": " ++ stage.name ++ ": " }
  match k.fork image (h.world, kernel) with
  | (.error e, world, kernel) =>
    .failed (.io (.system e)) ({ h with world }.closeAll (held ++ reader.toList)) kernel
  | (.ok pid, world, kernel) => .forked image pid ⟨reader, { h with world }.closeAll held, kernel⟩

/-- Launches one stage, in a round of `spawn_stages`. `first` and `last` say whether it stands at an end of the pipeline. -/
def launchStage (k : Kernel κ) (shellName : String) (first last : Bool) (stage : Stage)
    (st : Standing κ) : StageResult κ :=
  match st.host.prepare k st.kernel stage first last with
  | (.error cause, h) => .failed cause (h.closeAll st.incoming.toList) st.kernel
  | (.ok launch, h) =>
    if last then forkStage k shellName stage launch st.incoming none none h st.kernel
    else match k.pipeFault (h.world, st.kernel) with
      | some e =>
        .failed (.io (.system e))
          (h.closeAll (st.incoming.toList ++ launch.input.toList ++ launch.output.toList)) st.kernel
      | none =>
        let (reader, writer, h) := h.makePipe
        forkStage k shellName stage launch st.incoming (some reader) (some writer) h st.kernel

/-- Launches stages from left to right until one fails (`spawn_stages`). -/
def launchFrom (k : Kernel κ) (shellName : String) (first : Bool) : List Stage → Standing κ → Launched κ
  | [], st => ⟨[], none, st.host.closeAll st.incoming.toList, st.kernel⟩
  | stage :: later, st =>
    match launchStage k shellName first later.isEmpty stage st with
    | .failed cause host kernel => ⟨[], some ⟨stage.name, cause⟩, host, kernel⟩
    | .forked _ pid next =>
      let r := launchFrom k shellName false later next
      { r with children := { pid, stage := stage.name } :: r.children }

end LineShell
