import LineShell.Config
import LineShell.Editor
import LineShell.Job
import LineShell.Search
import LineShell.System.Kernel

/-!
# The state of a shell

A `Host` is what a process has for itself in the world: its descriptors, its working directory, its
environment, and what it has read but not used of its input. A `Shell` is a host with what the shell
remembers from one line to the next.

Lines that the shell prints go to its standard output. Diagnostics go to its standard error, or are
kept for whoever runs the shell.

| here | function of the shell |
| --- | --- |
| `Shell`, `Shell.start` | `Session`, `Session::new` and `Session::with_diagnostics` |
| `emit`, `report`, `reportFor` | `Session::emit`, `report`, `diagnostic` |
| `reap` | `JobSet::reap` on the jobs of the session |
-/

namespace LineShell

structure Host where
  world : World := {}
  table : DescriptorTable := {}
  cwd : NodeId := FileTree.root
  environment : List (String × String) := []
  /-- What has been read of standard input, and not been used. -/
  unread : Bytes := []
  deriving Repr, DecidableEq

namespace Host

/-- A host with its three standard descriptors: it reads a node, and writes to the streams that the
world keeps. -/
def start (files : FileTree) (cwd input : NodeId) (environment : List (String × String)) : Host :=
  { world := { files, opened := #[.node input .read 0, .output, .error] }
    table.slots := [(Descriptor.input, ⟨0, false⟩), (Descriptor.output, ⟨1, false⟩), (Descriptor.error, ⟨2, false⟩)]
    cwd, environment }

/-- A host that reads the given bytes, from a file that only it can find. -/
def startReading (files : FileTree) (cwd : NodeId) (input : Bytes) (environment : List (String × String)) :
    Host :=
  let (i, files) := files.addNameless (.file input FileTree.newFileMode)
  .start files cwd i environment

/-- Where commands are looked for. -/
def searchPath (h : Host) : Option String := h.environment.lookup "PATH"

/-- The path of the working directory. -/
def workingDirectory (h : Host) : Except Errno String := h.world.files.pathOf h.cwd

/-- Changes the file tree. -/
def withFiles (h : Host) (files : FileTree) : Host := { h with world := { h.world with files } }

/-- Writes to a descriptor; what cannot be written is lost. -/
def write (h : Host) (d : Descriptor) (bytes : Bytes) : Host :=
  match h.table.file? d with
  | none => h
  | some f => match h.world.write f bytes with
    | .ok world => { h with world }
    | .error _ => h

/-- Changes the working directory. -/
def changeDirectory (h : Host) (path : String) : Except Errno Host :=
  if Path.hasNul path then .error .invalid
  else (h.world.files.locateDirectory h.cwd path).map fun cwd => { h with cwd }

end Host

/-- Where diagnostics go. -/
inductive Diagnostics where
  | shown
  | kept (text : Bytes)
  deriving Repr, DecidableEq

structure Shell (κ : Type u) where
  config : Config
  editor : Editor
  /-- The jobs that were left running. -/
  jobs : JobSet := {}
  diagnostics : Diagnostics := .shown
  host : Host
  /-- The other processes. -/
  kernel : κ

namespace Shell

variable {κ : Type u}

/-- A shell at its start. -/
def start (config : Config) (diagnostics : Diagnostics) (host : Host) (kernel : κ) : Shell κ :=
  { config, editor := { capacity := config.lineCapacity }, diagnostics, host, kernel }

/-- The world and the other processes. -/
def system (s : Shell κ) : World × κ := (s.host.world, s.kernel)

def withSystem (s : Shell κ) (system : World × κ) : Shell κ :=
  { s with host := { s.host with world := system.1 }, kernel := system.2 }

/-- Prints a line. -/
def print (s : Shell κ) (line : String) : Shell κ :=
  { s with host := s.host.write Descriptor.output (Utf8.ofString (line ++ "\n")) }

/-- Emits a diagnostic (`Session::emit`). -/
def emit (s : Shell κ) (line : String) : Shell κ :=
  match s.diagnostics with
  | .shown => { s with host := s.host.write Descriptor.error (Utf8.ofString line) }
  | .kept text => { s with diagnostics := .kept (text ++ Utf8.ofString line) }

/-- Reports what went wrong, with the name of the shell ahead. -/
def report (s : Shell κ) (message : String) : Shell κ :=
  s.emit ("-" ++ s.config.name ++ ": " ++ message ++ "\n")

/-- Reports what went wrong with a command. -/
def reportFor (s : Shell κ) (command message : String) : Shell κ :=
  s.report (command ++ ": " ++ message)

/-- Drops the jobs that have ended. -/
def reap (k : Kernel κ) (s : Shell κ) : Shell κ :=
  let (jobs, system) := s.jobs.reap (k.waiter s.host.table) s.system
  { s.withSystem system with jobs }

end Shell

end LineShell
