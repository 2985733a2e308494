import LineShell.System.Errno

/-!
# Why something could not be done

Reading or writing a file fails with an `IoError`; a stage that cannot be launched fails with a
`LaunchError`, which names the stage. Each has one function for its wording, and `LaunchError.status`
is the exit status that stands for the failure.

| here | function of the shell |
| --- | --- |
| `IoError.message` | `describe_io` |
| `LaunchCause`, `LaunchCause.message` | `ExecError` and its wording |
| `LaunchError`, `LaunchError.message` | `LaunchError` and its wording |
| `LaunchError.status` | `status_of` |
-/

namespace LineShell

/-- Why a file could not be opened, read or written. -/
inductive IoError where
  /-- The system refused. -/
  | system (e : Errno)
  /-- The file holds bytes that are no text. -/
  | invalidText
  /-- The path holds a NUL character. -/
  | nulInPath
  /-- Any other cause, in its own words. -/
  | other (text : String)
  deriving Repr, DecidableEq

namespace IoError

def message : IoError → String
  | .system e => e.text
  | .invalidText => "stream did not contain valid UTF-8"
  | .nulInPath => "file name contained an unexpected NUL byte"
  | .other text => text

/-- There is no such file: for a store, the same as an empty one. -/
def isMissing (e : IoError) : Bool := e = .system .noEntry

end IoError

/-- Why a stage could not be launched. -/
inductive LaunchCause where
  | io (e : IoError)
  /-- The name or an argument holds a NUL character, which no program can receive. -/
  | nulInArgument
  | notFound
  deriving Repr, DecidableEq

/-- A launch failure and the stage that caused it. -/
structure LaunchError where
  stage : String
  cause : LaunchCause
  deriving Repr, DecidableEq

/-- The status of a command that was not found. -/
def statusNotFound : UInt8 := 127

/-- The status of a child that could not be turned into its program. -/
def statusNotExecutable : UInt8 := 126

namespace LaunchCause

def message : LaunchCause → String
  | .io e => e.message
  | .nulInArgument => "argument contains a nul byte"
  | .notFound => "command not found"

end LaunchCause

namespace LaunchError

def message (e : LaunchError) : String :=
  e.stage ++ ": " ++ e.cause.message

/-- The status that stands for the failure (`status_of`). -/
def status (e : LaunchError) : UInt8 :=
  if e.cause = .notFound then statusNotFound else 1

end LaunchError

end LineShell
