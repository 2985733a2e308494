import LineShell.Program.Standard
import LineShell.Shell.Conversation

/-!
# The command line

The shell reads lines from standard input and runs them in the standard system, in the directory that
it was started from. What it writes is shown when the conversation is over.
-/

namespace LineShell

/-- The variables that the shell takes over from its surroundings. -/
def inherited : List String := ["PATH", Config.dataDirVariable, Config.userVariable]

/-- How many turns a conversation may have. -/
def turnLimit : Nat := 1000000

/-- Everything that a stream still holds. -/
partial def readToEnd (stream : IO.FS.Stream) (before : ByteArray) : IO ByteArray := do
  let block ← stream.read 65536
  if block.isEmpty then return before
  readToEnd stream (before ++ block)

end LineShell

open LineShell

def main : IO UInt32 := do
  let input ← readToEnd (← IO.getStdin) .empty
  let environment ← inherited.filterMapM fun name => do
    return (← IO.getEnv name).map (name, ·)
  let place := (Path.ofString ((← IO.getEnv "PWD").getD "/")).names
  let (cwd, files) := Standard.tree.makeDirectories FileTree.root place
  match runShell Standard.kernel turnLimit (.startReading files cwd input.toList environment) {} with
  | none => return 1
  | some (status, host, _) =>
    (← IO.getStdout).write ⟨host.world.out.toArray⟩
    (← IO.getStderr).write ⟨host.world.err.toArray⟩
    return status.toUInt32
