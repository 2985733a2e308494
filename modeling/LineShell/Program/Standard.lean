import LineShell.Program.FileTools
import LineShell.Script.Interpreter
import LineShell.System.Machine

/-!
# The standard system

The programs that a system comes with, and the file tree in which they are found.
-/

namespace LineShell.Standard

/-- The programs, by name. -/
def programs : List (String × Program) :=
  [("[", Program.test), ("basename", Program.baseName), ("cat", Program.cat), ("chmod", Program.chmod),
   ("cp", Program.cp), ("cut", Program.cut), ("dash", Script.Interpreter.program),
   ("dirname", Program.dirName), ("echo", Program.echo), ("env", Program.env),
   ("false", Program.ending 1), ("head", Program.head), ("kill", Program.kill), ("ln", Program.ln),
   ("ls", Program.ls), ("mkdir", Program.mkdir), ("mv", Program.mv), ("printenv", Program.printEnv),
   ("printf", Program.printf), ("pwd", Program.pwd), ("readlink", Program.readLink), ("rev", Program.rev),
   ("rm", Program.rm), ("rmdir", Program.rmdir), ("seq", Program.seq), ("sh", Script.Interpreter.program),
   ("sleep", Program.sleep), ("sort", Program.sort), ("tac", Program.tac), ("tail", Program.tail),
   ("tee", Program.tee), ("test", Program.test), ("touch", Program.touch), ("tr", Program.tr),
   ("true", Program.ending 0), ("uniq", Program.uniq), ("wc", Program.wc), ("yes", Program.yes)]

def programTable : Machine.ProgramTable := fun name => programs.lookup name

/-- The directories of a fresh system. -/
def directories : List (List String) :=
  [["boot"], ["dev"], ["etc"], ["home"], ["media"], ["mnt"], ["opt"], ["proc"], ["root"], ["run"],
   ["srv"], ["sys"], ["tmp"], ["usr", "bin"], ["usr", "lib"], ["usr", "sbin"], ["usr", "share"],
   ["usr", "local", "bin"], ["var", "tmp"]]

/-- The links of a fresh system. -/
def links : List (String × String) :=
  [("bin", "usr/bin"), ("lib", "usr/lib"), ("sbin", "usr/sbin")]

/-- The file tree of a fresh system. -/
def tree : FileTree :=
  let t := directories.foldl (fun t names => (t.makeDirectories FileTree.root names).2) ({} : FileTree)
  let (bin, t) := t.makeDirectories FileTree.root ["usr", "bin"]
  let t := programs.foldl (fun t (name, _) => (t.add bin name (.program name)).2) t
  let (dev, t) := t.makeDirectories FileTree.root ["dev"]
  let t := (t.add dev "null" .null).2
  links.foldl (fun t (name, target) => (t.add FileTree.root name (.link target)).2) t

/-- The system as the kernel of a shell. -/
def kernel : Kernel Machine := Machine.kernel programTable

end LineShell.Standard
