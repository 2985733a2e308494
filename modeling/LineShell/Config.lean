import LineShell.Failure

/-!
# Configuration and prompt

The shell is configured from its environment: where it keeps its records, and who uses it.

| here | function of the shell |
| --- | --- |
| `Config`, `Config.ofEnvironment` | `Config::new`, `Config::from_env` |
| `Config.prompt` | `render` |
-/

namespace LineShell

/-- The name that the shell gives itself. -/
def Config.shellName : String := "shellington"

structure Config where
  /-- The name in prompts and messages. -/
  name : String := Config.shellName
  /-- The directory of the bookmark and shortcut records. -/
  dataDir : String
  /-- The length in bytes at which a line ends by itself. -/
  lineCapacity : Nat := 4095
  user : Option String := none
  deriving Repr, DecidableEq

namespace Config

/-- The variables that the configuration is read from. -/
def dataDirVariable : String := "SHELLINGTON_DATA_DIR"

def userVariable : String := "USER"

/-- The configuration of an environment. Without a data directory, or with an empty one, records are
kept in the working directory, which then has to exist. -/
def ofEnvironment (dataDir user : Option String) (workingDirectory : Except Errno String) :
    Except IoError Config :=
  match dataDir.filter (!·.toList.isEmpty) with
  | some dir => .ok { dataDir := dir, user }
  | none =>
    match workingDirectory with
    | .ok dir => .ok { dataDir := dir, user }
    | .error e => .error (.system e)

/-- The prompt (`render`); what is unknown is left out. -/
def prompt (c : Config) (host : String) (workingDirectory : Except Errno String) : String :=
  c.user.getD "" ++ "@" ++ host ++ ":" ++ workingDirectory.toOption.getD "" ++ " " ++ c.name ++ "$ "

end Config

end LineShell
