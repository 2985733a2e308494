/-!
# Builtin commands

The names of the commands that the shell executes itself.

| here | function of the shell |
| --- | --- |
| `Builtin.names` | `NAMES` |
| `Builtin.ofName?` | `match_builtin` |
-/

namespace LineShell

inductive Builtin where
  | bookmark
  | cd
  | exit
  | pingsweep
  | short
  deriving Repr, DecidableEq

namespace Builtin

def name : Builtin → String
  | .bookmark => "bookmark"
  | .cd => "cd"
  | .exit => "exit"
  | .pingsweep => "pingsweep"
  | .short => "short"

/-- All builtins, in the order of their names. -/
def all : List Builtin := [.bookmark, .cd, .exit, .pingsweep, .short]

/-- The names that are offered for completion. -/
def names : List String := all.map name

/-- The builtin of that name (`match_builtin`). -/
def ofName? : String → Option Builtin
  | "bookmark" => some .bookmark
  | "cd" => some .cd
  | "exit" => some .exit
  | "pingsweep" => some .pingsweep
  | "short" => some .short
  | _ => none

end Builtin

end LineShell
