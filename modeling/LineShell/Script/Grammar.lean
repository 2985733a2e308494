/-!
# The language of scripts

A script is a sequence of commands. Words are made of parts: text as it is written, and parts that
are replaced when the command is run.
-/

namespace LineShell.Script

/-- What is done with the value of a parameter. The flag says that an empty value counts as none. -/
inductive Operation where
  | value
  | length
  | default (emptyToo : Bool)
  | assign (emptyToo : Bool)
  | require (emptyToo : Bool)
  | alternative (emptyToo : Bool)
  | cutStart (longest : Bool)
  | cutEnd (longest : Bool)
  deriving DecidableEq

/-- A part of a word. -/
inductive Part where
  | text (cs : List Char) (quoted : Bool)
  | parameter (name : String) (operation : Operation) (word : List Part) (quoted : Bool)
  /-- The output of a script. -/
  | output (source : List Char) (quoted : Bool)
  | arithmetic (word : List Part) (quoted : Bool)

abbrev Word := List Part

/-- What becomes of a descriptor. -/
inductive Redirect.Kind where
  | input
  | output
  | append
  /-- Stands for the same as another descriptor. -/
  | copy
  /-- Reads a text of the script itself. -/
  | document

structure Redirect where
  descriptor : Nat
  kind : Redirect.Kind
  target : Word

mutual

inductive Command where
  | nothing
  | simple (line : Nat) (assignments : List (String × Word)) (words : List Word) (redirects : List Redirect)
  | redirected (line : Nat) (body : Command) (redirects : List Redirect)
  /-- A command whose output the next one reads. -/
  | pipe (first rest : Command)
  | negated (body : Command)
  | both (first second : Command)
  | either (first second : Command)
  | sequence (first second : Command)
  | background (body : Command)
  | subshell (body : Command)
  | branch (condition body otherwise : Command)
  | loop (isUntil : Bool) (condition body : Command)
  /-- Without words, the parameters are gone through. -/
  | each (line : Nat) (name : String) (words : Option (List Word)) (body : Command)
  | select (line : Nat) (word : Word) (arms : Arms)
  | define (name : String) (body : Command)

/-- The alternatives of a selection. -/
inductive Arms where
  | none
  | arm (patterns : List Word) (body : Command) (rest : Arms)

end

instance : Inhabited Command := ⟨.nothing⟩

end LineShell.Script
