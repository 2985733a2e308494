import LineShell.Script.Arithmetic
import LineShell.Script.Grammar

/-!
# Reading the words of a script

The reader takes characters from the front of a text and counts lines. Every function descends at
most so deep as its first argument says; `Reader.depthFor` gives enough for a text.
-/

namespace LineShell.Script

/-- Why a text is no script. -/
structure SyntaxFault where
  line : Nat
  message : String

/-- The text still to be read. -/
structure Source where
  text : List Char
  line : Nat := 1

/-- Drops characters and counts the lines. -/
def Source.advance (s : Source) (n : Nat) : Source :=
  { text := s.text.drop n, line := s.line + (s.text.take n).count '\n' }

namespace Reader

/-- Reads something from the front of a text. -/
abbrev Read (α : Type) := Source → Except SyntaxFault (α × Source)

def fail {α : Type} (message : String) (s : Source) : Except SyntaxFault α := .error ⟨s.line, message⟩

/-- The same for what is found out at the end of the text. -/
def failAtEnd {α : Type} (message : String) (s : Source) : Except SyntaxFault α :=
  .error ⟨s.line + s.text.count '\n', message⟩

def depthFor (text : List Char) : Nat := 8 * text.length + 64

/-- Drops blanks, comments and joined lines. -/
def skipBlanks : Nat → Source → Source
  | 0, s => s
  | n + 1, s =>
    match s.text with
    | ' ' :: rest | '\t' :: rest => skipBlanks n { s with text := rest }
    | '\\' :: '\n' :: rest => skipBlanks n { text := rest, line := s.line + 1 }
    | '#' :: rest => { s with text := rest.dropWhile (· ≠ '\n') }
    | _ => s

def blanks (s : Source) : Source := skipBlanks (s.text.length + 1) s

/-- Drops blanks, comments and line ends. -/
def skipLines : Nat → Source → Source
  | 0, s => s
  | n + 1, s =>
    let s := blanks s
    match s.text with
    | '\n' :: rest => skipLines n { text := rest, line := s.line + 1 }
    | _ => s

def lineEnds (s : Source) : Source := skipLines (s.text.length + 1) s

/-- Does the character end a word? -/
def isMeta (c : Char) : Bool := " \t\n;&|<>()".toList.contains c

/-! ## Words -/

/-- The text up to a closing parenthesis, where quotes and inner parentheses are skipped over. -/
def upToParenthesis : Nat → Option Char → List Char → Option (List Char × List Char)
  | _, _, [] => none
  | depth, quote, c :: cs =>
    let go (depth : Nat) (quote : Option Char) : Option (List Char × List Char) :=
      (upToParenthesis depth quote cs).map fun (inside, rest) => (c :: inside, rest)
    match quote with
    | some q =>
      if c = '\\' && q = '\x22' then
        match cs with
        | d :: cs' => (upToParenthesis depth quote cs').map fun (inside, rest) => (c :: d :: inside, rest)
        | [] => none
      else if c = q then go depth none else go depth quote
    | none =>
      if c = '\\' then
        match cs with
        | d :: cs' => (upToParenthesis depth quote cs').map fun (inside, rest) => (c :: d :: inside, rest)
        | [] => none
      else if c = '\x22' || c = '\x27' then go depth (some c)
      else if c = '(' then go (depth + 1) none
      else if c = ')' then (if depth = 0 then some ([], cs) else go (depth - 1) none)
      else go depth none

/-- The text up to a backquote; a backslash takes away the meaning of some characters. -/
def upToBackquote : List Char → Option (List Char × List Char)
  | [] => none
  | '\\' :: c :: cs =>
    (upToBackquote cs).map fun (inside, rest) =>
      (if c = '\x60' || c = '\\' || c = '$' then c :: inside else '\\' :: c :: inside, rest)
  | c :: cs =>
    if c = '\x60' then some ([], cs)
    else (upToBackquote cs).map fun (inside, rest) => (c :: inside, rest)

/-- The parameters that are named by a sign. -/
def isSpecial (c : Char) : Bool := "@*#?-$!".toList.contains c

/-- Reads the operation of a parameter in braces, up to its word. -/
def readOperation (cs : List Char) : Operation × List Char :=
  match cs with
  | ':' :: '-' :: rest => (.default true, rest)
  | ':' :: '=' :: rest => (.assign true, rest)
  | ':' :: '?' :: rest => (.require true, rest)
  | ':' :: '+' :: rest => (.alternative true, rest)
  | '-' :: rest => (.default false, rest)
  | '=' :: rest => (.assign false, rest)
  | '?' :: rest => (.require false, rest)
  | '+' :: rest => (.alternative false, rest)
  | '#' :: '#' :: rest => (.cutStart true, rest)
  | '#' :: rest => (.cutStart false, rest)
  | '%' :: '%' :: rest => (.cutEnd true, rest)
  | '%' :: rest => (.cutEnd false, rest)
  | _ => (.value, cs)

/-- The name of a parameter that a text begins with. -/
def parameterName (cs : List Char) : List Char :=
  match cs with
  | [] => []
  | c :: _ =>
    if Arithmetic.isNameStart c then cs.takeWhile Arithmetic.isNameChar
    else if c.isDigit then cs.takeWhile Char.isDigit
    else if isSpecial c then [c]
    else []

/-- Joins neighbouring characters that are quoted alike. -/
def join (part : Part) (parts : List Part) : List Part :=
  match part, parts with
  | .text cs quoted, .text cs' quoted' :: rest =>
    if quoted = quoted' then .text (cs ++ cs') quoted :: rest else part :: parts
  | _, _ => part :: parts

/-- How far a run of parts goes. -/
inductive Extent where
  /-- To the end of a word. -/
  | word
  /-- To a double quote. -/
  | quotes
  /-- To a closing brace; the flag says that it all stands in double quotes. -/
  | braces (quoted : Bool)
  /-- To the end of the text, as if in double quotes. -/
  | document

def Extent.isQuoted : Extent → Bool
  | .word => false
  | .quotes => true
  | .braces quoted => quoted
  | .document => true

/-- Reads parts up to an extent. What ends it is left to be read. -/
def readParts : Nat → Extent → Read Word
  | 0, _ => fail "nesting"
  | n + 1, extent => fun s =>
    let quoted := extent.isQuoted
    let more (part : Part) (count : Nat) : Except SyntaxFault (Word × Source) := do
      let (parts, s) ← readParts n extent (s.advance count)
      return (join part parts, s)
    match s.text with
    | [] => match extent with
      | .word | .document => .ok ([], s)
      | .quotes => fail "Unterminated quoted string" s
      | .braces _ => fail "Missing '\x7d'" s
    | c :: cs =>
      let ends := match extent with
        | .word => isMeta c
        | .quotes => c = '\x22'
        | .braces _ => c = '\x7d'
        | .document => false
      if ends then .ok ([], s)
      else if c = '\\' then
        match cs with
        | [] => more (.text ['\\'] true) 1
        | '\n' :: _ => do
          let (parts, s) ← readParts n extent (s.advance 2)
          return (parts, s)
        | d :: _ =>
          let escapes := if quoted then d = '$' || d = '\x60' || d = '\\' || (d = '\x22' && extent matches .quotes)
              || (d = '\x7d' && extent matches .braces _)
            else true
          if escapes then more (.text [d] true) 2 else more (.text ['\\', d] true) 2
      else if c = '\x27' && !quoted then
        let inside := cs.takeWhile (· ≠ '\x27')
        if inside.length = cs.length then failAtEnd "Unterminated quoted string" s
        else more (.text inside true) (inside.length + 2)
      else if c = '\x22' && !(extent matches .document) then do
        let (parts, s) ← readParts n .quotes (s.advance 1)
        let (rest, s) ← readParts n extent (s.advance 1)
        return ((if parts.isEmpty then [.text [] true] else parts) ++ rest, s)
      else if c = '\x60' then
        match upToBackquote cs with
        | none => fail "EOF in backquote substitution" s
        | some (source, rest) => more (.output source quoted) (s.text.length - rest.length)
      else if c = '$' then readDollar n quoted extent s cs
      else more (.text [c] quoted) 1
where
  readDollar (n : Nat) (quoted : Bool) (extent : Extent) (s : Source) (cs : List Char) :
      Except SyntaxFault (Word × Source) :=
    let more (part : Part) (count : Nat) : Except SyntaxFault (Word × Source) := do
      let (parts, s) ← readParts n extent (s.advance count)
      return (join part parts, s)
    match cs with
    | '(' :: '(' :: rest =>
      match upToParenthesis 0 none rest with
      | some (inside, ')' :: rest') => do
        let (parts, _) ← readParts n .document { text := inside, line := s.line }
        more (.arithmetic parts quoted) (s.text.length - rest'.length)
      | _ => fail "Missing '))'" s
    | '(' :: rest =>
      match upToParenthesis 0 none rest with
      | some (inside, rest') => more (.output inside quoted) (s.text.length - rest'.length)
      | none => failAtEnd "end of file unexpected (expecting \")\")" s
    | '\x7b' :: rest => do
      let isLength := match rest with
        | '#' :: d :: _ => d ≠ '\x7d' && (Arithmetic.isNameChar d || d = '@' || d = '*')
        | _ => false
      let rest := if isLength then rest.drop 1 else rest
      let name := parameterName rest
      if name.isEmpty then fail "Bad substitution" s
      else
        let rest := rest.drop name.length
        let (operation, rest) := if isLength then (Operation.length, rest) else readOperation rest
        let inside := s.advance (s.text.length - rest.length)
        let inQuotes := match operation with
          | .cutStart _ | .cutEnd _ => false
          | _ => quoted
        let (word, s) ← readParts n (.braces inQuotes) inside
        let (parts, s) ← readParts n extent (s.advance 1)
        return (.parameter (String.ofList name) operation word quoted :: parts, s)
    | _ =>
      let name := match parameterName cs with
        | c :: rest => if c.isDigit then [c] else c :: rest
        | [] => []
      if name.isEmpty then more (.text ['$'] quoted) 1
      else more (.parameter (String.ofList name) .value [] quoted) (name.length + 1)

/-- Reads a word. -/
def readWord (n : Nat) : Read Word := readParts n .word

/-- The text of a word that is written without quotes. -/
def bare? : Word → Option (List Char)
  | [.text cs false] => some cs
  | _ => none

/-- The word that the text begins with, if it is written without quotes. -/
def peekBare (s : Source) : Option String :=
  let cs := s.text.takeWhile fun c => !isMeta c && c ≠ '\x22' && c ≠ '\x27' && c ≠ '\\' && c ≠ '$' && c ≠ '\x60'
  match s.text.drop cs.length with
  | [] => if cs.isEmpty then none else some (String.ofList cs)
  | c :: _ => if isMeta c && !cs.isEmpty then some (String.ofList cs) else none

/-- What stands where it is not expected. -/
def surprise (s : Source) : String :=
  match s.text with
  | [] => "end of file unexpected"
  | '\n' :: _ => "newline unexpected"
  | '&' :: '&' :: _ => "\"&&\" unexpected"
  | '|' :: '|' :: _ => "\"||\" unexpected"
  | ';' :: ';' :: _ => "\";;\" unexpected"
  | c :: _ => "\"" ++ (peekBare s).getD (String.singleton c) ++ "\" unexpected"

def unexpected {α : Type} (s : Source) : Except SyntaxFault α := fail (surprise s) s

end Reader

end LineShell.Script
