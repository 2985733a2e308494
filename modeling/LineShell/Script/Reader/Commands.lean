import LineShell.Script.Reader.Words

/-!
# Reading the commands of a script

A script is read line by line, so that the commands of a line have been carried out when the next
one is read. `Reader.next` reads as many lines as the commands on the first of them need.
-/

namespace LineShell.Script.Reader

/-! ## Redirects -/

/-- The lines of a document up to its delimiter, and the text behind. -/
def takeDocument (stripTabs : Bool) (delimiter : List Char) : Nat → List Char → List Char × List Char
  | 0, text => ([], text)
  | n + 1, text =>
    if text.isEmpty then ([], [])
    else
      let line := text.takeWhile (· ≠ '\n')
      let rest := (text.drop line.length).drop 1
      let line := if stripTabs then line.dropWhile (· = '\t') else line
      if line = delimiter then ([], rest)
      else
        let (lines, rest) := takeDocument stripTabs delimiter n rest
        (line ++ '\n' :: lines, rest)

/-- The characters of a word without any meaning but their own. -/
def literal (word : Word) : List Char :=
  word.flatMap fun part => match part with
    | .text cs _ => cs
    | .parameter name .. => '$' :: name.toList
    | _ => []

def hasQuotes (word : Word) : Bool :=
  word.any fun part => match part with
    | .text _ quoted => quoted
    | _ => false

/-- Reads a redirect that begins with its sign. -/
def readRedirect (n : Nat) (descriptor : Option Nat) : Read Redirect := fun s => do
  let (kind, standard, length, document, strip) : Redirect.Kind × Nat × Nat × Bool × Bool := match s.text with
    | '<' :: '<' :: '-' :: _ => (.document, 0, 3, true, true)
    | '<' :: '<' :: _ => (.document, 0, 2, true, false)
    | '<' :: '&' :: _ => (.copy, 0, 2, false, false)
    | '<' :: _ => (.input, 0, 1, false, false)
    | '>' :: '>' :: _ => (.append, 1, 2, false, false)
    | '>' :: '&' :: _ => (.copy, 1, 2, false, false)
    | '>' :: '|' :: _ => (.output, 1, 2, false, false)
    | _ => (.output, 1, 1, false, false)
  let s := blanks (s.advance length)
  let line := s.line
  let (target, s) ← readWord n s
  if target.isEmpty then unexpected s
  else if !document then return ({ descriptor := descriptor.getD standard, kind, target }, s)
  else
    let ahead := s.text.takeWhile (· ≠ '\n')
    let below := (s.text.drop ahead.length).drop 1
    let (lines, rest) := takeDocument strip (literal target) (below.length + 1) below
    let s := { s with text := ahead ++ '\n' :: rest }
    let word ← if hasQuotes target then .ok [Part.text lines true]
      else (readParts (n + lines.length) .document { text := lines, line }).map (·.1)
    return ({ descriptor := descriptor.getD standard, kind, target := word }, s)

/-- Does a redirect come next? Gives the descriptor that is written ahead of its sign. -/
def redirectAhead (s : Source) : Option (Option Nat × Nat) :=
  let digits := s.text.takeWhile Char.isDigit
  match s.text.drop digits.length with
  | '<' :: _ | '>' :: _ =>
    some (if digits.isEmpty then none else Number.readDigits 0 digits, digits.length)
  | _ => none

/-- Reads the redirects behind a compound command. -/
def readRedirects : Nat → Read (List Redirect)
  | 0 => fail "nesting"
  | n + 1 => fun s =>
    let s := blanks s
    match redirectAhead s with
    | none => .ok ([], s)
    | some (descriptor, length) => do
      let (r, s) ← readRedirect n descriptor (s.advance length)
      let (rs, s) ← readRedirects n s
      return (r :: rs, s)

/-! ## Commands -/

/-- Reserved words that end a list of commands. -/
def terminators : List String := ["then", "elif", "else", "fi", "do", "done", "esac", "\x7d"]

/-- Reads a reserved word. -/
def expect (word : String) : Read Unit := fun s =>
  let s := lineEnds s
  if peekBare s = some word then .ok ((), s.advance word.length)
  else fail (surprise s ++ " (expecting \"" ++ word ++ "\")") s

/-- Is there no command next? -/
def atListEnd (s : Source) : Bool :=
  match s.text with
  | [] | ')' :: _ | ';' :: ';' :: _ => true
  | _ => (peekBare s).any terminators.contains

/-- A variable and its new value, if the word is an assignment. -/
def assignment? (word : Word) : Option (String × Word) :=
  match word with
  | .text cs false :: rest =>
    match Text.splitAt? '=' cs with
    | some (name, value) =>
      if name.head?.any Arithmetic.isNameStart && name.all Arithmetic.isNameChar then
        some (String.ofList name, if value.isEmpty then rest else .text value false :: rest)
      else none
    | none => none
  | _ => none

/-- What a simple command is made of. -/
structure Simple where
  assignments : List (String × Word) := []
  words : List Word := []
  redirects : List Redirect := []

/-- Reads the words and redirects of a simple command. -/
def readSimple : Nat → Simple → Read Simple
  | 0, _ => fail "nesting"
  | n + 1, c => fun s =>
    let s := blanks s
    match redirectAhead s with
    | some (descriptor, length) => do
      let (r, s) ← readRedirect n descriptor (s.advance length)
      readSimple n { c with redirects := c.redirects ++ [r] } s
    | none =>
      match s.text with
      | [] => .ok (c, s)
      | ch :: _ =>
        if isMeta ch then .ok (c, s)
        else do
          let (word, s) ← readWord n s
          match (if c.words.isEmpty then assignment? word else none) with
          | some a => readSimple n { c with assignments := c.assignments ++ [a] } s
          | none => readSimple n { c with words := c.words ++ [word] } s

/-- Reads the words of a loop, up to the end of the line. -/
def readItems : Nat → Read (List Word)
  | 0 => fail "nesting"
  | n + 1 => fun s =>
    let s := blanks s
    match s.text with
    | [] => .ok ([], s)
    | c :: _ =>
      if isMeta c then .ok ([], s)
      else do
        let (word, s) ← readWord n s
        let (words, s) ← readItems n s
        return (word :: words, s)

/-- Reads the patterns of an alternative, up to the parenthesis. -/
def readPatterns : Nat → Read (List Word)
  | 0 => fail "nesting"
  | n + 1 => fun s => do
    let (word, s) ← readWord n (blanks s)
    let s := blanks s
    match s.text with
    | '|' :: _ =>
      let (words, s) ← readPatterns n (s.advance 1)
      return (word :: words, s)
    | ')' :: _ => return ([word], s.advance 1)
    | _ => fail (surprise s ++ " (expecting \")\")") s

/-- Puts redirects around a command. -/
def withRedirects (line : Nat) (body : Command) (redirects : List Redirect) : Command :=
  if redirects.isEmpty then body else .redirected line body redirects

mutual

/-- Reads a list of commands up to a word that ends it. -/
def readList : Nat → Read Command
  | 0 => fail "nesting"
  | n + 1 => fun s =>
    let s := lineEnds s
    if atListEnd s then .ok (.nothing, s)
    else do
      let (first, s) ← readAndOr n s
      let s := blanks s
      match s.text with
      | ';' :: ';' :: _ => return (first, s)
      | ';' :: _ | '\n' :: _ =>
        let (rest, s) ← readList n (s.advance 1)
        return (.sequence first rest, s)
      | '&' :: _ =>
        let (rest, s) ← readList n (s.advance 1)
        return (.sequence (.background first) rest, s)
      | _ => return (first, s)

/-- Reads pipelines joined by conditions. -/
def readAndOr : Nat → Read Command
  | 0 => fail "nesting"
  | n + 1 => fun s => do
    let (first, s) ← readPipeline n s
    readAndOrRest n first s

/-- Reads on behind a pipeline. -/
def readAndOrRest : Nat → Command → Read Command
  | 0, _ => fail "nesting"
  | n + 1, first => fun s =>
    let s := blanks s
    match s.text with
    | '&' :: '&' :: _ => do
      let (second, s) ← readPipeline n (lineEnds (s.advance 2))
      readAndOrRest n (.both first second) s
    | '|' :: '|' :: _ => do
      let (second, s) ← readPipeline n (lineEnds (s.advance 2))
      readAndOrRest n (.either first second) s
    | _ => .ok (first, s)

/-- Reads commands joined by pipes. -/
def readPipeline : Nat → Read Command
  | 0 => fail "nesting"
  | n + 1 => fun s =>
    let s := blanks s
    if peekBare s = some "!" then do
      let (body, s) ← readPipeline n (s.advance 1)
      return (.negated body, s)
    else do
      let (first, s) ← readCommand n s
      let s := blanks s
      match s.text with
      | '|' :: '|' :: _ => return (first, s)
      | '|' :: _ =>
        let (rest, s) ← readPipeline n (lineEnds (s.advance 1))
        return (.pipe first rest, s)
      | _ => return (first, s)

/-- Reads one command. -/
def readCommand : Nat → Read Command
  | 0 => fail "nesting"
  | n + 1 => fun s =>
    let s := blanks s
    let line := s.line
    let finish (body : Command) (s : Source) : Except SyntaxFault (Command × Source) := do
      let (redirects, s) ← readRedirects n s
      return (withRedirects line body redirects, s)
    match s.text with
    | '(' :: _ => do
      let (body, s) ← readList n (s.advance 1)
      match s.text with
      | ')' :: _ => finish (.subshell body) (s.advance 1)
      | _ => fail (surprise s ++ " (expecting \")\")") s
    | _ =>
      match peekBare s with
      | some "\x7b" => do
        let (body, s) ← readList n (s.advance 1)
        let ((), s) ← expect "\x7d" s
        finish body s
      | some "if" => do
        let (body, s) ← readBranch n (s.advance 2)
        finish body s
      | some "while" => do
        let (condition, s) ← readList n (s.advance 5)
        let (body, s) ← readDo n s
        finish (.loop false condition body) s
      | some "until" => do
        let (condition, s) ← readList n (s.advance 5)
        let (body, s) ← readDo n s
        finish (.loop true condition body) s
      | some "for" => do
        let s := blanks (s.advance 3)
        let (word, s) ← readWord n s
        match bare? word with
        | none => fail "Bad for loop variable" s
        | some name =>
          let s := lineEnds s
          if peekBare s = some "in" then
            let (words, s) ← readItems n (s.advance 2)
            let s := blanks s
            let s := match s.text with
              | ';' :: _ => s.advance 1
              | _ => s
            let (body, s) ← readDo n s
            finish (.each line (String.ofList name) (some words) body) s
          else
            let s := match s.text with
              | ';' :: _ => s.advance 1
              | _ => s
            let (body, s) ← readDo n s
            finish (.each line (String.ofList name) none body) s
      | some "case" => do
        let (word, s) ← readWord n (blanks (s.advance 4))
        let ((), s) ← expect "in" s
        let (arms, s) ← readArms n s
        finish (.select line word arms) s
      | first =>
        if first.any terminators.contains then unexpected s
        else do
          let (c, s) ← readSimple n {} s
          if c.assignments.isEmpty && c.words.isEmpty && c.redirects.isEmpty then unexpected s
          else match c.words, s.text with
            | [word], '(' :: rest =>
              let rest := rest.dropWhile isBlank
              match bare? word, rest with
              | some name, ')' :: rest =>
                let (body, s) ← readCommand n (lineEnds { s with text := rest })
                return (.define (String.ofList name) body, s)
              | _, _ => unexpected s
            | _, '(' :: _ => unexpected s
            | _, _ => return (.simple line c.assignments c.words c.redirects, s)

/-- Reads a conditional behind its first word. -/
def readBranch : Nat → Read Command
  | 0 => fail "nesting"
  | n + 1 => fun s => do
    let (condition, s) ← readList n s
    let ((), s) ← expect "then" s
    let (body, s) ← readList n s
    let s := lineEnds s
    match peekBare s with
    | some "elif" =>
      let (otherwise, s) ← readBranch n (s.advance 4)
      return (.branch condition body otherwise, s)
    | some "else" =>
      let (otherwise, s) ← readList n (s.advance 4)
      let ((), s) ← expect "fi" s
      return (.branch condition body otherwise, s)
    | _ =>
      let ((), s) ← expect "fi" s
      return (.branch condition body .nothing, s)

/-- Reads the body of a loop. -/
def readDo : Nat → Read Command
  | 0 => fail "nesting"
  | n + 1 => fun s => do
    let ((), s) ← expect "do" s
    let (body, s) ← readList n s
    let ((), s) ← expect "done" s
    return (body, s)

/-- Reads the alternatives of a selection, and the word that ends it. -/
def readArms : Nat → Read Arms
  | 0 => fail "nesting"
  | n + 1 => fun s => do
    let s := lineEnds s
    if peekBare s = some "esac" then return (.none, s.advance 4)
    else
      let s := match s.text with
        | '(' :: _ => s.advance 1
        | _ => s
      let (patterns, s) ← readPatterns n s
      let (body, s) ← readList n s
      let s := lineEnds s
      match s.text with
      | ';' :: ';' :: _ =>
        let (rest, s) ← readArms n (s.advance 2)
        return (.arm patterns body rest, s)
      | _ =>
        let ((), s) ← expect "esac" s
        return (.arm patterns body .none, s)

end

/-- Reads the commands of the next line; there are none at the end of the text. -/
def readLine : Nat → Read (Option Command)
  | 0 => fail "nesting"
  | n + 1 => fun s =>
    let s := lineEnds s
    if s.text.isEmpty then .ok (none, s)
    else do
      let (first, s) ← readAndOr n s
      let (c, s) ← readLineRest n first s
      return (some c, s)
where
  /-- Reads on behind a command, up to the end of the line. -/
  readLineRest : Nat → Command → Read Command
    | 0, _ => fail "nesting"
    | n + 1, first => fun s => do
      let s := blanks s
      let next (first : Command) (s : Source) : Except SyntaxFault (Command × Source) := do
        let s := blanks s
        match s.text with
        | [] | '\n' :: _ => return (first, s)
        | _ =>
          let (second, s) ← readAndOr n s
          let (rest, s) ← readLineRest n second s
          return (.sequence first rest, s)
      match s.text with
      | [] | '\n' :: _ => return (first, s)
      | ';' :: ';' :: _ => unexpected s
      | ';' :: _ => next first (s.advance 1)
      | '&' :: _ => next (.background first) (s.advance 1)
      | _ => unexpected s

/-- Reads the next commands of a text. -/
def next (s : Source) : Except SyntaxFault (Option Command × Source) :=
  readLine (depthFor s.text) s

end LineShell.Script.Reader
