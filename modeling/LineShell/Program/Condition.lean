import LineShell.Program.Basic

/-!
# Conditions

`test` finds out whether a condition holds that its arguments spell out: about texts, about numbers
and about files.
-/

namespace LineShell.Program.Condition

/-- Why a condition makes no sense. -/
inductive Fault where
  /-- A text that is no number. -/
  | number (text : String)
  /-- The last word that makes sense, and the one behind it. -/
  | unexpected (last next : String)
  /-- An operator without its second operand. -/
  | missing (operator : String)
  | unclosed

/-- A whole number, with blanks around it. -/
def number (text : String) : Except Fault Int :=
  let cs := trim text.toList
  let (negative, digits) := match cs with
    | '-' :: rest => (true, rest)
    | '+' :: rest => (false, rest)
    | _ => (false, cs)
  if digits.isEmpty || !digits.all Char.isDigit then .error (.number text)
  else
    let n : Int := digits.foldl (fun n c => n * 10 + (c.toNat - '0'.toNat)) 0
    .ok (if negative then -n else n)

/-- The node of a path, if there is one; `-h` and `-L` look at a link itself. -/
def node? (t : FileTree) (cwd : NodeId) (path : String) (keep : Bool) : Option Node :=
  match t.locate cwd path keep with
  | .ok i => t.node? i
  | .error _ => none

/-- Conditions about one text or file. -/
def unary (t : FileTree) (cwd : NodeId) (operator operand : String) : Option Bool :=
  let node := node? t cwd operand false
  match operator with
  | "-n" => some !operand.isEmpty
  | "-z" => some operand.isEmpty
  | "-e" | "-r" | "-w" => some node.isSome
  | "-f" => some (match node with
    | some (.file ..) | some (.program _) => true
    | _ => false)
  | "-d" => some (match node with
    | some (.directory ..) => true
    | _ => false)
  | "-c" => some (node = some .null)
  | "-s" => some (match node with
    | some (.file content _) => !content.isEmpty
    | some .null | none => false
    | _ => true)
  | "-x" => some (match t.locate cwd operand with
    | .ok i => t.isExecutable i || t.isDirectory i
    | .error _ => false)
  | "-h" | "-L" => some (match node? t cwd operand true with
    | some (.link _) => true
    | _ => false)
  | "-b" | "-p" | "-S" | "-g" | "-k" | "-u" | "-t" => some false
  | _ => none

/-- Conditions about two texts, numbers or files. -/
def binary (t : FileTree) (cwd : NodeId) (doubled : Bool) (left operator right : String) :
    Option (Except Fault Bool) :=
  let compare (f : Int → Int → Bool) : Except Fault Bool := do
    let m ← number left
    let n ← number right
    return f m n
  match operator with
  | "=" => some (.ok (left = right))
  | "==" => if doubled then some (.ok (left = right)) else none
  | "!=" => some (.ok (left ≠ right))
  | "<" => some (.ok (decide (left < right)))
  | ">" => some (.ok (decide (right < left)))
  | "-eq" => some (compare fun m n => m = n)
  | "-ne" => some (compare fun m n => m ≠ n)
  | "-lt" => some (compare fun m n => m < n)
  | "-le" => some (compare fun m n => m ≤ n)
  | "-gt" => some (compare fun m n => n < m)
  | "-ge" => some (compare fun m n => n ≤ m)
  | "-ef" => some (.ok (match t.locate cwd left, t.locate cwd right with
    | .ok i, .ok j => i = j
    | _, _ => false))
  | "-nt" | "-ot" => some (.ok false)
  | _ => none

/-- Reads an alternative of conjunctions of conditions and finds out whether it holds; gives the
words behind it too. A condition that is missing at the end does not hold. -/
def evaluate (t : FileTree) (cwd : NodeId) (doubled : Bool) :
    Nat → List String → Except Fault (Bool × List String)
  | 0, words => .ok (false, words)
  | depth + 1, words => do
    let (b, rest) ← conjunction depth words
    match rest with
    | "-o" :: rest =>
      let (b', rest) ← evaluate t cwd doubled depth rest
      return (b || b', rest)
    | _ => return (b, rest)
where
  conjunction : Nat → List String → Except Fault (Bool × List String)
    | 0, words => .ok (false, words)
    | depth + 1, words => do
      let (b, rest) ← single depth words
      match rest with
      | "-a" :: rest =>
        let (b', rest) ← conjunction depth rest
        return (b && b', rest)
      | _ => return (b, rest)
  single : Nat → List String → Except Fault (Bool × List String)
    | 0, words => .ok (false, words)
    | _, [] => .ok (false, [])
    | depth + 1, word :: rest =>
      match rest with
      | operator :: right :: rest' =>
        match binary t cwd doubled word operator right with
        | some result => result.map fun b => (b, rest')
        | none => simple depth word rest
      | [operator] =>
        if (binary t cwd doubled word operator "").isSome then .error (.missing operator)
        else simple depth word rest
      | [] => simple depth word rest
  simple (depth : Nat) (word : String) (rest : List String) : Except Fault (Bool × List String) :=
    match word, rest with
    | "!", _ :: _ => (single depth rest).map fun (b, rest) => (!b, rest)
    | "(", _ :: _ => do
      let (b, rest) ← evaluate t cwd doubled depth rest
      match rest with
      | ")" :: rest => return (b, rest)
      | _ => throw .unclosed
    | _, operand :: rest' =>
      match unary t cwd word operand with
      | some b => .ok (b, rest')
      | none => .ok (!word.isEmpty, rest)
    | _, [] => .ok (!word.isEmpty, [])

/-- Does the condition hold? -/
def holds (t : FileTree) (cwd : NodeId) (doubled : Bool) (words : List String) : Except Fault Bool :=
  match words with
  | [] => .ok false
  | [word] => .ok !word.isEmpty
  | _ => do
    let (b, rest) ← evaluate t cwd doubled (3 * words.length + 3) words
    match rest with
    | [] => return b
    | next :: _ => throw (.unexpected ((words[words.length - rest.length - 1]?).getD "") next)

end LineShell.Program.Condition

namespace LineShell.Program

/-- How a program speaks of a condition that makes no sense. -/
structure TestWording where
  speaker : String
  unclosed : String
  fault : Condition.Fault → String

/-- Finds out whether a condition holds; in brackets, the last word closes them. -/
def testAs (wording : TestWording) (doubled bracket : Bool) (words : List String) : Act UInt8 := do
  if bracket && words.getLast? ≠ some "]" then
    complain wording.speaker wording.unclosed
    return 2
  let words := if bracket then words.dropLast else words
  match ← look fun t cwd => Condition.holds t cwd doubled words with
  | .ok true => return 0
  | .ok false => return 1
  | .error fault =>
    complain wording.speaker (wording.fault fault)
    return 2

/-- `test` and `[` -/
def test : Program := fun arguments _ =>
  let (name, words) := named arguments
  let fault : Condition.Fault → String
    | .number text => "invalid integer " ++ quoted text
    | .unexpected _ next => "extra argument " ++ quoted next
    | .missing operator => "missing argument after " ++ quoted operator
    | .unclosed => "')' expected"
  testAs { speaker := name, unclosed := "missing ']'", fault } true (lastName name = "[") words

end LineShell.Program
