import LineShell.Program.Format

/-!
# Arithmetic

Expressions over whole numbers of 64 bits. A name stands for the number that the variable holds, or
for zero; an assignment gives a variable a new value.
-/

namespace LineShell.Script.Arithmetic

/-- The operators of two operands, from the loosest to the tightest. -/
def levels : List (List String) :=
  [["||"], ["&&"], ["|"], ["^"], ["&"], ["==", "!="], ["<=", ">=", "<", ">"], ["<<", ">>"], ["+", "-"],
   ["*", "/", "%"]]

/-- Why an expression has no value. -/
inductive Fault where
  | malformed
  | divisionByZero
  /-- A variable whose value is no number. -/
  | illegal (value : String)

/-- The variables and the text still to be read. -/
structure Reading where
  vars : List (String × String)
  rest : List Char

abbrev Reader (α : Type) := Reading → Except Fault (α × Reading)

/-- A number of 64 bits. -/
def wrap (n : Int) : Int := Int.bmod n 18446744073709551616

def truth (b : Bool) : Int := if b then 1 else 0

/-- The value of an operator. -/
def apply (operator : String) (m n : Int) : Except Fault Int :=
  match operator with
  | "||" => .ok (truth (m ≠ 0 || n ≠ 0))
  | "&&" => .ok (truth (m ≠ 0 && n ≠ 0))
  | "|" => .ok ((Int64.ofInt m ||| Int64.ofInt n).toInt)
  | "^" => .ok ((Int64.ofInt m ^^^ Int64.ofInt n).toInt)
  | "&" => .ok ((Int64.ofInt m &&& Int64.ofInt n).toInt)
  | "==" => .ok (truth (m = n))
  | "!=" => .ok (truth (m ≠ n))
  | "<=" => .ok (truth (m ≤ n))
  | ">=" => .ok (truth (n ≤ m))
  | "<" => .ok (truth (m < n))
  | ">" => .ok (truth (n < m))
  | "<<" => .ok ((Int64.ofInt m <<< Int64.ofInt n).toInt)
  | ">>" => .ok ((Int64.ofInt m >>> Int64.ofInt n).toInt)
  | "+" => .ok (wrap (m + n))
  | "-" => .ok (wrap (m - n))
  | "*" => .ok (wrap (m * n))
  | "/" => if n = 0 then .error .divisionByZero else .ok (wrap (m.tdiv n))
  | "%" => if n = 0 then .error .divisionByZero else .ok (wrap (m.tmod n))
  | _ => .error .malformed

def isSpace (c : Char) : Bool := c = ' ' || c = '\t' || c = '\n'

def skip (cs : List Char) : List Char := cs.dropWhile isSpace

def isNameStart (c : Char) : Bool := c.isAlpha || c = '_'

def isNameChar (c : Char) : Bool := c.isAlphanum || c = '_'

/-- The operator of a level that the text begins with. An assignment, or a longer operator, is not
taken for a shorter one. -/
def operator? (level : List String) (cs : List Char) : Option (String × List Char) :=
  (level.find? fun op => op.toList.isPrefixOf cs).bind fun op =>
    let rest := cs.drop op.length
    let longer := match op, rest.head? with
      | "|", some c => c = '|' || c = '='
      | "&", some c => c = '&' || c = '='
      | "<", some c => c = '<'
      | ">", some c => c = '>'
      | "==", _ | "!=", _ | "<=", _ | ">=", _ | "||", _ | "&&", _ => false
      | _, some c => c = '='
      | _, none => false
    if longer then none else some (op, rest)

/-- The number that a variable holds. -/
def valueOf (vars : List (String × String)) (name : String) : Except Fault Int :=
  match vars.lookup name with
  | none => .ok 0
  | some text =>
    match Program.Format.numberOf text.toList with
    | (n, true) => .ok n
    | (_, false) => .error (.illegal text)

/-- Gives a variable a value. -/
def assign (r : Reading) (name : String) (n : Int) : Reading :=
  { r with vars := (name, toString n) :: r.vars.filter (·.1 ≠ name) }

/-- The operators that change a variable. -/
def assignments : List (String × String) :=
  [("=", ""), ("+=", "+"), ("-=", "-"), ("*=", "*"), ("/=", "/"), ("%=", "%")]

/-- Reads an operand and the operators behind it. -/
def foldLevel (operand : Reader Int) (level : List String) : Nat → Int → Reader Int
  | 0, m => fun r => .ok (m, r)
  | n + 1, m => fun r =>
    match operator? level (skip r.rest) with
    | none => .ok (m, r)
    | some (op, rest) => do
      let (k, r) ← operand { r with rest }
      let v ← apply op m k
      foldLevel operand level n v r

/-- Reads an expression of operators of some levels over `atom`. -/
def binary (length : Nat) (atom : Reader Int) : List (List String) → Reader Int
  | [] => atom
  | level :: tighter => fun r => do
    let operand := binary length atom tighter
    let (m, r) ← operand r
    foldLevel operand level length m r

/-- Reads an expression, nested at most so deep. -/
def expression : Nat → Reader Int
  | 0 => fun _ => .error .malformed
  | depth + 1 => fun r =>
    let cs := skip r.rest
    let name := cs.takeWhile isNameChar
    let afterName := skip (cs.drop name.length)
    let assigned := if name.head?.any isNameStart && !(['=', '='].isPrefixOf afterName) then
        assignments.find? fun (sign, _) => sign.toList.isPrefixOf afterName
      else none
    match assigned with
    | some (sign, op) => do
      let name := String.ofList name
      let (n, r) ← expression depth { r with rest := afterName.drop sign.length }
      let v ← if op.isEmpty then .ok n else do apply op (← valueOf r.vars name) n
      .ok (v, assign r name v)
    | none => do
      let (c, r) ← binary r.rest.length (atom depth) levels r
      match skip r.rest with
      | '?' :: rest => do
        let (a, r) ← expression depth { r with rest }
        match skip r.rest with
        | ':' :: rest => do
          let (b, r) ← expression depth { r with rest }
          .ok (if c ≠ 0 then a else b, r)
        | _ => .error .malformed
      | _ => .ok (c, r)
where
  atom : Nat → Reader Int
    | 0 => fun _ => .error .malformed
    | depth + 1 => fun r =>
      match skip r.rest with
      | '(' :: rest => do
        let (n, r) ← expression depth { r with rest }
        match skip r.rest with
        | ')' :: rest => .ok (n, { r with rest })
        | _ => .error .malformed
      | '-' :: rest => do
        let (n, r) ← atom depth { r with rest }
        .ok (wrap (-n), r)
      | '+' :: rest => atom depth { r with rest }
      | '!' :: rest => do
        let (n, r) ← atom depth { r with rest }
        .ok (truth (n = 0), r)
      | '~' :: rest => do
        let (n, r) ← atom depth { r with rest }
        .ok (-n - 1, r)
      | cs =>
        let word := cs.takeWhile isNameChar
        let rest := cs.drop word.length
        match word with
        | [] => .error .malformed
        | c :: _ =>
          if isNameStart c then
            (valueOf r.vars (String.ofList word)).map fun n => (n, { r with rest })
          else match Program.Format.numberOf word with
            | (n, true) => .ok (n, { r with rest })
            | (_, false) => .error .malformed

/-- The value of an expression and the variables afterwards. -/
def evaluate (vars : List (String × String)) (text : List Char) :
    Except Fault (Int × List (String × String)) := do
  if (skip text).isEmpty then return (0, vars)
  let (n, r) ← expression (2 * text.length + 2) { vars, rest := text }
  if (skip r.rest).isEmpty then return (n, r.vars) else throw .malformed

end LineShell.Script.Arithmetic
