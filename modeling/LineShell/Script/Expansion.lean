import LineShell.Script.Arithmetic
import LineShell.Script.Pattern
import LineShell.Script.Session

/-!
# Expanding words

The parts of a word are replaced by what they stand for. What comes from a parameter or a command
and is not quoted is split into fields; a field with an open pattern is replaced by the names of the
files that match.
-/

namespace LineShell.Script

/-- What an interpreter uses to carry out scripts inside scripts. -/
structure Below where
  source : List Char → Step Unit
  body : Command → Step Unit

/-- The fields that words have become. -/
structure Fields where
  /-- The finished ones, the last one first. -/
  finished : List (List Glyph) := []
  /-- The one that is being put together, backwards. -/
  current : Option (List Glyph) := none

namespace Fields

def put (f : Fields) (glyphs : List Glyph) : Fields :=
  { f with current := some (glyphs.reverse ++ f.current.getD []) }

/-- Ends a field, if there is one. -/
def finish (f : Fields) : Fields :=
  match f.current with
  | none => f
  | some glyphs => { finished := glyphs.reverse :: f.finished, current := none }

def toList (f : Fields) : List (List Glyph) := f.finish.finished.reverse

/-- Adds a text and splits it at separators. Blank separators end a field only if there is one. -/
def split (separators : List Char) (f : Fields) (text : List Char) : Fields :=
  text.foldl (fun f c =>
    if !separators.contains c then f.put [⟨c, false⟩]
    else if Arithmetic.isSpace c then f.finish
    else (f.put []).finish) f

/-- Adds a text that stays in one field. -/
def add (f : Fields) (text : List Char) (quoted : Bool) : Fields :=
  f.put (text.map (⟨·, quoted⟩))

end Fields

namespace Expansion

/-- The characters at which fields are split. -/
def separators : Step (List Char) := do
  return ((← Step.value? "IFS").getD " \t\n").toList

/-- Adds what a part stands for. -/
def addValue (splits quoted : Bool) (f : Fields) (text : List Char) : Step Fields := do
  if quoted || !splits then return f.add text quoted
  else return f.split (← separators) text

/-- Adds several values: fields of their own, or joined to one. -/
def addValues (splits quoted joined : Bool) (f : Fields) (values : List String) : Step Fields := do
  if quoted && joined || !splits then
    let seps ← separators
    return f.add ((if joined then seps.take 1 else [' ']).intercalate (values.map String.toList)) quoted
  else match values with
    | [] => return f
    | first :: rest =>
      let seps ← separators
      let one (f : Fields) (v : String) : Fields :=
        if quoted then f.add v.toList true else f.split seps v.toList
      return rest.foldl (fun f v => one f.finish v) (one f first)

/-- The value of a parameter. -/
def parameter? (name : String) : Step (Option String) := do
  let s ← Step.get
  let shown (n : Nat) : Option String := some (String.ofList (Number.digits n))
  match name with
  | "#" => return shown s.parameters.length
  | "?" => return shown s.status.toNat
  | "$" => return shown s.pid
  | "!" => return s.lastBackground.bind shown
  | "-" => return some ""
  | "0" => return some s.name
  | _ =>
    match Number.readDigits 0 name.toList with
    | some n => return if n = 0 then some s.name else s.parameters[n - 1]?
    | none => return s.vars.lookup name

/-- The output of a script, without the line ends behind it. -/
def outputOf (below : Below) (source : List Char) : Step (List Char) := do
  let (r, w) ← Step.act (.perform .makePipe)
  let pid ← Step.fork do
    Step.act (.perform (.close r))
    let _ ← Step.act (.perform (.duplicate w Descriptor.output))
    Step.act (.perform (.close w))
    below.source source
  Step.act (.perform (.close w))
  let bytes ← Step.act (Program.readAll r)
  Step.act (.perform (.close r))
  match ← Step.act (.perform (.wait (some pid))) with
  | .ok (_, status) => Step.modify ({ · with wordStatus := status.code })
  | .error _ => pure ()
  let text := (Utf8.decodeLossy (bytes.toOption.getD [])).filter (· ≠ '\x00')
  return (text.reverse.dropWhile (· = '\n')).reverse

/-- The value of an expression. -/
def numberOf (text : List Char) : Step (List Char) := do
  let s ← Step.get
  match Arithmetic.evaluate s.vars text with
  | .ok (n, vars) =>
    Step.modify ({ · with vars })
    return (toString n).toList
  | .error fault =>
    let about (what : String) : String := "arithmetic expression: " ++ what ++ ": \"" ++ String.ofList text ++ "\""
    Step.abort (match fault with
      | .divisionByZero => about "division by zero"
      | .malformed => about "expecting primary"
      | .illegal value => "Illegal number: " ++ value) 2

mutual

/-- Adds what a part stands for to fields. Text `inside` a replaced part is split like one. -/
def part (below : Below) (splits inside : Bool) (f : Fields) : Part → Step Fields
  | .text cs quoted =>
    if inside && !quoted then addValue splits false f cs else pure (f.add cs quoted)
  | .output source quoted => do addValue splits quoted f (← outputOf below source)
  | .arithmetic word quoted => do
    let text ← parts below false false {} word
    addValue splits quoted f (← numberOf (plain text.toList.flatten))
  | .parameter name operation word quoted => do
    let s ← Step.get
    let isList := name = "@" || name = "*"
    let value ← if isList then
        pure (if s.parameters.isEmpty then none else some (" ".intercalate s.parameters))
      else parameter? name
    let isSet (emptyToo : Bool) : Bool := match value with
      | none => false
      | some v => !(emptyToo && v.isEmpty)
    let add (g : String → String) : Step Fields := do
      if isList then addValues splits quoted (name = "*") f (s.parameters.map g)
      else match value with
        | some v => addValue splits quoted f (g v).toList
        | none =>
          if s.needsVariables && !isList then Step.abort (name ++ ": parameter not set") 2
          else addValue splits quoted f []
    match operation with
    | .value => add id
    | .length =>
      let n := if isList then s.parameters.length else Path.size (value.getD "")
      addValue splits quoted f (Number.digits n)
    | .default emptyToo => if isSet emptyToo then add id else parts below splits true f word
    | .alternative emptyToo => if isSet emptyToo then parts below splits true f word else pure f
    | .assign emptyToo =>
      if isSet emptyToo then add id
      else do
        let text ← parts below false false {} word
        let text := plain text.toList.flatten
        Step.setVariable name (String.ofList text)
        addValue splits quoted f text
    | .require emptyToo =>
      if isSet emptyToo then add id
      else do
        let text ← parts below false false {} word
        let text := plain text.toList.flatten
        Step.abort (name ++ ": " ++ (if !text.isEmpty then String.ofList text
          else if emptyToo then "parameter not set or null" else "parameter not set")) 2
    | .cutStart longest => do
      let glyphs ← parts below false false {} word
      add fun v => String.ofList ((Pattern.ofGlyphs glyphs.toList.flatten).cutStart longest v.toList)
    | .cutEnd longest => do
      let glyphs ← parts below false false {} word
      add fun v => String.ofList ((Pattern.ofGlyphs glyphs.toList.flatten).cutEnd longest v.toList)

/-- Adds what the parts of a word stand for. -/
def parts (below : Below) (splits inside : Bool) (f : Fields) : List Part → Step Fields
  | [] => pure f
  | p :: ps => do parts below splits inside (← part below splits inside f p) ps

end

/-- A word with its leading tilde replaced. -/
def withHome (word : Word) : Step Word := do
  match word with
  | .text ('~' :: cs) false :: rest =>
    if cs.isEmpty && rest.isEmpty || cs.head? = some '/' then
      match ← Step.value? "HOME" with
      | some home => return .text home.toList true :: .text cs false :: rest
      | none => return word
    else return word
  | _ => return word

/-- A word as one field, whose quoted characters are known. -/
def glyphs (below : Below) (word : Word) : Step (List Glyph) := do
  let f ← parts below false false {} (← withHome word)
  return f.toList.flatten

/-- A word as one text. -/
def text (below : Below) (word : Word) : Step String := do
  return String.ofList (plain (← glyphs below word))

/-- The fields of words. -/
def fields (below : Below) : List Word → Step (List String)
  | [] => pure []
  | word :: words => do
    let f ← parts below true false {} (← withHome word)
    let s ← Step.get
    let found ← Step.act (Program.look fun t cwd => f.toList.flatMap fun glyphs =>
      match if s.keepsPatterns then [] else Pattern.expand t cwd glyphs with
      | [] => [String.ofList (plain glyphs)]
      | paths => paths)
    return found ++ (← fields below words)

end Expansion

end LineShell.Script
