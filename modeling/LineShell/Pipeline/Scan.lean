import LineShell.Pipeline.Parse
import LineShell.Text.Slice

/-!
# Scanning the bytes of a line

A line is held as bytes, and a place in it is the number of a byte. The scanner goes from byte to byte, compares bytes
with blanks, quotes and signs, and takes out pieces between two places. If one of them cuts through a character or is
not within the text, the scanner breaks down, and comes to `none`; so it does if a piece is no text.

| here | function of the shell |
| --- | --- |
| `skipBlanks` | `Parser::skip_whitespaces` |
| `wordEnd`, `readWords` | `Parser::read_word`, `Parser::read_words` |
| `trim`, `lineEnd` | `trim`, and the first half of `parse` |
| `unquote`, `redirect?` | `unquote`, `redirect_marker` |
| `redirect`, `argument`, `readStage` | `parse_stage` |
| `readStages`, `parse` | `parse` |
-/

namespace LineShell

namespace Scan

open Utf8

def isBlank (b : UInt8) : Bool := b = ' '.toUInt8 || b = '\t'.toUInt8

def isQuote (b : UInt8) : Bool := b = '\x22'.toUInt8 || b = '\x27'.toUInt8

/-! ## Words -/

/-- The next place without a blank. -/
def skipBlanks (text : Bytes) (i : Nat) : Nat :=
  if h : i < text.length then
    if isBlank text[i] then skipBlanks text (i + 1) else i
  else i
termination_by text.length - i

/-- The open quote after one more byte. -/
def quoteAfter (quote : Option UInt8) (b : UInt8) : Option UInt8 :=
  match quote with
  | some q => if b = q then none else some q
  | none => if isQuote b then some b else none

/-- The next unquoted blank, or the end. -/
def wordEnd (text : Bytes) (quote : Option UInt8) (i : Nat) : Nat :=
  if h : i < text.length then
    if quote = none ∧ isBlank text[i] then i else wordEnd text (quoteAfter quote text[i]) (i + 1)
  else i
termination_by text.length - i

theorem le_skipBlanks (text : Bytes) (i : Nat) : i ≤ skipBlanks text i := by
  fun_induction skipBlanks text i with
  | case1 i _ _ ih => omega
  | case2 => exact Nat.le_refl _
  | case3 => exact Nat.le_refl _

theorem wordEnd_le {text : Bytes} {quote : Option UInt8} {i : Nat} (h : i < wordEnd text quote i) :
    wordEnd text quote i ≤ text.length := by
  fun_induction wordEnd text quote i with
  | case1 => omega
  | case2 quote i _ _ ih =>
    by_cases hnext : i + 1 < wordEnd text (quoteAfter quote text[i]) (i + 1)
    · exact ih hnext
    · omega
  | case3 => omega

/-- The words from a place on. -/
def readWords (text : Bytes) (i : Nat) : Option (List Bytes) :=
  if _h : skipBlanks text i < wordEnd text none (skipBlanks text i) then do
    let word ← slice? text (skipBlanks text i) (wordEnd text none (skipBlanks text i))
    let words ← readWords text (wordEnd text none (skipBlanks text i))
    return word :: words
  else some []
termination_by text.length - i
decreasing_by
  have := le_skipBlanks text i
  have := wordEnd_le ‹_›
  omega

/-! ## Pieces of a line and of a word -/

/-- The end of the text from `start` on whose last byte is no blank, going back from a place. -/
def trimEnd (text : Bytes) (start : Nat) : Nat → Nat
  | 0 => 0
  | i + 1 => if start ≤ i ∧ text[i]?.any isBlank then trimEnd text start i else i + 1

/-- The text without blanks at its ends. -/
def trim (text : Bytes) : Option Bytes :=
  slice? text (skipBlanks text 0) (trimEnd text (skipBlanks text 0) text.length)

/-- The trimmed line without its end mark, and what the mark asks for. -/
def lineEnd (line : Bytes) : Option (Bytes × LineEnd) := do
  let text ← trim line
  if text.getLast? = some '?'.toUInt8 then
    return (← trim (← slice? text 0 (text.length - 1)), .completion)
  else if text.getLast? = some '&'.toUInt8 then
    return (← trim (← slice? text 0 (text.length - 1)), .background)
  else return (text, .plain)

/-- A word whose first and last bytes are the same quote loses them. -/
def unquote (word : Bytes) : Option Bytes :=
  if 2 ≤ word.length ∧ word.head?.any isQuote ∧ word.head? = word.getLast? then slice? word 1 (word.length - 1)
  else some word

/-- A word that begins with a redirect sign: the direction and the rest of the word. -/
def redirect? (word : Bytes) : Option (Option (Direction × Bytes)) :=
  if ['>'.toUInt8, '>'.toUInt8].isPrefixOf word then
    (slice? word 2 word.length).map fun target => some (.output .append, target)
  else if ['>'.toUInt8].isPrefixOf word then
    (slice? word 1 word.length).map fun target => some (.output .truncate, target)
  else if ['<'.toUInt8].isPrefixOf word then
    (slice? word 1 word.length).map fun target => some (.input, target)
  else some none

/-! ## Stages -/

def pipe : Bytes := ['|'.toUInt8]

def ampersand : Bytes := ['&'.toUInt8]

/-- The text of a piece. -/
def text? (piece : Bytes) : Option String := (decode? piece).map String.ofList

/-- Records a redirect unless there is one in that direction already. -/
def redirect (s : Stage) (d : Direction) (target : Bytes) : Option Stage :=
  match d with
  | .input =>
    if s.input.isSome then some s
    else do
      let path ← text? (← unquote target)
      return { s with input := some path }
  | .output mode =>
    if s.output.isSome then some s
    else do
      let path ← text? (← unquote target)
      return { s with output := some ⟨mode, path⟩ }

/-- Records an argument. -/
def argument (s : Stage) (word : Bytes) : Option Stage := do
  let text ← text? (← unquote word)
  return { s with arguments := s.arguments ++ [text] }

/-- Reads the words behind a name up to the next `|`: the stage, and the words behind the `|`. -/
def readStage (s : Stage) : List Bytes → Option (Stage × List Bytes)
  | [] => some (s, [])
  | w :: ws =>
    if w = pipe then some (s, ws)
    else if w = ampersand then readStage s ws
    else
      match redirect? w with
      | none => none
      | some none => (argument s w).bind fun s => readStage s ws
      | some (some (d, [])) =>
        match ws with
        | [] => (redirect s d []).bind fun s => readStage s []
        | next :: rest =>
          if next ≠ pipe ∧ next ≠ ampersand then (redirect s d next).bind fun s => readStage s rest
          else (redirect s d []).bind fun s => readStage s (next :: rest)
      | some (some (d, target)) => (redirect s d target).bind fun s => readStage s ws

/-- The words behind a `|` are some of the last. -/
theorem readStage_suffix {s s' : Stage} {ws rest : List Bytes} (h : readStage s ws = some (s', rest)) :
    rest <:+ ws := by
  fun_induction readStage s ws with
  | case1 s => exact (Prod.mk.inj (Option.some.inj h)).2 ▸ List.suffix_rfl
  | case2 s ws => exact (Prod.mk.inj (Option.some.inj h)).2 ▸ List.suffix_cons _ ws
  | case3 s ws _ ih => exact (ih h).trans (List.suffix_cons _ ws)
  | case4 => cases h
  | case5 s w ws _ _ _ ih =>
    obtain ⟨s₁, -, hread⟩ := Option.bind_eq_some_iff.1 h
    exact (ih s₁ hread).trans (List.suffix_cons w ws)
  | case6 s w _ _ _ _ ih =>
    obtain ⟨s₁, -, hread⟩ := Option.bind_eq_some_iff.1 h
    exact (ih s₁ hread).trans (List.suffix_cons w [])
  | case7 s w _ _ _ _ next ws _ ih =>
    obtain ⟨s₁, -, hread⟩ := Option.bind_eq_some_iff.1 h
    exact (ih s₁ hread).trans ((List.suffix_cons next ws).trans (List.suffix_cons w _))
  | case8 s w _ _ _ _ next ws _ ih =>
    obtain ⟨s₁, -, hread⟩ := Option.bind_eq_some_iff.1 h
    exact (ih s₁ hread).trans (List.suffix_cons w _)
  | case9 s w ws _ _ _ _ _ _ ih =>
    obtain ⟨s₁, -, hread⟩ := Option.bind_eq_some_iff.1 h
    exact (ih s₁ hread).trans (List.suffix_cons w ws)

/-- The pipeline of the words of a line; a line without words has one empty stage. -/
def readStages (words : List Bytes) : Option Pipeline :=
  match words with
  | [] => some (.single {})
  | name :: words =>
    match text? name with
    | none => none
    | some name =>
      match _h : readStage { name } words with
      | none => none
      | some (stage, []) => some (.single stage)
      | some (stage, next :: rest) => (readStages (next :: rest)).map fun p => ⟨stage, p.stages⟩
termination_by words.length
decreasing_by
  have := (readStage_suffix ‹_›).length_le
  simp only [List.length_cons] at this ⊢
  omega

/-- Reads the bytes of a line. -/
def parse (line : Bytes) : Option Pipeline := do
  let (text, mark) ← lineEnd line
  let words ← readWords text 0
  let p ← readStages words
  let p := { p with head := { p.head with needsCompletion := mark = LineEnd.completion } }
  return p.setBackground (mark = LineEnd.background)

end Scan

end LineShell
