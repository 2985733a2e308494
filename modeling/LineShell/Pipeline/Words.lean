/-!
# Words of a line

Words are separated by spaces and tabs outside quotes. A single or a double quote opens a quoted
part anywhere in a word; it ends at the next quote of the same kind, or runs to the end of the line.
Quotes stay in the word.

| here | function of the shell |
| --- | --- |
| `isBlank`, `isQuote` | `Parser::is_whitespace`, `Parser::is_quote` |
| `trim` | `trim` |
| `Word.quoteAfter`, `Word.cut` | the loop of `Parser::read_word`, where it stands |
| `Word.ofLine` | `Parser::read_words` |
| `Word.unquote` | `unquote` |
-/

namespace LineShell

/-- A word of a line, quotes included. -/
abbrev Word := List Char

def isBlank (c : Char) : Bool := c = ' ' || c = '\t'

def isQuote (c : Char) : Bool := c = '\x22' || c = '\x27'

/-- The text without blanks at its ends. -/
def trim (text : List Char) : List Char :=
  ((text.dropWhile isBlank).reverse.dropWhile isBlank).reverse

namespace Word

/-- The open quote after one more character. -/
def quoteAfter (quote : Option Char) (c : Char) : Option Char :=
  match quote with
  | some q => if c = q then none else some q
  | none => if isQuote c then some c else none

/-- Cuts a text at every unquoted blank: the piece up to the first cut, and the other pieces. -/
def cut (quote : Option Char) : List Char → List Char × List (List Char)
  | [] => ([], [])
  | c :: cs =>
    if quote = none ∧ isBlank c then
      let (piece, more) := cut none cs
      ([], piece :: more)
    else
      let (piece, more) := cut (quoteAfter quote c) cs
      (c :: piece, more)

/-- The words of a text (`read_words`). -/
def ofLine (text : List Char) : List Word :=
  let (piece, more) := cut none text
  (piece :: more).filter (!·.isEmpty)

/-- A word whose first and last characters are the same quote loses them; any other stays as it
is. -/
def unquote : Word → List Char
  | [] => []
  | q :: cs => if isQuote q ∧ cs.getLast? = some q then cs.dropLast else q :: cs

end Word

end LineShell
