import LineShell.Text.Utf8

/-!
# Pieces of encoded text

A piece of a text that is held as bytes lies between two places, each of which is the number of a byte. There is such
a piece only if both places are within the text and cut through no character. So it is with the slices of `read_word`,
`unquote` and `parse`.
-/

namespace LineShell

namespace Utf8

/-- Is a place in bytes at one of their ends or ahead of a byte that can begin a character? -/
def isCut (text : Bytes) (i : Nat) : Bool :=
  i = 0 || match text[i]? with
    | some b => !isContinuation b
    | none => i = text.length

/-- The piece between two places. -/
def slice? (text : Bytes) (i j : Nat) : Option Bytes :=
  if i ≤ j ∧ isCut text i ∧ isCut text j then some ((text.take j).drop i) else none

end Utf8

end LineShell
