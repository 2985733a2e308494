/-!
# Sorted lists of names

Names are ordered by their characters, which for well-formed text is also the order of their bytes.
`executables_with_prefix_in` and `complete_with` put them in this order, each once.
-/

namespace LineShell.Text

/-- Is `a` before `b`, or the same? -/
def le (a b : String) : Bool := !decide (b < a)

/-- The same names in order, each once. -/
def sortedUnique (names : List String) : List String :=
  (names.mergeSort le).eraseReps

/-- Does the text begin with `stem`? -/
def beginsWith (stem : List Char) (text : String) : Bool :=
  stem.isPrefixOf text.toList

end LineShell.Text
