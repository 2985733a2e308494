import LineShell.Pipeline.Words
import Mathlib.Data.List.TakeWhile

/-!
# Cutting a line into words

What `trim`, `Word.cut` and `Word.ofLine` do to a text that is put together from words. A word is
described by `Word.run`, which follows the open quote through it: a word stands for itself wherever
`run` ends with no quote open (`ofLine_append`, `ofLine_intercalate`).
-/

namespace LineShell

/-! ## Trimming -/

theorem dropWhile_eq_self {p : Char → Bool} {text : List Char} (h : ∀ c ∈ text.head?, p c = false) :
    text.dropWhile p = text := by
  cases text with
  | nil => rfl
  | cons c cs => simp [h c rfl]

theorem trim_eq_self {text : List Char} (hhead : ∀ c ∈ text.head?, isBlank c = false)
    (hlast : ∀ c ∈ text.getLast?, isBlank c = false) : trim text = text := by
  have hrev : ∀ c ∈ text.reverse.head?, isBlank c = false := by
    rw [List.head?_reverse]
    exact hlast
  unfold trim
  rw [dropWhile_eq_self hhead, dropWhile_eq_self hrev, List.reverse_reverse]

theorem trim_append_blanks (text : List Char) {b : List Char} (hb : ∀ c ∈ b, isBlank c) :
    trim (text ++ b) = trim text := by
  have hrev : ∀ c ∈ b.reverse, isBlank c := fun c hc => hb c (List.mem_reverse.1 hc)
  unfold trim
  rw [List.dropWhile_append]
  split
  · next hnil =>
    rw [List.isEmpty_iff.1 hnil, ← List.append_nil b, List.dropWhile_append_of_pos hb]
    rfl
  · rw [List.reverse_append, List.dropWhile_append_of_pos hrev]

theorem trim_blanks_append {b : List Char} (hb : ∀ c ∈ b, isBlank c) (text : List Char) :
    trim (b ++ text) = trim text := by
  unfold trim
  rw [List.dropWhile_append_of_pos hb]

theorem trim_dropWhile (text : List Char) : trim (text.dropWhile isBlank) = trim text := by
  have hlead : ∀ c ∈ text.takeWhile isBlank, isBlank c := fun c hc => List.mem_takeWhile_imp hc
  rw [← trim_blanks_append hlead, List.takeWhile_append_dropWhile]

/-- In front of a last character that is no blank, blanks are taken off at the beginning only. -/
theorem trim_concat {c : Char} (hc : isBlank c = false) (text : List Char) :
    trim (text ++ [c]) = text.dropWhile isBlank ++ [c] := by
  have hdrop : (text ++ [c]).dropWhile isBlank = text.dropWhile isBlank ++ [c] := by
    rw [List.dropWhile_append]
    split
    · next hnil => rw [List.isEmpty_iff.1 hnil, List.dropWhile_cons_of_neg (by simp [hc])]; rfl
    · rfl
  rw [trim, hdrop, List.reverse_append]
  simp [hc]

theorem dropWhile_eq_trim_append (text : List Char) : ∃ back, text.dropWhile isBlank = trim text ++ back ∧
    ∀ c ∈ back, isBlank c := by
  refine ⟨((text.dropWhile isBlank).reverse.takeWhile isBlank).reverse, ?_,
    fun c hc => List.mem_takeWhile_imp (List.mem_reverse.1 hc)⟩
  rw [trim, ← List.reverse_append, List.takeWhile_append_dropWhile, List.reverse_reverse]

/-- Trimming takes blanks off both ends. -/
theorem exists_trim (text : List Char) : ∃ front back, text = front ++ trim text ++ back ∧
    (∀ c ∈ front, isBlank c) ∧ ∀ c ∈ back, isBlank c := by
  obtain ⟨back, hdrop, hback⟩ := dropWhile_eq_trim_append text
  refine ⟨text.takeWhile isBlank, back, ?_, fun c hc => List.mem_takeWhile_imp hc, hback⟩
  rw [List.append_assoc, ← hdrop, List.takeWhile_append_dropWhile]

theorem trim_eq_nil_iff {text : List Char} : trim text = [] ↔ ∀ c ∈ text, isBlank c := by
  constructor
  · intro hnil
    obtain ⟨front, back, htext, hfront, hback⟩ := exists_trim text
    rw [htext, hnil, List.append_nil]
    exact List.forall_mem_append.2 ⟨hfront, hback⟩
  · intro hblank
    rw [← List.append_nil text, trim_blanks_append hblank]
    rfl

namespace Word

/-! ## Following the open quote -/

/-- The open quote behind a text; nothing if there is an unquoted blank in it. -/
def run : Option Char → List Char → Option (Option Char)
  | quote, [] => some quote
  | quote, c :: cs => if quote = none ∧ isBlank c then none else run (quoteAfter quote c) cs

/-- A word that ends with all its quotes closed. -/
def Closed (w : Word) : Prop := w ≠ [] ∧ run none w = some none

theorem run_append {q q' : Option Char} {w : List Char} (h : run q w = some q') (v : List Char) :
    run q (w ++ v) = run q' v := by
  induction w generalizing q with
  | nil => cases h; rfl
  | cons c cs ih =>
    simp only [List.cons_append, run] at h ⊢
    split at h
    · cases h
    · next hc => rw [if_neg hc, ih h]

/-- Characters that are neither blanks nor quotes leave the quote closed. -/
theorem run_plain {w : List Char} (h : ∀ c ∈ w, isBlank c = false ∧ isQuote c = false) :
    run none w = some none := by
  induction w with
  | nil => rfl
  | cons c cs ih =>
    obtain ⟨hb, hq⟩ := h c (by simp)
    simp only [run, quoteAfter, hb, hq, Bool.false_eq_true, and_false, if_false]
    exact ih fun c hc => h c (by simp [hc])

/-- An open quote stays open over a text that does not hold it. -/
theorem run_quoted {q : Char} {text : List Char} (h : q ∉ text) : run (some q) text = some (some q) := by
  induction text with
  | nil => rfl
  | cons c cs ih =>
    have hc : c ≠ q := fun e => h (by simp [e])
    simp only [run, quoteAfter, reduceCtorEq, false_and, if_false, hc]
    exact ih fun hm => h (by simp [hm])

/-! ## Cutting -/

theorem cut_append {q q' : Option Char} {w : List Char} (h : run q w = some q') (rest : List Char) :
    cut q (w ++ rest) = (w ++ (cut q' rest).1, (cut q' rest).2) := by
  induction w generalizing q with
  | nil => cases h; rfl
  | cons c cs ih =>
    simp only [run] at h
    split at h
    · cases h
    · next hc => simp only [List.cons_append, cut, if_neg hc, ih h]

/-- A word in front of a blank is the first word. -/
theorem ofLine_append {w : Word} (hw : w.Closed) {b : Char} (hb : isBlank b) (rest : List Char) :
    ofLine (w ++ b :: rest) = w :: ofLine rest := by
  have hne : w.isEmpty = false := by simpa using hw.1
  simp [ofLine, cut_append hw.2, cut, hb, hne]

/-- A text without an unquoted blank is one word. -/
theorem ofLine_of_run {q : Option Char} {w : Word} (hne : w ≠ []) (hw : run none w = some q) :
    ofLine w = [w] := by
  have hcut := cut_append hw []
  rw [List.append_nil] at hcut
  simp [ofLine, hcut, cut, hne]

/-- Words that are put together with single blanks are read back. -/
theorem ofLine_intercalate {ws : List Word} (h : ∀ w ∈ ws, w.Closed) :
    ofLine ([' '].intercalate ws) = ws := by
  induction ws with
  | nil => rfl
  | cons w ws ih =>
    have hw := h w (by simp)
    cases ws with
    | nil => simpa using ofLine_of_run hw.1 hw.2
    | cons v vs =>
      rw [List.intercalate_cons_cons, List.append_assoc, List.singleton_append,
        ofLine_append hw rfl, ih fun w hm => h w (by simp [hm])]

end Word

end LineShell
