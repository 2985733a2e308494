import LineShell.Proofs.Editor.Strokes
import LineShell.Proofs.Text.Boundaries

/-!
# What the capacity does to a text

A text without control characters that is longer than the capacity is read as several lines. The capacity
counts bytes: each line is read from so many bytes of the encoded text (`editUpTo_of_isText`). So the
lines make up the text just if no character reaches over a multiple of the capacity
(`lines_intact_iff`).
-/

namespace LineShell.Editor

variable {e : Editor} {s : Screen} {ending : Ending} {bs : Bytes}

/-- The line that is read from the bytes. -/
def lineOf (bs : Bytes) : String := String.ofList (Utf8.decodeLossy bs)

/-! ## One read -/

theorem edit_of_not_pending (hroom : s.room = none) (hpending : e.pending = none) (bs : Bytes) (ending : Ending) :
    e.edit s bs ending = e.typeOn s {} ending bs := by
  obtain ⟨capacity, lastLine, pending⟩ := e
  obtain ⟨shown, room⟩ := s
  subst hroom hpending
  simp [edit, seedBytes, Screen.write]

/-- The byte of a text that fills the capacity finishes the line. -/
theorem edit_of_full (hroom : s.room = none) (hpending : e.pending = none) {front : Bytes} {b : UInt8}
    (hfront : ∀ b ∈ front, IsText b) (hb : IsText b) (hlength : front.length + 1 = e.capacity) (rest : Bytes)
    (ending : Ending) :
    ∃ s' : Screen, s'.room = none ∧ e.edit s (front ++ b :: rest) ending =
      ⟨.ok (.line (lineOf (front ++ [b]))), { e with lastLine := some (lineOf (front ++ [b])) }, s', rest⟩ := by
  have htyped : e.pressAll {} front = some (front, ⟨front, .idle⟩) :=
    pressAll_of_isText hfront (by rw [List.nil_append]; omega)
  have hpress : e.press ⟨front, .idle⟩ b = ([b, Key.newline], .finish (front ++ [b]) true) :=
    (pressPlain_of_isText hb front).trans (if_pos (by rw [List.length_append, List.length_singleton]; omega))
  refine ⟨{ s with shown := s.shown ++ front ++ [b, Key.newline] }, hroom, ?_⟩
  rw [edit_of_not_pending hroom hpending, typeOn_append hroom ending htyped]
  simp only [typeOn, hpress, Screen.write, hroom]
  rfl

/-- A text below the capacity is a line of its own. -/
theorem edit_of_short (hroom : s.room = none) (hpending : e.pending = none) (hbs : ∀ b ∈ bs, IsText b)
    (hne : bs ≠ []) (hlength : bs.length < e.capacity) :
    ∃ s' : Screen, s'.room = none ∧
      e.edit s bs .used = ⟨.ok (.line (lineOf bs)), { e with lastLine := some (lineOf bs) }, s', []⟩ := by
  have htyped : e.pressAll {} bs = some (bs, ⟨bs, .idle⟩) := pressAll_of_isText hbs hlength
  refine ⟨{ s with shown := s.shown ++ bs }, hroom, ?_⟩
  have hread : e.typeOn s {} .used (bs ++ []) = e.typeOn { s with shown := s.shown ++ bs } ⟨bs, .idle⟩ .used [] :=
    typeOn_append hroom .used htyped
  rw [List.append_nil] at hread
  rw [edit_of_not_pending hroom hpending, hread]
  simp [typeOn, hne, accept, lineOf]

/-- A read of a text takes as much of it as the capacity allows. -/
theorem edit_of_isText (hroom : s.room = none) (hpending : e.pending = none) (hcapacity : 0 < e.capacity)
    (hbs : ∀ b ∈ bs, IsText b) (hne : bs ≠ []) :
    ∃ s' : Screen, s'.room = none ∧ e.edit s bs .used = ⟨.ok (.line (lineOf (bs.take e.capacity))),
      { e with lastLine := some (lineOf (bs.take e.capacity)) }, s', bs.drop e.capacity⟩ := by
  by_cases hlong : e.capacity ≤ bs.length
  · obtain ⟨m, hm⟩ : ∃ m, m + 1 = e.capacity := ⟨e.capacity - 1, Nat.sub_add_cancel hcapacity⟩
    have hlast : m < bs.length := by omega
    have hfront : ∀ b ∈ bs.take m, IsText b := fun b hb => hbs b (List.mem_of_mem_take hb)
    have hlength : (bs.take m).length + 1 = e.capacity := by rw [List.length_take]; omega
    have hread := edit_of_full hroom hpending hfront (hbs _ (List.getElem_mem hlast)) hlength (bs.drop (m + 1)) .used
    rwa [← List.drop_eq_getElem_cons hlast, List.take_append_drop, List.take_append_getElem hlast, hm] at hread
  · rw [List.take_of_length_le (Nat.le_of_not_le hlong), List.drop_of_length_le (Nat.le_of_not_le hlong)]
    exact edit_of_short hroom hpending hbs hne (Nat.lt_of_not_le hlong)

/-! ## All reads -/

theorem editUpTo_of_line {n : Nat} {line : String} (h : (e.edit s bs ending).result = .ok (.line line)) :
    editUpTo ending (n + 1) e s bs =
      let r := e.edit s bs ending
      let others := editUpTo ending n r.editor r.screen r.rest
      (.ok (.line line) :: others.1, others.2) := by
  rw [editUpTo, h]
  · exact line
  · exact h

theorem editUpTo_of_eof (n : Nat) (h : (e.edit s bs ending).result = .ok .eof) :
    editUpTo ending n e s bs = ([.ok .eof], e.edit s bs ending) := by
  rw [editUpTo, h]
  intro m line _ hline
  rw [h] at hline
  cases hline

theorem editUpTo_nil (hroom : s.room = none) (hpending : e.pending = none) (n : Nat) :
    (editUpTo .used n e s []).1 = [.ok .eof] ∧ (editUpTo .used n e s []).2.rest = [] := by
  have hread : e.edit s [] .used = ⟨.ok .eof, e, s, []⟩ := edit_of_not_pending hroom hpending [] .used
  rw [editUpTo_of_eof n (by rw [hread]), hread]
  exact ⟨rfl, rfl⟩

/-- All reads of a text take it piece by piece. -/
theorem editUpTo_of_isText {n : Nat} (hroom : s.room = none) (hpending : e.pending = none)
    (hcapacity : 0 < e.capacity) (hbs : ∀ b ∈ bs, IsText b) (hn : bs.length ≤ n) :
    (editUpTo .used n e s bs).1 =
        ((Utf8.pieces e.capacity bs).map lineOf).map (fun line => .ok (.line line)) ++ [.ok .eof] ∧
      (editUpTo .used n e s bs).2.rest = [] := by
  induction n generalizing e s bs with
  | zero =>
    obtain rfl := List.eq_nil_of_length_eq_zero (Nat.le_zero.1 hn)
    simpa using editUpTo_nil hroom hpending 0
  | succ n ih =>
    by_cases hne : bs = []
    · subst hne
      simpa using editUpTo_nil hroom hpending (n + 1)
    · obtain ⟨s', hroom', hread⟩ := edit_of_isText hroom hpending hcapacity hbs hne
      have hrest : ∀ b ∈ bs.drop e.capacity, IsText b := fun b hb => hbs b (List.mem_of_mem_drop hb)
      obtain ⟨hresults, hused⟩ := ih (e := { e with lastLine := some (lineOf (bs.take e.capacity)) }) hroom'
        hpending hcapacity hrest (by rw [List.length_drop]; omega)
      rw [editUpTo_of_line (by rw [hread]), hread, Utf8.pieces_of_ne_nil hcapacity hne]
      exact ⟨congrArg (List.cons _) hresults, hused⟩

/-- **What the capacity does to a text.** All reads of its bytes together give a line for each piece of as many bytes
as the capacity, and use the bytes up. The lines make up the text if and only if no character
reaches over a multiple of the capacity; so they do if the encodings of all characters are equally long and
this length divides the capacity. -/
theorem lines_intact_iff (capacity : Nat) (text : List Char) (hcapacity : 0 < capacity)
    (htext : ∀ c ∈ text, IsPrintable c) :
    ∃ lines : List String,
      (({ capacity } : Editor).editAll {} (Utf8.encode text) .used).1 =
          lines.map (fun line => .ok (.line line)) ++ [.ok .eof] ∧
        (({ capacity } : Editor).editAll {} (Utf8.encode text) .used).2.rest = [] ∧
        lines = (Utf8.pieces capacity (Utf8.encode text)).map lineOf ∧
        (lines.flatMap String.toList = text ↔ Utf8.IsAligned capacity text) ∧
        ∀ width, width ∣ capacity → (∀ c ∈ text, (String.utf8EncodeChar c).length = width) →
          lines.flatMap String.toList = text := by
  have hbytes : ∀ b ∈ Utf8.encode text, IsText b := by
    intro b hb
    obtain ⟨c, hc, hmem⟩ := List.mem_flatMap.1 hb
    exact (htext c hc).isText b hmem
  obtain ⟨hresults, hused⟩ := editUpTo_of_isText (e := { capacity }) (s := {}) rfl rfl hcapacity hbytes
    (Nat.le_succ _)
  have hcharacters : ((Utf8.pieces capacity (Utf8.encode text)).map lineOf).flatMap String.toList =
      (Utf8.pieces capacity (Utf8.encode text)).flatMap Utf8.decodeLossy := by
    simp [List.flatMap_map, lineOf]
  refine ⟨_, hresults, hused, rfl, ?_⟩
  rw [hcharacters, Utf8.flatMap_pieces_iff hcapacity]
  exact ⟨Iff.rfl, fun width hwidth htext => Utf8.isAligned_of_width htext hwidth⟩

/-- Four characters, the last of which has two bytes. -/
def accented : List Char := ['a', 'b', 'c', 'é']

theorem lines_intact_iff_accented :
    (∀ c ∈ accented, IsPrintable c) ∧
      (({ capacity := 4 } : Editor).editAll {} (Utf8.encode accented) .used).1 =
        [.ok (.line "abc\uFFFD"), .ok (.line "\uFFFD"), .ok .eof] ∧
      ∃ lines : List String,
        (({ capacity := 4 } : Editor).editAll {} (Utf8.encode accented) .used).1 =
          lines.map (fun line => .ok (.line line)) ++ [.ok .eof] ∧ lines.flatMap String.toList ≠ accented := by
  have hprintable : ∀ c ∈ accented, IsPrintable c := by
    -- over the four characters, not over every character
    let _ := List.decidableBAll IsPrintable accented
    decide
  obtain ⟨lines, hresults, -, -, hintact, -⟩ := lines_intact_iff 4 accented (by decide) hprintable
  refine ⟨hprintable, by decide +kernel, lines, hresults, fun hlines => ?_⟩
  -- the fourth byte is the first of two
  have hcut : ¬ Utf8.IsBoundary accented (1 * 4) := by decide +kernel
  exact hcut (hintact.1 hlines 1 (by decide +kernel))

end LineShell.Editor
