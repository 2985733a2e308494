import LineShell.Proofs.Editor.Drafts
import Mathlib.Logic.Function.Basic

/-!
# The screen shows the line

What an editor writes is taken by a row of a terminal, character by character. Echo, erasure and
recall keep in step with the buffer: wherever a read stands behind some keys, the row shows what it
showed before, then the line, and nothing behind it (`edit_shows`).
-/

namespace LineShell

/-- A row of a terminal: what stands in its cells, and the cell of the cursor. -/
structure Row where
  cells : Nat → Char := fun _ => ' '
  cursor : Nat := 0

namespace Row

variable {r : Row} {text more : List Char}

/-- A backspace moves the cursor to the left; any other character is written in its cell. -/
def take (r : Row) (c : Char) : Row :=
  if c = '\x08' then { r with cursor := r.cursor - 1 }
  else { cells := Function.update r.cells r.cursor c, cursor := r.cursor + 1 }

def takeAll (r : Row) (text : List Char) : Row := text.foldl take r

/-- Takes what has been written to a screen. -/
def replay (r : Row) (bytes : Bytes) : Row := r.takeAll (Utf8.decodeLossy bytes)

/-- The text stands left of the cursor, and nothing stands at the cursor or behind it. -/
structure Shows (r : Row) (text : List Char) : Prop where
  cursor : r.cursor = text.length
  left : ∀ i (h : i < text.length), r.cells i = text[i]
  blank : ∀ i, text.length ≤ i → r.cells i = ' '

theorem takeAll_append (r : Row) (a b : List Char) : r.takeAll (a ++ b) = (r.takeAll a).takeAll b :=
  List.foldl_append

theorem Shows.take (h : r.Shows text) {c : Char} (hc : c ≠ '\x08') : (r.take c).Shows (text ++ [c]) := by
  have hlength : (text ++ [c]).length = text.length + 1 := List.length_append
  rw [Row.take, if_neg hc]
  refine ⟨?_, fun i hi => ?_, fun i hi => ?_⟩
  · rw [hlength, h.cursor]
  · dsimp only
    by_cases hlast : i = text.length
    · subst hlast
      rw [h.cursor, Function.update_self, List.getElem_concat_length rfl]
    · have hlt : i < text.length := by omega
      rw [h.cursor, Function.update_of_ne hlast, h.left i hlt, List.getElem_append_left hlt]
  · dsimp only
    rw [h.cursor, Function.update_of_ne (by omega), h.blank i (by omega)]

theorem Shows.takeAll (h : r.Shows text) (hmore : ∀ c ∈ more, c ≠ '\x08') :
    (r.takeAll more).Shows (text ++ more) := by
  induction more generalizing r text with
  | nil => simpa [Row.takeAll] using h
  | cons c more ih =>
    obtain ⟨hc, hmore⟩ := List.forall_mem_cons.1 hmore
    have := ih (h.take hc) hmore
    rwa [List.append_assoc] at this

/-- Backspace, blank and backspace wipe one cell. -/
theorem Shows.wipe {c : Char} (h : r.Shows (text ++ [c])) : (r.takeAll (Draft.wiper 1)).Shows text := by
  have hlength : (text ++ [c]).length = text.length + 1 := List.length_append
  have hcursor : r.cursor = text.length + 1 := h.cursor.trans hlength
  have hrow : r.takeAll (Draft.wiper 1) =
      { cells := Function.update r.cells text.length ' ', cursor := text.length } := by
    simp [Row.takeAll, Draft.wiper, Row.take, hcursor]
  rw [hrow]
  refine ⟨rfl, fun i hi => ?_, fun i hi => ?_⟩
  · dsimp only
    rw [Function.update_of_ne (by omega), h.left i (by omega), List.getElem_append_left hi]
  · dsimp only
    by_cases hlast : i = text.length
    · rw [hlast, Function.update_self]
    · rw [Function.update_of_ne hlast, h.blank i (by omega)]

theorem Shows.wiper {count : Nat} (h : r.Shows (text ++ more)) (hcount : more.length = count) :
    (r.takeAll (Draft.wiper count)).Shows text := by
  induction count generalizing r more with
  | zero =>
    rw [List.eq_nil_of_length_eq_zero hcount, List.append_nil] at h
    exact h
  | succ count ih =>
    rcases List.eq_nil_or_concat' more with rfl | ⟨front, c, rfl⟩
    · cases hcount
    · have hsplit : Draft.wiper (count + 1) = Draft.wiper 1 ++ Draft.wiper count := rfl
      rw [← List.append_assoc] at h
      rw [hsplit, takeAll_append]
      exact ih h.wipe (by simpa using hcount)

end Row

namespace Draft

variable {d : Draft} {r : Row} {before : List Char}

/-- What is echoed of a key brings the row to the line as the key leaves it. -/
theorem shows_strike (h : r.Shows (before ++ d.text)) (hrecalled : ∀ c ∈ d.recalled, c ≠ '\x08') (k : Stroke) :
    (r.takeAll (d.echo k)).Shows (before ++ (d.strike k).text) := by
  cases k with
  | type c printable =>
    have hc : ∀ c' ∈ [c], c' ≠ '\x08' := by
      intro c' hc' heq
      obtain rfl := List.mem_singleton.1 hc'
      rw [heq] at printable
      exact absurd printable (by decide)
    have := h.takeAll hc
    rwa [List.append_assoc] at this
  | erase b erases =>
    rw [echo, strike]
    split
    · rename_i hnil
      rw [hnil] at h
      simpa [hnil, Row.takeAll] using h
    · rename_i hne
      obtain ⟨front, c, hfront⟩ := (List.eq_nil_or_concat' d.text).resolve_left hne
      rw [hfront, ← List.append_assoc] at h
      simpa [hfront] using h.wipe
  | up =>
    rw [echo, Row.takeAll_append]
    exact (h.wiper rfl).takeAll hrecalled
  | sequence x other => exact h
  | control b idle => exact h

theorem shows_strikeAll (h : r.Shows (before ++ d.text)) (hrecalled : ∀ c ∈ d.recalled, c ≠ '\x08')
    (ks : List Stroke) : (r.takeAll (d.echoes ks)).Shows (before ++ (d.strikeAll ks).text) := by
  induction ks generalizing d r with
  | nil => exact h
  | cons k ks ih =>
    have hsame : (d.strike k).recalled = d.recalled := by rw [recalled, recalled, strike_remembered]
    rw [echoes, Row.takeAll_append]
    exact ih (shows_strike h hrecalled k) (by rwa [hsame])

end Draft

namespace Editor

/-- **The screen shows the line.** Wherever a read stands behind some keys, the row shows what it showed
before it, and then the characters of the buffer. -/
theorem edit_shows (e : Editor) (strokes : List Stroke) {row : Row} {before : List Char} (hrow : row.Shows before)
    (hfits : e.draft.FitsRead e.capacity strokes) (hseed : ∀ c ∈ e.draft.text, IsPrintable c)
    (hremembered : ∀ c ∈ e.draft.recalled, IsPrintable c) :
    ∃ shown t text, (∀ rest ending, e.edit {} (strokes.flatMap Stroke.bytes ++ rest) ending =
        { e with pending := none }.typeOn { shown } t ending rest) ∧
      t.buffer = Utf8.encode text ∧ (row.replay shown).Shows (before ++ text) := by
  have hvisible : ∀ c : Char, IsPrintable c → c ≠ '\x08' := by
    rintro c hc rfl
    exact absurd hc (by decide)
  obtain ⟨escape, -, hedit⟩ := edit_strokes hfits
  refine ⟨Utf8.encode (e.draft.text ++ e.draft.echoes strokes),
    ⟨Utf8.encode (e.draft.strikeAll strokes).text, escape⟩, (e.draft.strikeAll strokes).text,
    hedit, rfl, ?_⟩
  rw [Row.replay, Utf8.decodeLossy_encode, Row.takeAll_append]
  exact Draft.shows_strikeAll (hrow.takeAll fun c hc => hvisible c (hseed c hc))
    (fun c hc => hvisible c (hremembered c hc)) strokes

/-- A seed is worked on behind a prompt, given up for the remembered line, and that is gone on with. -/
theorem edit_shows_recall :
    (({} : Row).replay (Utf8.ofString "$ ")).Shows ['$', ' '] ∧
      ∃ shown t text, (∀ rest ending, ({ capacity := 9, lastLine := some "hé", pending := some "l→" } : Editor).edit {}
          ([Stroke.erase Key.delete (by decide), .type 'ß' (by decide), .up, .type 'i' (by decide)].flatMap
            Stroke.bytes ++ rest) ending =
          ({ capacity := 9, lastLine := some "hé" } : Editor).typeOn { shown } t ending rest) ∧
        t.buffer = Utf8.encode text ∧
        ((({} : Row).replay (Utf8.ofString "$ ")).replay shown).Shows (['$', ' '] ++ text) := by
  have hprompt : (({} : Row).replay (Utf8.ofString "$ ")).Shows ['$', ' '] := by
    have hempty : ({} : Row).Shows [] := ⟨rfl, by simp, fun _ _ => rfl⟩
    have hvisible : ∀ c ∈ ['$', ' '], c ≠ '\x08' := by simp
    exact hempty.takeAll hvisible
  have hseed : ∀ c ∈ ['l', '→'], IsPrintable c := by simp [IsPrintable]
  have hremembered : ∀ c ∈ ['h', 'é'], IsPrintable c := by simp [IsPrintable]
  exact ⟨hprompt, edit_shows { capacity := 9, lastLine := some "hé", pending := some "l→" } _ hprompt
    ⟨by decide, by decide, by decide⟩ hseed hremembered⟩

end Editor

end LineShell
