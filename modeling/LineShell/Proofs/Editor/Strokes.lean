import LineShell.Proofs.Editor.Reading
import LineShell.Proofs.Text.Utf8
import Mathlib.Data.List.Chain

/-!
# Keys, and the line as it is seen

Who sits in front of the editor strikes keys and sees a line of characters, a `Draft`. The editor gets
bytes, one at a time, and keeps bytes. `pressAll_strokes` ties the two: where the draft has the
characters of the line, the editor has their encoding, and what it echoes is the encoding of
`Draft.echoes`. An escape byte that a key leaves behind stays open until the next byte, so the
statement is about keys none of which closes a sequence that another has opened (`Stroke.Apart`).
-/

namespace LineShell

namespace Editor

variable {e : Editor} {bs : Bytes}

/-! ## Bytes of characters -/

/-- The byte does not belong to an escape sequence. -/
def IsPlain (t : Typing) (b : UInt8) : Prop := t.escape = .idle ∨ t.escape = .start ∧ b ≠ Key.bracket

instance (t : Typing) (b : UInt8) : Decidable (IsPlain t b) := inferInstanceAs (Decidable (_ ∨ _))

theorem press_of_isPlain {t : Typing} {b : UInt8} (h : IsPlain t b) : e.press t b = e.pressPlain t.buffer b := by
  unfold press
  rcases h with hidle | ⟨hstart, hb⟩
  · rw [hidle]
  · rw [hstart]
    exact if_neg hb

/-- Is the byte one that is put into the line? -/
def IsText (b : UInt8) : Prop := Key.space ≤ b ∧ b ≠ Key.delete

instance (b : UInt8) : Decidable (IsText b) := inferInstanceAs (Decidable (_ ∧ _))

theorem pressPlain_of_isText {b : UInt8} (h : IsText b) (buffer : Bytes) :
    e.pressPlain buffer b =
      if e.capacity ≤ (buffer ++ [b]).length then ([b, Key.newline], .finish (buffer ++ [b]) true)
      else ([b], .more ⟨buffer ++ [b], .idle⟩) := by
  obtain ⟨hspace, hdelete⟩ := h
  have hne : ∀ k : UInt8, k < Key.space → b ≠ k := by
    rintro k hk rfl
    exact absurd hspace (UInt8.not_le.2 hk)
  unfold pressPlain
  rw [if_neg (hne _ (by decide)), if_neg (hne _ (by decide)), if_neg (hne _ (by decide)),
    if_neg (not_or.2 ⟨hne _ (by decide), hne _ (by decide)⟩), if_neg (not_or.2 ⟨hne _ (by decide), hdelete⟩),
    if_neg (UInt8.not_lt.2 hspace)]

/-- Text below the capacity is put into the buffer byte by byte. -/
theorem pressAll_of_isText {buffer : Bytes} (h : ∀ b ∈ bs, IsText b)
    (hroom : (buffer ++ bs).length < e.capacity) :
    e.pressAll ⟨buffer, .idle⟩ bs = some (bs, ⟨buffer ++ bs, .idle⟩) := by
  induction bs generalizing buffer with
  | nil => simp [pressAll]
  | cons b bs ih =>
    have hfull : ¬ e.capacity ≤ (buffer ++ [b]).length := by
      simp only [List.length_append, List.length_cons, List.length_nil] at hroom ⊢
      omega
    have hpress : e.press ⟨buffer, .idle⟩ b = ([b], .more ⟨buffer ++ [b], .idle⟩) :=
      (pressPlain_of_isText (h b List.mem_cons_self) buffer).trans (if_neg hfull)
    rw [pressAll_cons hpress, ih (fun b hb => h b (List.mem_cons_of_mem _ hb)) (by simpa using hroom)]
    simp

/-- A byte that is no bracket is taken behind an escape as it is taken otherwise. -/
theorem pressAll_start {b : UInt8} (h : b ≠ Key.bracket) (buffer : Bytes) :
    e.pressAll ⟨buffer, .start⟩ (b :: bs) = e.pressAll ⟨buffer, .idle⟩ (b :: bs) := by
  have hstart : IsPlain ⟨buffer, .start⟩ b := Or.inr ⟨rfl, h⟩
  have hidle : IsPlain ⟨buffer, .idle⟩ b := Or.inl rfl
  rw [pressAll, pressAll, press_of_isPlain hstart, press_of_isPlain hidle]

end Editor

/-! ## Keys -/

/-- A character that takes a place in the line: no control character, and not that of the delete key. -/
def IsPrintable (c : Char) : Prop := 0x20 ≤ c.toNat ∧ c.toNat ≠ 0x7f

instance (c : Char) : Decidable (IsPrintable c) := inferInstanceAs (Decidable (_ ∧ _))

/-- The control bytes that do something of their own. -/
def Key.controls : List UInt8 :=
  [Key.endOfTransmission, Key.backspace, Key.tab, Key.newline, Key.carriageReturn]

/-- A key that is struck while a line is written. -/
inductive Stroke where
  /-- A character, sent as its encoding. -/
  | type (c : Char) (printable : IsPrintable c)
  /-- The key that erases, which sends one of two bytes. -/
  | erase (b : UInt8) (erases : b = Key.backspace ∨ b = Key.delete)
  /-- Cursor-up, a sequence of three bytes. -/
  | up
  /-- Another sequence behind escape and bracket. -/
  | sequence (x : UInt8) (other : x < 0x80 ∧ x ≠ Key.up)
  /-- A control byte that does nothing. An escape is one of them. -/
  | control (b : UInt8) (idle : b < Key.space ∧ b ∉ Key.controls)

namespace Stroke

def bytes : Stroke → Bytes
  | type c _ => String.utf8EncodeChar c
  | erase b _ => [b]
  | up => [Key.escape, Key.bracket, Key.up]
  | sequence x _ => [Key.escape, Key.bracket, x]
  | control b _ => [b]

/-- What is open behind the key: an escape byte may be the beginning of a sequence. -/
def leaves : Stroke → Escape
  | control b _ => if b = Key.escape then .start else .idle
  | _ => .idle

/-- The second key does not go on with a sequence that the first has opened: then the two would be
another key. -/
def Apart (k k' : Stroke) : Prop := k.leaves = .start → k'.bytes.head? ≠ some Key.bracket

instance (k k' : Stroke) : Decidable (Apart k k') := inferInstanceAs (Decidable (_ → _))

theorem bytes_ne_nil (k : Stroke) : k.bytes ≠ [] := by
  cases k with
  | type c _ =>
    rcases Utf8.encodeChar_bytes c with ⟨-, h⟩ | ⟨-, b, cs, h, -⟩ <;> simp [bytes, h]
  | _ => simp [bytes]

theorem leaves_ne_bracket (k : Stroke) : k.leaves ≠ .bracket := by
  unfold leaves
  split
  · split <;> simp
  · simp

end Stroke

theorem IsPrintable.isText {c : Char} (h : IsPrintable c) : ∀ b ∈ String.utf8EncodeChar c, Editor.IsText b := by
  have htext : ∀ b : UInt8, 0x20 ≤ b.toNat → b.toNat ≠ 0x7f → Editor.IsText b := by
    intro b hspace hdelete
    refine ⟨UInt8.le_iff_toNat_le.2 hspace, ?_⟩
    rintro rfl
    exact hdelete rfl
  obtain ⟨hspace, hdelete⟩ := h
  rcases Utf8.encodeChar_bytes c with ⟨hc, hbytes⟩ | ⟨hc, b, cs, hbytes, hb, hcs⟩
  · have htoNat := Utf8.toNat_ofNat (show c.toNat < 256 by omega)
    rw [hbytes, List.forall_mem_singleton]
    exact htext _ (by omega) (by omega)
  · rw [hbytes, List.forall_mem_cons]
    refine ⟨htext b (by omega) (by omega), fun b' hb' => ?_⟩
    have := Utf8.isContinuation_iff.1 (hcs b' hb')
    exact htext b' (by omega) (by omega)

/-! ## The line as it is seen -/

/-- A line of characters, and the line that is remembered. -/
structure Draft where
  text : List Char := []
  remembered : Option String := none
  deriving Repr, DecidableEq

namespace Draft

variable {d : Draft} {e : Editor} {k : Stroke} {ks : List Stroke}

/-- The characters that cursor-up brings back. -/
def recalled (d : Draft) : List Char := (d.remembered.map String.toList).getD []

/-- What a key does to the line. -/
def strike (d : Draft) : Stroke → Draft
  | .type c _ => { d with text := d.text ++ [c] }
  | .erase _ _ => { d with text := d.text.dropLast }
  | .up => { d with text := d.recalled }
  | .sequence _ _ => d
  | .control _ _ => d

def strikeAll (d : Draft) (ks : List Stroke) : Draft := ks.foldl strike d

/-- The characters that wipe `count` cells left of the cursor. -/
def wiper (count : Nat) : List Char := (List.replicate count ['\x08', ' ', '\x08']).flatten

/-- What is shown of a key. -/
def echo (d : Draft) : Stroke → List Char
  | .type c _ => [c]
  | .erase _ _ => if d.text = [] then [] else wiper 1
  | .up => wiper d.text.length ++ d.recalled
  | .sequence _ _ => []
  | .control _ _ => []

def echoes : Draft → List Stroke → List Char
  | _, [] => []
  | d, k :: ks => d.echo k ++ (d.strike k).echoes ks

/-- The line stays below so many bytes if the key types a character. -/
def HasRoom (capacity : Nat) (d : Draft) : Stroke → Prop
  | .type c _ => (Utf8.encode (d.text ++ [c])).length < capacity
  | _ => True

/-- No character that is typed brings the line to so many bytes. -/
def StaysBelow (capacity : Nat) : Draft → List Stroke → Prop
  | _, [] => True
  | d, k :: ks => d.HasRoom capacity k ∧ (d.strike k).StaysBelow capacity ks

instance (capacity : Nat) (d : Draft) (k : Stroke) : Decidable (d.HasRoom capacity k) := by
  cases k <;> unfold HasRoom <;> infer_instance

instance decidableStaysBelow (capacity : Nat) : ∀ (d : Draft) (ks : List Stroke), Decidable (d.StaysBelow capacity ks)
  | _, [] => inferInstanceAs (Decidable True)
  | d, k :: ks =>
    have := decidableStaysBelow capacity (d.strike k) ks
    inferInstanceAs (Decidable (_ ∧ _))

@[simp] theorem strike_remembered (d : Draft) (k : Stroke) : (d.strike k).remembered = d.remembered := by
  cases k <;> rfl

@[simp] theorem strikeAll_remembered (d : Draft) (ks : List Stroke) :
    (d.strikeAll ks).remembered = d.remembered := by
  induction ks generalizing d with
  | nil => rfl
  | cons k ks ih => exact (ih _).trans (d.strike_remembered k)

end Draft

namespace Editor

variable {e : Editor} {d : Draft} {k : Stroke} {ks : List Stroke}

theorem eraser_eq (count : Nat) : eraser count = Utf8.encode (Draft.wiper count) := by
  induction count with
  | zero => rfl
  | succ count ih =>
    simp only [eraser, Draft.wiper, List.replicate_succ, List.flatten_cons, Utf8.encode_append] at ih ⊢
    rw [ih]
    rfl

theorem recalled_eq (h : e.lastLine = d.remembered) : e.recalled = Utf8.encode d.recalled := by
  unfold recalled Draft.recalled
  rw [h]
  cases d.remembered <;> rfl

theorem width_encode (text : List Char) : width (Utf8.encode text) = text.length := by
  rw [width, Utf8.decodeLossy_encode]

/-- Dropping bytes drops one whole character. -/
theorem dropChar_encode (text : List Char) : dropChar (Utf8.encode text) = Utf8.encode text.dropLast := by
  rcases List.eq_nil_or_concat' text with rfl | ⟨front, c, rfl⟩
  · rfl
  · have hlast : ∃ b cs, String.utf8EncodeChar c = b :: cs ∧ Utf8.isContinuation b = false ∧
        ∀ b' ∈ cs, Utf8.isContinuation b' = true := by
      rcases Utf8.encodeChar_bytes c with ⟨hc, hbytes⟩ | ⟨-, b, cs, hbytes, hb, hcs⟩
      · refine ⟨_, [], hbytes, ?_, by simp⟩
        rw [← Bool.not_eq_true, Utf8.isContinuation_iff, Utf8.toNat_ofNat (by omega)]
        omega
      · refine ⟨b, cs, hbytes, ?_, hcs⟩
        rw [← Bool.not_eq_true, Utf8.isContinuation_iff]
        omega
    obtain ⟨b, cs, hbytes, hb, hcs⟩ := hlast
    have hdrop : (cs.reverse ++ b :: (Utf8.encode front).reverse).dropWhile Utf8.isContinuation =
        b :: (Utf8.encode front).reverse := by
      rw [List.dropWhile_append_of_pos fun b' hb' => hcs b' (List.mem_reverse.1 hb'),
        List.dropWhile_cons_of_neg (by simp [hb])]
    rw [Utf8.encode_concat, hbytes, dropChar, List.dropLast_concat, List.reverse_append, List.reverse_cons,
      List.append_assoc, List.singleton_append, hdrop, List.tail_cons, List.reverse_reverse]

theorem pressPlain_erase {b : UInt8} (h : b = Key.backspace ∨ b = Key.delete) (buffer : Bytes) :
    e.pressPlain buffer b =
      if buffer = [] then ([], .more ⟨buffer, .idle⟩) else (eraser 1, .more ⟨dropChar buffer, .idle⟩) := by
  rcases h with rfl | rfl <;> rfl

theorem pressPlain_control {b : UInt8} (h : b < Key.space ∧ b ∉ Key.controls) (buffer : Bytes) :
    e.pressPlain buffer b = ([], .more ⟨buffer, if b = Key.escape then .start else .idle⟩) := by
  obtain ⟨hspace, hcontrols⟩ := h
  simp only [Key.controls, List.mem_cons, List.not_mem_nil, or_false, not_or] at hcontrols
  obtain ⟨hquit, hback, htab, hnewline, hreturn⟩ := hcontrols
  have hdelete : b ≠ Key.delete := by
    rintro rfl
    exact absurd hspace (by decide)
  unfold pressPlain
  by_cases hescape : b = Key.escape
  · rw [if_pos hescape, if_pos hescape]
  · rw [if_neg hescape, if_neg hquit, if_neg htab, if_neg (not_or.2 ⟨hnewline, hreturn⟩),
      if_neg (not_or.2 ⟨hback, hdelete⟩), if_pos hspace, if_neg hescape]

/-- What the bytes of a key do outside escape sequences. -/
theorem pressAll_stroke (h : e.lastLine = d.remembered) (hroom : d.HasRoom e.capacity k) :
    e.pressAll ⟨Utf8.encode d.text, .idle⟩ k.bytes =
      some (Utf8.encode (d.echo k), ⟨Utf8.encode (d.strike k).text, k.leaves⟩) := by
  have hopen : ∀ buffer, e.press ⟨buffer, .idle⟩ Key.escape = ([], .more ⟨buffer, .start⟩) := fun _ => rfl
  have hbracket : ∀ buffer, e.press ⟨buffer, .start⟩ Key.bracket = ([], .more ⟨buffer, .bracket⟩) := fun _ => rfl
  cases k with
  | type c printable =>
    rw [Draft.HasRoom, Utf8.encode_concat] at hroom
    simp only [Stroke.bytes, Draft.echo, Draft.strike, Stroke.leaves]
    rw [pressAll_of_isText printable.isText hroom, Utf8.encode_concat, Utf8.encode_singleton]
  | erase b erases =>
    have hpress := pressPlain_erase (e := e) erases (Utf8.encode d.text)
    simp only [Stroke.bytes, Draft.echo, Draft.strike, Stroke.leaves]
    by_cases hnil : d.text = []
    · rw [if_pos hnil]
      rw [if_pos (by rw [hnil]; rfl)] at hpress
      rw [hnil] at hpress ⊢
      exact pressAll_one hpress
    · rw [if_neg hnil]
      rw [if_neg (mt Utf8.encode_eq_nil.1 hnil), dropChar_encode, eraser_eq] at hpress
      exact pressAll_one hpress
  | up =>
    have hup : e.press ⟨Utf8.encode d.text, .bracket⟩ Key.up =
        (Utf8.encode (Draft.wiper d.text.length ++ d.recalled), .more ⟨Utf8.encode d.recalled, .idle⟩) := by
      simp only [press, if_true]
      rw [width_encode, eraser_eq, recalled_eq h, Utf8.encode_append]
    simp only [Stroke.bytes, Draft.echo, Draft.strike, Stroke.leaves]
    rw [pressAll_cons (hopen _), pressAll_cons (hbracket _), pressAll_one hup]
    rfl
  | sequence x other =>
    have hx : e.press ⟨Utf8.encode d.text, .bracket⟩ x = ([], .more ⟨Utf8.encode d.text, .idle⟩) := by
      simp only [press, if_neg other.2]
    simp only [Stroke.bytes, Draft.echo, Draft.strike, Stroke.leaves]
    rw [pressAll_cons (hopen _), pressAll_cons (hbracket _), pressAll_one hx]
    rfl
  | control b idle => exact pressAll_one (pressPlain_control idle (Utf8.encode d.text))

/-- **Keys in a row.** The buffer holds the encoded line behind them, if it did in front of them, and no
key goes on with an escape sequence that has been opened. -/
theorem pressAll_strokes {escape : Escape} (h : e.lastLine = d.remembered) (hroom : d.StaysBelow e.capacity ks)
    (hapart : ks.IsChain Stroke.Apart) (hescape : escape ≠ .bracket)
    (hfirst : escape = .start → ∀ k ∈ ks.head?, k.bytes.head? ≠ some Key.bracket) :
    ∃ escape', escape' ≠ .bracket ∧
      e.pressAll ⟨Utf8.encode d.text, escape⟩ (ks.flatMap Stroke.bytes) =
        some (Utf8.encode (d.echoes ks), ⟨Utf8.encode (d.strikeAll ks).text, escape'⟩) := by
  induction ks generalizing d escape with
  | nil => exact ⟨escape, hescape, rfl⟩
  | cons k ks ih =>
    obtain ⟨hk, hks⟩ := hroom
    obtain ⟨hhead, htail⟩ := List.isChain_cons.1 hapart
    obtain ⟨escape', hescape', hrest⟩ := ih (h.trans (d.strike_remembered k).symm) hks htail
      k.leaves_ne_bracket fun hstart k' hk' => hhead k' hk' hstart
    have hstroke : e.pressAll ⟨Utf8.encode d.text, escape⟩ k.bytes =
        some (Utf8.encode (d.echo k), ⟨Utf8.encode (d.strike k).text, k.leaves⟩) := by
      rw [← pressAll_stroke h hk]
      obtain ⟨b, bs, hbytes⟩ := List.exists_cons_of_ne_nil k.bytes_ne_nil
      cases escape with
      | idle => rfl
      | start =>
        have hb := hfirst rfl k rfl
        rw [hbytes, List.head?_cons, ne_eq, Option.some_inj] at hb
        rw [hbytes, pressAll_start hb]
      | bracket => exact absurd rfl hescape
    refine ⟨escape', hescape', ?_⟩
    rw [List.flatMap_cons, pressAll_append hstroke, hrest, Option.map_some, Draft.echoes, Utf8.encode_append]
    rfl

end Editor

end LineShell
