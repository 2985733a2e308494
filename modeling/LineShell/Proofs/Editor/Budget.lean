import LineShell.Proofs.Editor.Reading
import Mathlib.Tactic.SplitIfs

/-!
# Screens and readers that fail

A read on a screen that takes so many bytes goes the same way as on one that takes everything, as long as
there is room (`Parallel`). Where the room runs out, in the middle of a write perhaps, the read ends
with nothing changed but what is shown and the seed, which is used up (`edit_limited`).

What a byte echoes is put together of several writes (`Editor.writes`). Where one of them fails, those behind
it are not made; the screen is left as the one write of the whole echo leaves it (`writeEach_eq`).
-/

namespace LineShell

/-! ## Screens -/

namespace Screen

variable {n : Nat} {shown more : Bytes}

/-- The screen of `n` bytes on which so much was to be shown. -/
def limited (n : Nat) (shown : Bytes) : Screen := { shown := shown.take n, room := some (n - shown.length) }

theorem write_limited (h : shown.length ≤ n) (bytes : Bytes) :
    (limited n shown).write bytes = (decide ((shown ++ bytes).length ≤ n), limited n (shown ++ bytes)) := by
  have hfits : bytes.length ≤ n - shown.length ↔ (shown ++ bytes).length ≤ n := by
    rw [List.length_append]
    omega
  simp only [limited, write, hfits, List.take_append, List.length_append, Nat.sub_sub]

theorem limited_nil (n : Nat) : limited n [] = { room := some n } := by
  simp [limited]

/-- Where there is no room left nothing more is shown. -/
theorem limited_eq_of_prefix (h : shown <+: more) (hn : n ≤ shown.length) : limited n shown = limited n more := by
  obtain ⟨rest, rfl⟩ := h
  have hroom : n - (shown ++ rest).length = n - shown.length := by
    rw [List.length_append]
    omega
  rw [limited, limited, List.take_append_of_le_length hn, hroom]

/-- A write of two pieces is a write of the first, and one of the second if that has not failed. -/
theorem write_append (s : Screen) (front back : Bytes) :
    s.write (front ++ back) =
      match s.write front with
      | (false, s) => (false, s)
      | (true, s) => s.write back := by
  obtain ⟨shown, room⟩ := s
  cases room with
  | none => simp [write]
  | some n =>
    by_cases hn : front.length ≤ n
    · have hfits : front.length + back.length ≤ n ↔ back.length ≤ n - front.length := by omega
      simp [write, hn, hfits, List.take_append, Nat.sub_sub]
    · have hfits : ¬ front.length + back.length ≤ n := by omega
      have hroom : n - (front.length + back.length) = n - front.length := by omega
      have htake : (front ++ back).take n = front.take n := List.take_append_of_le_length (by omega)
      simp [write, hn, hfits, hroom, htake]

/-- Writes piece after piece, until one fails. -/
def writeEach (s : Screen) : List Bytes → Bool × Screen
  | [] => (true, s)
  | bytes :: rest =>
    match s.write bytes with
    | (false, s) => (false, s)
    | (true, s) => writeEach s rest

/-- Pieces that are written one after another are written as one. -/
theorem writeEach_eq (s : Screen) (pieces : List Bytes) : s.writeEach pieces = s.write pieces.flatten := by
  induction pieces generalizing s with
  | nil =>
    obtain ⟨shown, room⟩ := s
    cases room <;> simp [writeEach, write]
  | cons bytes rest ih => simp only [writeEach, List.flatten_cons, write_append, ih]

end Screen

namespace Editor

variable {e : Editor} {s : Screen} {t : Typing} {b : UInt8} {bs shown : Bytes} {n : Nat} {ending : Ending}

/-! ## The writes of a byte -/

/-- The writes of a byte outside escape sequences. -/
def plainWrites (e : Editor) (buffer : Bytes) (b : UInt8) : List Bytes :=
  if b = Key.escape then []
  else if b = Key.endOfTransmission then []
  else if b = Key.tab then [[Key.newline]]
  else if b = Key.newline ∨ b = Key.carriageReturn then [[Key.newline]]
  else if b = Key.backspace ∨ b = Key.delete then if buffer = [] then [] else [eraser 1]
  else if b < Key.space then []
  else if e.capacity ≤ (buffer ++ [b]).length then [[b], [Key.newline]]
  else [[b]]

/-- The writes of a byte, in their order: recalling wipes cell after cell and then shows the line, if
there is one. -/
def writes (e : Editor) (t : Typing) (b : UInt8) : List Bytes :=
  match t.escape with
  | .start => if b = Key.bracket then [] else plainWrites e t.buffer b
  | .bracket =>
    if b = Key.up then List.replicate (width t.buffer) (eraser 1) ++ (e.lastLine.map Utf8.ofString).toList else []
  | .idle => plainWrites e t.buffer b

theorem flatten_plainWrites (e : Editor) (buffer : Bytes) (b : UInt8) :
    (e.plainWrites buffer b).flatten = (e.pressPlain buffer b).1 := by
  simp [plainWrites, pressPlain, apply_ite List.flatten, apply_ite Prod.fst]

/-- The writes of a byte make up its echo. -/
theorem flatten_writes (e : Editor) (t : Typing) (b : UInt8) : (e.writes t b).flatten = (e.press t b).1 := by
  have hwipe : (List.replicate (width t.buffer) (eraser 1)).flatten = eraser (width t.buffer) := rfl
  have hrecalled : (e.lastLine.map Utf8.ofString).toList.flatten = e.recalled := by
    unfold recalled
    cases e.lastLine <;> simp
  obtain ⟨buffer, escape⟩ := t
  cases escape with
  | idle => exact flatten_plainWrites e buffer b
  | start =>
    simp only [writes, press, apply_ite List.flatten, apply_ite Prod.fst, flatten_plainWrites, List.flatten_nil]
  | bracket =>
    simp only [writes, press, apply_ite List.flatten, apply_ite Prod.fst, List.flatten_append, hwipe, hrecalled,
      List.flatten_nil]

/-! ## Behind the echo -/

/-- How a read goes on when the echo of a byte has been written. -/
def goOn (e : Editor) (s : Screen) (ending : Ending) (bs : Bytes) : Next → Read
  | .more t => typeOn e s t ending bs
  | .quit => ⟨.ok .eof, e, s, bs⟩
  | .finish buffer remember => ⟨.ok (e.accept buffer remember).1, (e.accept buffer remember).2, s, bs⟩

theorem typeOn_cons (e : Editor) (s : Screen) (t : Typing) (ending : Ending) (b : UInt8) (bs : Bytes) :
    e.typeOn s t ending (b :: bs) =
      match s.write (e.press t b).1 with
      | (false, s) => ⟨.error .write, e, s, bs⟩
      | (true, s) => e.goOn s ending bs (e.press t b).2 := by
  rw [typeOn]
  obtain ⟨echo, next⟩ := e.press t b
  cases next <;> rfl

/-- Nothing stops a read on a screen that takes everything. -/
theorem typeOn_cons_all (e : Editor) (shown : Bytes) (t : Typing) (ending : Ending) (b : UInt8) (bs : Bytes) :
    e.typeOn { shown } t ending (b :: bs) = e.goOn { shown := shown ++ (e.press t b).1 } ending bs (e.press t b).2 :=
  typeOn_cons e { shown } t ending b bs

theorem typeOn_cons_limited (h : shown.length ≤ n) (e : Editor) (t : Typing) (ending : Ending) (b : UInt8)
    (bs : Bytes) :
    e.typeOn (Screen.limited n shown) t ending (b :: bs) =
      if (shown ++ (e.press t b).1).length ≤ n then
        e.goOn (Screen.limited n (shown ++ (e.press t b).1)) ending bs (e.press t b).2
      else ⟨.error .write, e, Screen.limited n (shown ++ (e.press t b).1), bs⟩ := by
  rw [typeOn_cons, Screen.write_limited h]
  split_ifs with hroom <;> simp only [hroom, decide_true, decide_false]

theorem goOn_shown (h : ∀ t, shown <+: (e.typeOn { shown } t ending bs).screen.shown) (next : Next) :
    shown <+: (e.goOn { shown } ending bs next).screen.shown := by
  cases next with
  | more t => exact h t
  | quit => exact List.prefix_rfl
  | finish buffer remember => exact List.prefix_rfl

/-- What is shown stays shown. -/
theorem typeOn_shown (e : Editor) (shown : Bytes) (t : Typing) (ending : Ending) (bs : Bytes) :
    shown <+: (e.typeOn { shown } t ending bs).screen.shown := by
  induction bs generalizing shown t with
  | nil =>
    unfold typeOn
    split
    · exact List.prefix_rfl
    · split <;> exact List.prefix_rfl
  | cons b bs ih =>
    rw [typeOn_cons_all]
    exact (List.prefix_append shown (e.press t b).1).trans (goOn_shown (fun t' => ih _ t') _)

/-! ## Two reads -/

/-- A read on a screen of `n` bytes, beside the same read on a screen that takes everything. -/
structure Parallel (n : Nat) (e : Editor) (full cut : Read) : Prop where
  screen : cut.screen = Screen.limited n full.screen.shown
  within : full.screen.shown.length ≤ n → cut.result = full.result ∧ cut.editor = full.editor ∧ cut.rest = full.rest
  beyond : n < full.screen.shown.length → cut.result = .error .write ∧ cut.editor = e

/-- Where the room has run out, the other read may go on: of this one nothing changes any more. -/
theorem Parallel.of_full {full : Read} (h : shown <+: full.screen.shown) (hn : n < shown.length) (rest : Bytes) :
    Parallel n e full ⟨.error .write, e, Screen.limited n shown, rest⟩ := by
  have hlength := h.length_le
  exact ⟨Screen.limited_eq_of_prefix h (Nat.le_of_lt hn), fun hle => by omega, fun _ => ⟨rfl, rfl⟩⟩

/-- Where two reads end in the same way, there was room. -/
theorem Parallel.of_eq (h : shown.length ≤ n) (result : Except EditError Input) (e' : Editor) (room : Option Nat)
    (rest : Bytes) : Parallel n e ⟨result, e', ⟨shown, room⟩, rest⟩ ⟨result, e', Screen.limited n shown, rest⟩ :=
  ⟨rfl, fun _ => ⟨rfl, rfl, rfl⟩, fun hlt => absurd hlt (Nat.not_lt.2 h)⟩

theorem typeOn_parallel (h : shown.length ≤ n) (bs : Bytes) :
    Parallel n e (e.typeOn { shown } t ending bs) (e.typeOn (Screen.limited n shown) t ending bs) := by
  induction bs generalizing shown t with
  | nil =>
    unfold typeOn
    split
    · exact .of_eq h _ _ _ _
    · split <;> exact .of_eq h _ _ _ _
  | cons b bs ih =>
    rw [typeOn_cons_all, typeOn_cons_limited h]
    split_ifs with hroom
    · cases (e.press t b).2 with
      | more t' => exact ih hroom
      | quit => exact .of_eq hroom _ _ _ _
      | finish buffer remember => exact .of_eq hroom _ _ _ _
    · have hshown := goOn_shown (fun t' => typeOn_shown e (shown ++ (e.press t b).1) t' ending bs) (e.press t b).2
      exact .of_full hshown (Nat.lt_of_not_le hroom) bs

theorem edit_parallel (e : Editor) (input : Bytes) (ending : Ending) (n : Nat) :
    Parallel n { e with pending := none } (e.edit {} input ending) (e.edit { room := some n } input ending) := by
  rw [edit_eq_typeOn, ← Screen.limited_nil]
  unfold edit
  dsimp only
  rw [Screen.write_limited (Nat.zero_le n), List.nil_append]
  by_cases hroom : e.seedBytes.length ≤ n
  · simp only [hroom, decide_true]
    exact typeOn_parallel hroom input
  · simp only [hroom, decide_false]
    exact .of_full (typeOn_shown _ _ _ _ _) (Nat.lt_of_not_le hroom) input

/-! ## Errors -/

/-- A screen that takes everything does not fail. -/
theorem typeOn_ne_write (e : Editor) (shown : Bytes) (t : Typing) (ending : Ending) (bs : Bytes) :
    (e.typeOn { shown } t ending bs).result ≠ .error .write := by
  induction bs generalizing shown t with
  | nil =>
    unfold typeOn
    split
    · exact fun h => nomatch h
    · split <;> exact fun h => nomatch h
  | cons b bs ih =>
    rw [typeOn_cons_all]
    cases (e.press t b).2 with
    | more t' => exact ih _ t'
    | quit => exact fun h => nomatch h
    | finish buffer remember => exact fun h => nomatch h

/-- A read that fails leaves the editor as it was. -/
theorem typeOn_error {error : EditError} (h : (e.typeOn s t ending bs).result = .error error) :
    (e.typeOn s t ending bs).editor = e := by
  induction bs generalizing s t with
  | nil =>
    cases ending with
    | broken => rfl
    | used =>
      -- the end of the input is no failure
      simp only [typeOn] at h
      split_ifs at h
  | cons b bs ih =>
    rw [typeOn_cons] at h ⊢
    split at h
    · rfl
    · cases hnext : (e.press t b).2 with
      | more t' =>
        rw [hnext] at h
        exact ih h
      | quit => rfl
      | finish buffer remember =>
        rw [hnext] at h
        cases h

/-- So does a read that fails before it has begun, but for the seed. -/
theorem edit_error {input : Bytes} {error : EditError} (h : (e.edit s input ending).result = .error error) :
    (e.edit s input ending).editor = { e with pending := none } := by
  unfold edit at h ⊢
  dsimp only at h ⊢
  split at h
  · rfl
  · exact typeOn_error h

theorem edit_pending (e : Editor) (s : Screen) (input : Bytes) (ending : Ending) :
    (e.edit s input ending).editor.pending = none := by
  unfold edit
  dsimp only
  split
  · rfl
  · exact (typeOn_keeps _ _ _ _ _).2

/-- **A screen that fails.** Of what a read shows, a screen of `n` bytes shows the first `n`. If this is all of it the
two reads are the same. Otherwise the read fails, and nothing of the editor has changed but that the
seed is used up; the same is true of every read that fails, whatever its screen. It makes no
difference to a screen that the writes of a byte are several. -/
theorem edit_limited (e : Editor) (input : Bytes) (ending : Ending) (n : Nat) :
    let full := e.edit {} input ending
    let cut := e.edit { room := some n } input ending
    cut.screen.shown = full.screen.shown.take n ∧
      (full.screen.shown.length ≤ n → cut.result = full.result ∧ cut.editor = full.editor ∧ cut.rest = full.rest) ∧
      (n < full.screen.shown.length → cut.result = .error .write ∧ cut.editor = { e with pending := none }) ∧
      full.result ≠ .error .write ∧
      (∀ s : Screen, (e.edit s input ending).editor.pending = none ∧ ∀ error,
        (e.edit s input ending).result = .error error → (e.edit s input ending).editor = { e with pending := none }) ∧
      ∀ (s : Screen) (t : Typing) (b : UInt8), s.writeEach (e.writes t b) = s.write (e.press t b).1 := by
  intro full cut
  have hparallel := edit_parallel e input ending n
  refine ⟨?_, hparallel.within, hparallel.beyond, ?_, fun s => ⟨e.edit_pending s input ending, fun error => edit_error⟩,
    fun s t b => ?_⟩
  · rw [hparallel.screen]
    rfl
  · exact typeOn_ne_write _ _ _ _ _
  · rw [Screen.writeEach_eq, flatten_writes]

/-- An editor that is seeded and remembers a line whose last character has two bytes. -/
def seeded : Editor := { capacity := 9, lastLine := some "aé", pending := some "x" }

/-- The room runs out in the middle of the character that is recalled. -/
theorem edit_limited_recall :
    (seeded.edit {} [Key.escape, Key.bracket, Key.up, 0x62] .used).screen.shown =
        [0x78, 0x08, 0x20, 0x08, 0x61, 0xc3, 0xa9, 0x62] ∧
      (seeded.edit { room := some 6 } [Key.escape, Key.bracket, Key.up, 0x62] .used).screen.shown =
        [0x78, 0x08, 0x20, 0x08, 0x61, 0xc3] ∧
      (seeded.edit { room := some 6 } [Key.escape, Key.bracket, Key.up, 0x62] .used).result = .error .write ∧
      (seeded.edit { room := some 6 } [Key.escape, Key.bracket, Key.up, 0x62] .used).editor =
        { capacity := 9, lastLine := some "aé" } := by
  have hfull : (seeded.edit {} [Key.escape, Key.bracket, Key.up, 0x62] .used).screen.shown =
      [0x78, 0x08, 0x20, 0x08, 0x61, 0xc3, 0xa9, 0x62] := by
    decide +kernel
  obtain ⟨hshown, -, hbeyond, -⟩ := edit_limited seeded [Key.escape, Key.bracket, Key.up, 0x62] .used 6
  rw [hfull] at hshown hbeyond
  exact ⟨hfull, hshown, hbeyond (by decide)⟩

end Editor

end LineShell
