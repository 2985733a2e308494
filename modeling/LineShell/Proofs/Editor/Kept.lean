import LineShell.Proofs.Editor.Capacity

/-!
# What is left of a seed

A read begins with its seed in the buffer. Bytes are taken from the end of the buffer, or all of it is given up for
the remembered line; so what is left of the seed when the read gives its line is the beginning of it
(`Editor.keptSeed`). Behind that stands what was put into the line, and no control byte is: where the
remembered line holds none, a control character is in the line just if it is in what is left of the seed
(`mem_line_iff`).
-/

namespace LineShell.Editor

variable {e : Editor} {t : Typing} {b x : UInt8} {seed buffer bs : Bytes} {n : Nat} {s : Screen} {ending : Ending}
  {text : String} {c : Char}

/-- The byte brings the remembered line back. -/
def Recalls (t : Typing) (b : UInt8) : Prop := t.escape = .bracket ∧ b = Key.up

instance (t : Typing) (b : UInt8) : Decidable (Recalls t b) := inferInstanceAs (Decidable (_ ∧ _))

/-- How many of the first `n` bytes of the buffer are left where the read comes to an end. -/
def kept (e : Editor) (t : Typing) (n : Nat) : Bytes → Nat
  | [] => n
  | b :: bs =>
    match (e.press t b).2 with
    | .more t' => kept e t' (if Recalls t b then 0 else min n t'.buffer.length) bs
    | _ => n

/-- What is left of the seed where a read comes to an end. -/
def keptSeed (e : Editor) (input : Bytes) : Bytes :=
  e.seedBytes.take ({ e with pending := none }.kept { buffer := e.seedBytes } e.seedBytes.length input)

/-- The buffer begins with so much of the seed, and has the byte in no other place. -/
def Begins (x : UInt8) (seed : Bytes) (n : Nat) (buffer : Bytes) : Prop :=
  ∃ added, buffer = seed.take n ++ added ∧ n ≤ seed.length ∧ x ∉ added

theorem Begins.concat (h : Begins x seed n buffer) (hb : b ≠ x) : Begins x seed n (buffer ++ [b]) := by
  obtain ⟨added, rfl, hn, hx⟩ := h
  exact ⟨added ++ [b], List.append_assoc _ _ _, hn, by simp [hx, hb.symm]⟩

theorem Begins.of_prefix (h : Begins x seed n buffer) {buffer' : Bytes} (hbuffer : buffer' <+: buffer) :
    Begins x seed (min n buffer'.length) buffer' := by
  obtain ⟨added, rfl, hn, hx⟩ := h
  refine ⟨added.take (buffer'.length - n), ?_, (Nat.min_le_left _ _).trans hn, fun hmem => hx (List.mem_of_mem_take hmem)⟩
  conv_lhs => rw [List.prefix_iff_eq_take.1 hbuffer]
  rw [List.take_append, List.length_take_of_le hn, List.take_take, Nat.min_comm]

theorem Begins.length_le (h : Begins x seed n buffer) : n ≤ buffer.length := by
  obtain ⟨added, rfl, hn, -⟩ := h
  rw [List.length_append, List.length_take_of_le hn]
  exact Nat.le_add_right _ _

theorem Begins.mem_iff (h : Begins x seed n buffer) : x ∈ buffer ↔ x ∈ seed.take n := by
  obtain ⟨added, rfl, -, hx⟩ := h
  rw [List.mem_append, or_iff_left hx]

theorem Recalls.press (h : Recalls t b) : (e.press t b).2 = .more ⟨e.recalled, .idle⟩ := by
  simp only [Editor.press, h.1, h.2, if_true]

/-- What is neither put into the line nor brings one back leaves a beginning of the buffer, with the mark of Tab
behind it perhaps. -/
theorem press_other (htakes : ¬ Takes t b) (hrecalls : ¬ Recalls t b) :
    match (e.press t b).2 with
    | .more t' => t'.buffer <+: t.buffer
    | .finish buffer _ => buffer = t.buffer ∨ buffer = t.buffer ++ [Key.question]
    | .quit => True := by
  by_cases hplain : IsPlain t b
  · -- a plain byte has nothing to do with the remembered line
    have hpasses : Passes { e with lastLine := none } t (e.pressPlain t.buffer b).2 :=
      pressPlain_passes (e := { e with lastLine := none }) fun htext => htakes ⟨hplain, htext⟩
    rw [press_of_isPlain hplain]
    generalize (e.pressPlain t.buffer b).2 = next at hpasses ⊢
    cases hpasses with
    | keep escape => exact List.prefix_rfl
    | drop => exact dropChar_isPrefix t.buffer
    | recalls => exact List.nil_prefix
    | enter => exact .inl rfl
    | tab => exact .inr rfl
    | quit => trivial
  · obtain ⟨buffer, escape⟩ := t
    simp only [IsPlain, not_or, not_and, not_not] at hplain
    cases escape with
    | idle => exact absurd rfl hplain.1
    | start =>
      rw [hplain.2 rfl]
      exact List.prefix_rfl
    | bracket =>
      have hb : b ≠ Key.up := fun hb => hrecalls ⟨rfl, hb⟩
      simp only [press, if_neg hb]
      exact List.prefix_rfl

/-- What one byte leaves of a seed. -/
theorem Begins.press (hx : ¬ IsText x) (hrecalled : x ∉ e.recalled) (h : Begins x seed n t.buffer) (b : UInt8) :
    match (e.press t b).2 with
    | .more t' => Begins x seed (if Recalls t b then 0 else min n t'.buffer.length) t'.buffer
    | .finish buffer _ => Begins x seed n buffer
    | .quit => True := by
  by_cases hrecalls : Recalls t b
  · rw [hrecalls.press]
    dsimp only
    rw [if_pos hrecalls]
    exact ⟨e.recalled, by simp, Nat.zero_le _, hrecalled⟩
  by_cases htakes : Takes t b
  · have hconcat : Begins x seed n (t.buffer ++ [b]) := h.concat fun hb => hx (hb ▸ htakes.2)
    rw [press_of_isPlain htakes.1, pressPlain_of_isText htakes.2]
    split_ifs
    · exact hconcat
    · dsimp only
      rw [Nat.min_eq_left hconcat.length_le]
      exact hconcat
  · have hother := press_other (e := e) htakes hrecalls
    generalize (e.press t b).2 = next at hother ⊢
    cases next with
    | more t' =>
      dsimp only
      rw [if_neg hrecalls]
      exact h.of_prefix hother
    | finish buffer remember =>
      rcases hother with rfl | rfl
      · exact h
      · exact h.concat fun hb => hx (hb ▸ by decide)
    | quit => trivial

/-- What a read leaves of a seed. -/
theorem typeOn_begins (hx : ¬ IsText x) (hrecalled : x ∉ e.recalled) (hroom : s.room = none)
    (h : Begins x seed n t.buffer) (hline : (e.typeOn s t ending bs).result = .ok (.line text)) :
    ∃ buffer, text = String.ofList (Utf8.decodeLossy buffer) ∧ Begins x seed (e.kept t n bs) buffer := by
  induction bs generalizing t s n with
  | nil =>
    simp only [typeOn] at hline
    split at hline
    · cases hline
    · split at hline
      · cases hline
      · cases hline
        exact ⟨t.buffer, rfl, h⟩
  | cons b bs ih =>
    have hpress := h.press (e := e) hx hrecalled b
    simp only [typeOn, Screen.write, hroom] at hline
    simp only [kept]
    generalize (e.press t b).2 = next at hpress hline ⊢
    cases next with
    | more t' => exact ih rfl hpress hline
    | quit => cases hline
    | finish buffer remember =>
      cases hline
      exact ⟨buffer, rfl, hpress⟩

/-! ## Control characters -/

/-- The byte of an ASCII character. -/
def byteOf (c : Char) : UInt8 := UInt8.ofNat c.toNat

theorem toNat_byteOf (hc : ¬ IsPrintable c) : (byteOf c).toNat = c.toNat := by
  refine Utf8.toNat_ofNat ?_
  simp only [IsPrintable, not_and, not_not] at hc
  omega

/-- The bytes that are not put into the line are those of the control characters. -/
theorem not_isText_byteOf (hc : ¬ IsPrintable c) : ¬ IsText (byteOf c) := by
  rintro ⟨hspace, hdelete⟩
  refine hc ⟨?_, fun hc' => hdelete ?_⟩
  · rw [← toNat_byteOf hc]
    exact UInt8.le_iff_toNat_le.1 hspace
  · rw [byteOf, hc']
    rfl

theorem toNat_byteOf_lt (hc : ¬ IsPrintable c) : (byteOf c).toNat < 0x80 := by
  rw [toNat_byteOf hc]
  simp only [IsPrintable, not_and, not_not] at hc
  omega

theorem mem_decodeLossy_iff (hc : ¬ IsPrintable c) : c ∈ Utf8.decodeLossy bs ↔ byteOf c ∈ bs := by
  rw [← Utf8.mem_decodeLossy_iff (toNat_byteOf_lt hc), toNat_byteOf hc, Char.ofNat_toNat]

theorem mem_ofString_iff (hc : ¬ IsPrintable c) : byteOf c ∈ Utf8.ofString text ↔ c ∈ text.toList := by
  rw [← mem_decodeLossy_iff hc, Utf8.ofString, Utf8.decodeLossy_encode]

/-- A control character is in a line just if it is in what the read has left of its seed. -/
theorem mem_line_iff (hc : ¬ IsPrintable c) (hrecalled : byteOf c ∉ e.recalled) {input : Bytes}
    (hline : (e.edit {} input ending).result = .ok (.line text)) :
    c ∈ text.toList ↔ byteOf c ∈ e.keptSeed input := by
  rw [edit_eq_typeOn] at hline
  have hbegins : Begins (byteOf c) e.seedBytes e.seedBytes.length e.seedBytes := ⟨[], by simp, Nat.le_refl _, by simp⟩
  obtain ⟨buffer, rfl, hbuffer⟩ := typeOn_begins (e := { e with pending := none })
    (s := { shown := e.seedBytes }) (t := { buffer := e.seedBytes }) (not_isText_byteOf hc) hrecalled rfl hbegins hline
  rw [String.toList_ofList, mem_decodeLossy_iff hc, hbuffer.mem_iff]
  rfl

-- two characters erased and one typed, of which the first has three bytes
example : ({ capacity := 9, pending := some "a→b" } : Editor).keptSeed [Key.delete, Key.delete, 0x78] = [0x61] := by
  decide

/-! ## The remembered line -/

/-- A read remembers what was remembered before, or the line that it gives. -/
theorem typeOn_lastLine (e : Editor) (s : Screen) (t : Typing) (ending : Ending) (bs : Bytes) :
    (e.typeOn s t ending bs).editor.lastLine = e.lastLine ∨
      ∃ text, (e.typeOn s t ending bs).result = .ok (.line text) ∧
        (e.typeOn s t ending bs).editor.lastLine = some text := by
  induction bs generalizing s t with
  | nil =>
    unfold typeOn
    split
    · exact .inl rfl
    · split
      · exact .inl rfl
      · exact .inr ⟨_, rfl, rfl⟩
  | cons b bs ih =>
    unfold typeOn
    dsimp only
    split
    · exact .inl rfl
    · split
      · exact ih _ _
      · exact .inl rfl
      · next buffer remember _ =>
        cases remember with
        | true => exact .inr ⟨_, rfl, rfl⟩
        | false => exact .inl rfl

theorem edit_lastLine (e : Editor) (input : Bytes) (ending : Ending) :
    (e.edit {} input ending).editor.lastLine = e.lastLine ∨
      ∃ text, (e.edit {} input ending).result = .ok (.line text) ∧
        (e.edit {} input ending).editor.lastLine = some text := by
  rw [edit_eq_typeOn]
  exact typeOn_lastLine _ _ _ _ _

/-- A control character is remembered only of a line that holds it. -/
theorem mem_recalled_iff (hc : ¬ IsPrintable c) :
    byteOf c ∈ e.recalled ↔ ∃ text, e.lastLine = some text ∧ c ∈ text.toList := by
  unfold recalled
  cases e.lastLine with
  | none => simp
  | some text => simpa using mem_ofString_iff hc

/-- A seed has no control characters but those of its text. -/
theorem mem_of_mem_seedBytes (hc : ¬ IsPrintable c) (h : byteOf c ∈ e.seedBytes) :
    ∃ text, e.pending = some text ∧ c ∈ text.toList := by
  have hpending := List.mem_of_mem_take h
  cases hseed : e.pending with
  | none => simp [hseed] at hpending
  | some text =>
    rw [hseed] at hpending
    exact ⟨text, rfl, (mem_ofString_iff hc).1 hpending⟩

end LineShell.Editor
