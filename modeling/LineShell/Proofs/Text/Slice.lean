import LineShell.Proofs.Text.Boundaries
import LineShell.Text.Slice

/-!
# Pieces of encoded text

The places where encoded text can be cut are those between its characters (`isCut_encode`), so that a piece is a text
again (`slice?_encode`). An ASCII character is a byte of its own: a text begins or ends with it exactly if its bytes
do (`head?_encode`, `getLast?_encode`), and without it the text is a piece.
-/

namespace LineShell

namespace Utf8

variable {text : List Char} {n : Nat} {c d : Char} {b : UInt8}

/-! ## Cuts -/

theorem isCut_of_isBoundary (h : IsBoundary text n) : isCut (encode text) n := by
  obtain ⟨front, ⟨back, rfl⟩, rfl⟩ := h
  have hhead : (encode (front ++ back))[(encode front).length]? = (encode back)[0]? := by
    rw [encode_append, List.getElem?_append_right (Nat.le_refl _), Nat.sub_self]
  unfold isCut
  rw [hhead]
  cases back with
  | nil => simp [encode]
  | cons c back =>
    rcases encodeChar_bytes c with ⟨hc, hbytes⟩ | ⟨-, b, bs, hbytes, hb, -⟩
    · have hlead : isContinuation (UInt8.ofNat c.toNat) = false := by
        rw [← Bool.not_eq_true, isContinuation_iff, toNat_ofNat (by omega)]
        omega
      simp [encode_cons, hbytes, hlead]
    · have hlead : isContinuation b = false := by
        rw [← Bool.not_eq_true, isContinuation_iff]
        omega
      simp [encode_cons, hbytes, hlead]

/-- The places where encoded text may be cut are those between its characters. -/
theorem isCut_encode : isCut (encode text) n ↔ IsBoundary text n := by
  refine ⟨fun h => ?_, isCut_of_isBoundary⟩
  unfold isCut at h
  rcases (Bool.or_eq_true _ _).mp h with hzero | h
  · exact of_decide_eq_true hzero ▸ isBoundary_zero text
  · split at h
    · rename_i b hb
      obtain ⟨hn, rfl⟩ := List.getElem?_eq_some_iff.1 hb
      exact isBoundary_of_getElem hn (by simpa using h)
    · exact of_decide_eq_true h ▸ isBoundary_length text

example : ¬ isCut (encode ['é']) 1 := by decide +kernel

/-! ## ASCII characters -/

theorem toNat_toUInt8 (hc : c.toNat < 0x80) : c.toUInt8.toNat = c.toNat :=
  toNat_ofNat (Nat.lt_trans hc (by decide))

theorem toUInt8_inj (hc : c.toNat < 0x80) (hd : d.toNat < 0x80) : c.toUInt8 = d.toUInt8 ↔ c = d := by
  rw [← UInt8.toNat_inj, toNat_toUInt8 hc, toNat_toUInt8 hd, Char.toNat_inj]

/-- A character is one byte, the same as the character, or it is beyond ASCII, and so are its bytes. -/
theorem encodeChar_ascii (c : Char) : (c.toNat < 0x80 ∧ String.utf8EncodeChar c = [c.toUInt8]) ∨
    (0x80 ≤ c.toNat ∧ ∃ b bs, String.utf8EncodeChar c = b :: bs ∧ ∀ b' ∈ b :: bs, 0x80 ≤ b'.toNat) := by
  rcases encodeChar_bytes c with ⟨hc, hbytes⟩ | ⟨hc, b, bs, hbytes, hb, hbs⟩
  · exact .inl ⟨hc, hbytes⟩
  · exact .inr ⟨hc, b, bs, hbytes,
      List.forall_mem_cons.2 ⟨by omega, fun b' hb' => (isContinuation_iff.1 (hbs b' hb')).1⟩⟩

theorem ne_toUInt8 (hb : 0x80 ≤ b.toNat) (hc : c.toNat < 0x80) : b ≠ c.toUInt8 := by
  rintro rfl
  rw [toNat_toUInt8 hc] at hb
  omega

theorem encode_cons_ascii (hd : d.toNat < 0x80) (text : List Char) : encode (d :: text) = d.toUInt8 :: encode text := by
  rcases encodeChar_ascii d with ⟨-, hbytes⟩ | ⟨hwide, -⟩
  · rw [encode_cons, hbytes, List.singleton_append]
  · omega

theorem head?_encode (hd : d.toNat < 0x80) (text : List Char) :
    (encode text).head? = some d.toUInt8 ↔ text.head? = some d := by
  cases text with
  | nil => simp [encode]
  | cons c text =>
    rw [encode_cons, List.head?_cons, Option.some_inj]
    rcases encodeChar_ascii c with ⟨hc, hbytes⟩ | ⟨hc, b, bs, hbytes, hwide⟩
    · rw [hbytes, List.singleton_append, List.head?_cons, Option.some_inj, toUInt8_inj hc hd]
    · rw [hbytes, List.cons_append, List.head?_cons, Option.some_inj]
      refine iff_of_false (ne_toUInt8 (hwide b List.mem_cons_self) hd) ?_
      rintro rfl
      omega

/-- The last byte of a text is the last character, or beyond ASCII as the last character is. -/
theorem exists_last (text : List Char) (c : Char) :
    (c.toNat < 0x80 ∧ encode (text ++ [c]) = encode text ++ [c.toUInt8]) ∨
    (0x80 ≤ c.toNat ∧ ∃ bs b, encode (text ++ [c]) = bs ++ [b] ∧ 0x80 ≤ b.toNat) := by
  rcases encodeChar_ascii c with ⟨hc, hbytes⟩ | ⟨hc, b, bs, hbytes, hwide⟩
  · exact .inl ⟨hc, by rw [encode_concat, hbytes]⟩
  · refine .inr ⟨hc, encode text ++ (b :: bs).dropLast, (b :: bs).getLast (by simp), ?_, hwide _ (List.getLast_mem _)⟩
    rw [encode_concat, hbytes, List.append_assoc, List.dropLast_append_getLast]

theorem getLast?_encode (hd : d.toNat < 0x80) (text : List Char) :
    (encode text).getLast? = some d.toUInt8 ↔ text.getLast? = some d := by
  rcases text.eq_nil_or_concat' with rfl | ⟨front, c, rfl⟩
  · simp [encode]
  · rw [List.getLast?_concat]
    rcases exists_last front c with ⟨hc, hbytes⟩ | ⟨hc, bs, b, hbytes, hb⟩
    · rw [hbytes, List.getLast?_concat, Option.some_inj, Option.some_inj, toUInt8_inj hc hd]
    · rw [hbytes, List.getLast?_concat, Option.some_inj, Option.some_inj]
      refine iff_of_false (ne_toUInt8 hb hd) ?_
      rintro rfl
      omega

/-! ## Pieces -/

theorem encode_injective : Function.Injective encode := by
  intro text text' h
  rw [← Option.some_inj, ← decode?_encode text, h, decode?_encode]

/-- A piece of a text is taken out between the characters around it. -/
theorem slice?_encode (front piece back : List Char) :
    slice? (encode (front ++ (piece ++ back))) (encode front).length (encode (front ++ piece)).length =
      some (encode piece) := by
  have hfront : IsBoundary (front ++ (piece ++ back)) (encode front).length := ⟨front, List.prefix_append _ _, rfl⟩
  have hpiece : IsBoundary (front ++ (piece ++ back)) (encode (front ++ piece)).length :=
    ⟨front ++ piece, ⟨back, by rw [List.append_assoc]⟩, rfl⟩
  have hle : (encode front).length ≤ (encode (front ++ piece)).length :=
    (encode_mono (List.prefix_append front piece)).length_le
  rw [slice?, if_pos ⟨hle, isCut_encode.2 hfront, isCut_encode.2 hpiece⟩, ← List.append_assoc,
    encode_append (front ++ piece), List.take_left, encode_append, List.drop_left]

/-- A text without an ASCII character at its beginning. -/
theorem slice?_tail (hd : d.toNat < 0x80) (text : List Char) :
    slice? (encode (d :: text)) 1 (encode (d :: text)).length = some (encode text) := by
  rcases encodeChar_ascii d with ⟨-, hbytes⟩ | ⟨hwide, -⟩
  · have hslice := slice?_encode [d] text []
    rwa [List.append_nil, encode_singleton, hbytes] at hslice
  · omega

/-- A text without an ASCII character at its end. -/
theorem slice?_dropLast (hd : d.toNat < 0x80) (h : text.getLast? = some d) :
    slice? (encode text) 0 ((encode text).length - 1) = some (encode text.dropLast) := by
  obtain ⟨front, rfl⟩ := List.getLast?_eq_some_iff.1 h
  rcases encodeChar_ascii d with ⟨-, hbytes⟩ | ⟨hwide, -⟩
  · have hslice := slice?_encode [] front [d]
    have hlength : (encode front).length = (encode (front ++ [d])).length - 1 := by
      rw [encode_concat, hbytes, List.length_append, List.length_singleton, Nat.add_sub_cancel]
    rw [List.nil_append, List.nil_append, hlength] at hslice
    rw [List.dropLast_concat]
    exact hslice
  · omega

end Utf8

end LineShell
