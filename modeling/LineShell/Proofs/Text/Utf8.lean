import LineShell.Text.Utf8
import Mathlib.Data.List.Infix

/-!
# Reading back encoded text

`decodeLossy_encode_append` says that encoded text is read back as it was, whatever follows.
`decodeLossy_take_encode` says what is read of encoded text that is cut off: the characters that are
whole, and one replacement for one that is not.
-/

namespace LineShell.Utf8

/-! ## One character -/

/-- The bytes that a reader takes as the rest of a character. -/
def Completes : Reader → Bytes → Nat → Prop
  | .inside due lo hi code, b :: bs, value =>
    lo ≤ b.toNat ∧ b.toNat ≤ hi ∧
      if due ≤ 1 then bs = [] ∧ value = code * 64 + b.toNat % 64
      else Completes (.inside (due - 1) 0x80 0xBF (code * 64 + b.toNat % 64)) bs value
  | _, _, _ => False

theorem scan_append {r : Reader} {cs : Bytes} {value : Nat} (h : Completes r cs value) (bs : Bytes) :
    scan r (cs ++ bs) = some (Char.ofNat value) :: scan .between bs := by
  induction cs generalizing r with
  | nil => cases r <;> simp [Completes] at h
  | cons b cs ih =>
    cases r with
    | between => simp [Completes] at h
    | inside due lo hi code =>
      simp only [Completes] at h
      obtain ⟨hlo, hhi, hrest⟩ := h
      simp only [List.cons_append, scan, step, hlo, hhi, and_self, if_true]
      split at hrest
      · rename_i hdue
        obtain ⟨rfl, rfl⟩ := hrest
        simp [hdue]
      · rename_i hdue
        simp only [if_neg hdue, List.nil_append]
        exact ih hrest

theorem scan_take {r : Reader} {cs : Bytes} {value : Nat} (h : Completes r cs value) {n : Nat}
    (hn : n < cs.length) : scan r (cs.take n) = [none] := by
  induction cs generalizing r n with
  | nil => simp at hn
  | cons b cs ih =>
    cases r with
    | between => simp [Completes] at h
    | inside due lo hi code =>
      cases n with
      | zero => simp [scan]
      | succ n =>
        simp only [Completes] at h
        obtain ⟨hlo, hhi, hrest⟩ := h
        simp only [List.take_succ_cons, scan, step, hlo, hhi, and_self, if_true]
        split at hrest
        · rename_i hdue
          obtain ⟨rfl, -⟩ := hrest
          simp at hn
        · rename_i hdue
          simp only [if_neg hdue, List.nil_append]
          exact ih hrest (by simpa using hn)

theorem toNat_ofNat {n : Nat} (h : n < 256) : (UInt8.ofNat n).toNat = n := by
  simp only [UInt8.toNat_ofNat']
  omega

theorem start_one {b : UInt8} (hb : b.toNat < 0x80) : start b = (.between, [some (Char.ofNat b.toNat)]) := by
  simp only [start, if_pos hb]

theorem start_two {b : UInt8} (hlo : 0xC2 ≤ b.toNat) (hhi : b.toNat < 0xE0) :
    start b = (.inside 1 0x80 0xBF (b.toNat - 0xC0), []) := by
  unfold start
  rw [if_neg (by omega), if_neg (by omega), if_pos hhi]

/-- The byte behind the first of three lies between bounds that the first one sets. -/
theorem start_three {b : UInt8} (second : Nat) (hlo : 0xE0 ≤ b.toNat) (hhi : b.toNat < 0xF0)
    (hsecond : 0x80 ≤ second ∧ second ≤ 0xBF) (hlow : b.toNat = 0xE0 → 0xA0 ≤ second)
    (hhigh : b.toNat = 0xED → second ≤ 0x9F) :
    ∃ lo hi, start b = (.inside 2 lo hi (b.toNat - 0xE0), []) ∧ lo ≤ second ∧ second ≤ hi := by
  unfold start
  rw [if_neg (by omega), if_neg (by omega), if_neg (by omega)]
  by_cases h0 : b.toNat = 0xE0
  · exact ⟨0xA0, 0xBF, by simp [h0], hlow h0, hsecond.2⟩
  · by_cases hd : b.toNat = 0xED
    · exact ⟨0x80, 0x9F, by simp [hd], hsecond.1, hhigh hd⟩
    · exact ⟨0x80, 0xBF, by simp [h0, hd, hhi], hsecond.1, hsecond.2⟩

/-- The same for the first of four. -/
theorem start_four {b : UInt8} (second : Nat) (hlo : 0xF0 ≤ b.toNat) (hhi : b.toNat ≤ 0xF4)
    (hsecond : 0x80 ≤ second ∧ second ≤ 0xBF) (hlow : b.toNat = 0xF0 → 0x90 ≤ second)
    (hhigh : b.toNat = 0xF4 → second ≤ 0x8F) :
    ∃ lo hi, start b = (.inside 3 lo hi (b.toNat - 0xF0), []) ∧ lo ≤ second ∧ second ≤ hi := by
  unfold start
  rw [if_neg (by omega), if_neg (by omega), if_neg (by omega), if_neg (by omega), if_neg (by omega),
    if_neg (by omega)]
  by_cases h0 : b.toNat = 0xF0
  · exact ⟨0x90, 0xBF, by simp [h0], hlow h0, hsecond.2⟩
  · by_cases h4 : b.toNat = 0xF4
    · exact ⟨0x80, 0x8F, by simp [h4], hsecond.1, hhigh h4⟩
    · exact ⟨0x80, 0xBF, by simp [h0, show b.toNat < 0xF4 by omega], hsecond.1, hsecond.2⟩

/-- A character is one byte, or a byte that opens it and bytes that complete it. -/
theorem encodeChar_cases (c : Char) :
    (∃ b, String.utf8EncodeChar c = [b] ∧ start b = (.between, [some c])) ∨
    (∃ b cs r, String.utf8EncodeChar c = b :: cs ∧ start b = (r, []) ∧ Completes r cs c.toNat) := by
  obtain ⟨v, hv⟩ : ∃ v, c.val.toNat = v := ⟨_, rfl⟩
  have hchar : c.toNat = v := hv
  have hvalid : v < 0xD800 ∨ 0xDFFF < v ∧ v < 0x110000 := by
    have := c.valid
    simpa [UInt32.isValidChar, Nat.isValidChar, hv] using this
  have hback : Char.ofNat v = c := by rw [← hchar, Char.ofNat_toNat]
  rw [String.utf8EncodeChar, hchar, hv]
  split
  · have hb := toNat_ofNat (show v < 256 by omega)
    exact Or.inl ⟨_, rfl, by rw [start_one (by omega), hb, hback]⟩
  · right
    split
    · have hb := toNat_ofNat (show v / 64 % 0x20 + 0xc0 < 256 by omega)
      have hc := toNat_ofNat (show v % 0x40 + 0x80 < 256 by omega)
      refine ⟨_, _, _, rfl, start_two (by omega) (by omega), ?_⟩
      simp only [Completes, hb, hc]
      refine ⟨by omega, by omega, ?_⟩
      simp
      omega
    · split
      · have hb := toNat_ofNat (show v / 4096 % 0x10 + 0xe0 < 256 by omega)
        have hc := toNat_ofNat (show v / 64 % 0x40 + 0x80 < 256 by omega)
        have hd := toNat_ofNat (show v % 0x40 + 0x80 < 256 by omega)
        obtain ⟨lo, hi, hstart, hlo, hhi⟩ := start_three (b := UInt8.ofNat (v / 4096 % 0x10 + 0xe0))
          (v / 64 % 0x40 + 0x80) (by omega) (by omega) (by omega) (by omega) (by omega)
        refine ⟨_, _, _, rfl, hstart, ?_⟩
        simp only [Completes, hb, hc, hd, hlo, hhi]
        simp
        omega
      · have hb := toNat_ofNat (show v / 262144 % 0x08 + 0xf0 < 256 by omega)
        have hc := toNat_ofNat (show v / 4096 % 0x40 + 0x80 < 256 by omega)
        have hd := toNat_ofNat (show v / 64 % 0x40 + 0x80 < 256 by omega)
        have he := toNat_ofNat (show v % 0x40 + 0x80 < 256 by omega)
        obtain ⟨lo, hi, hstart, hlo, hhi⟩ := start_four (b := UInt8.ofNat (v / 262144 % 0x08 + 0xf0))
          (v / 4096 % 0x40 + 0x80) (by omega) (by omega) (by omega) (by omega) (by omega)
        refine ⟨_, _, _, rfl, hstart, ?_⟩
        simp only [Completes, hb, hc, hd, he, hlo, hhi]
        simp
        omega

theorem isContinuation_iff {b : UInt8} : isContinuation b = true ↔ 0x80 ≤ b.toNat ∧ b.toNat < 0xC0 := by
  simp [isContinuation]

/-- A character is one byte below the continuation bytes, or one above them and continuation bytes
behind it. -/
theorem encodeChar_bytes (c : Char) :
    (c.toNat < 0x80 ∧ String.utf8EncodeChar c = [UInt8.ofNat c.toNat]) ∨
    (0x80 ≤ c.toNat ∧ ∃ b cs, String.utf8EncodeChar c = b :: cs ∧ 0xC0 ≤ b.toNat ∧
      ∀ b' ∈ cs, isContinuation b' = true) := by
  obtain ⟨v, hv⟩ : ∃ v, c.val.toNat = v := ⟨_, rfl⟩
  have hchar : c.toNat = v := hv
  have hcontinue : ∀ ns : List Nat, ∀ b' ∈ ns.map fun n => UInt8.ofNat (n % 0x40 + 0x80),
      isContinuation b' = true := by
    intro ns b' hb'
    obtain ⟨n, -, rfl⟩ := List.mem_map.1 hb'
    rw [isContinuation_iff, toNat_ofNat (by omega)]
    omega
  rw [String.utf8EncodeChar, hchar, hv]
  split
  · exact Or.inl ⟨by omega, rfl⟩
  · refine Or.inr ⟨by omega, ?_⟩
    split
    · refine ⟨_, _, rfl, ?_, hcontinue [v]⟩
      rw [toNat_ofNat (by omega)]
      omega
    · split
      · refine ⟨_, _, rfl, ?_, hcontinue [v / 64, v]⟩
        rw [toNat_ofNat (by omega)]
        omega
      · refine ⟨_, _, rfl, ?_, hcontinue [v / 4096, v / 64, v]⟩
        rw [toNat_ofNat (by omega)]
        omega

theorem scan_encodeChar (c : Char) (bs : Bytes) :
    scan .between (String.utf8EncodeChar c ++ bs) = some c :: scan .between bs := by
  rcases encodeChar_cases c with ⟨b, hbytes, hstart⟩ | ⟨b, cs, r, hbytes, hstart, hcomplete⟩
  · simp [hbytes, scan, step, hstart]
  · rw [hbytes, List.cons_append, scan]
    simp only [step, hstart, List.nil_append]
    rw [scan_append hcomplete, Char.ofNat_toNat]

/-- A character that is cut off is malformed. -/
theorem scan_take_encodeChar (c : Char) {n : Nat} (hpos : n ≠ 0)
    (hn : n < (String.utf8EncodeChar c).length) :
    scan .between ((String.utf8EncodeChar c).take n) = [none] := by
  obtain ⟨n, rfl⟩ := Nat.exists_eq_succ_of_ne_zero hpos
  rcases encodeChar_cases c with ⟨b, hbytes, -⟩ | ⟨b, cs, r, hbytes, hstart, hcomplete⟩
  · simp [hbytes] at hn
  · rw [hbytes, List.take_succ_cons, scan]
    simp only [step, hstart, List.nil_append]
    exact scan_take hcomplete (by simpa [hbytes] using hn)

/-! ## A text -/

theorem encode_cons (c : Char) (text : List Char) : encode (c :: text) = String.utf8EncodeChar c ++ encode text :=
  rfl

theorem encode_append (a b : List Char) : encode (a ++ b) = encode a ++ encode b :=
  List.flatMap_append

theorem encode_singleton (c : Char) : encode [c] = String.utf8EncodeChar c :=
  List.append_nil _

theorem encode_concat (text : List Char) (c : Char) :
    encode (text ++ [c]) = encode text ++ String.utf8EncodeChar c := by
  rw [encode_append, encode_singleton]

theorem encode_eq_nil {text : List Char} : encode text = [] ↔ text = [] := by
  cases text with
  | nil => simp [encode]
  | cons c text =>
    have hne : String.utf8EncodeChar c ≠ [] := by
      rcases encodeChar_bytes c with ⟨-, h⟩ | ⟨-, b, cs, h, -⟩ <;> simp [h]
    simp [encode_cons, hne]

theorem encode_mono {a b : List Char} (h : a <+: b) : encode a <+: encode b := by
  obtain ⟨rest, rfl⟩ := h
  exact ⟨encode rest, (encode_append a rest).symm⟩

/-- Encoded text is read back, whatever follows. -/
theorem decodeLossy_encode_append (text : List Char) (bs : Bytes) :
    decodeLossy (encode text ++ bs) = text ++ decodeLossy bs := by
  unfold decodeLossy
  induction text with
  | nil => rfl
  | cons c text ih => simp [encode_cons, scan_encodeChar, ih]

theorem decodeLossy_encode (text : List Char) : decodeLossy (encode text) = text := by
  simpa [decodeLossy, scan] using decodeLossy_encode_append text []

/-- Of encoded text that is cut off, the whole characters are read, and a replacement if the cut goes
through one. -/
theorem decodeLossy_take_encode (text : List Char) (n : Nat) :
    ∃ front, front <+: text ∧ (encode front).length ≤ n ∧
      (decodeLossy ((encode text).take n) = front ∨
        decodeLossy ((encode text).take n) = front ++ [replacement]) := by
  induction text generalizing n with
  | nil => exact ⟨[], List.prefix_rfl, Nat.zero_le n, Or.inl (by simp [encode, decodeLossy, scan])⟩
  | cons c text ih =>
    by_cases hn : (String.utf8EncodeChar c).length ≤ n
    · obtain ⟨front, hfront, hlength, hread⟩ := ih (n - (String.utf8EncodeChar c).length)
      have htake : (encode (c :: text)).take n =
          encode [c] ++ (encode text).take (n - (String.utf8EncodeChar c).length) := by
        rw [encode_cons, List.take_append, List.take_of_length_le hn]
        simp [encode]
      refine ⟨c :: front, List.cons_prefix_cons.2 ⟨rfl, hfront⟩, ?_, ?_⟩
      · rw [encode_cons, List.length_append]
        omega
      · rw [htake, decodeLossy_encode_append]
        exact hread.imp (fun h => by rw [h]; rfl) (fun h => by rw [h]; rfl)
    · refine ⟨[], List.nil_prefix, Nat.zero_le n, ?_⟩
      rw [encode_cons, List.take_append_of_le_length (by omega)]
      by_cases hzero : n = 0
      · subst hzero
        exact Or.inl rfl
      · exact Or.inr (by simp [decodeLossy, scan_take_encodeChar c hzero (by omega)])

/-! ## Well-formed input -/

theorem scan_encode (text : List Char) : scan .between (encode text) = text.map some := by
  induction text with
  | nil => rfl
  | cons c text ih => rw [encode_cons, scan_encodeChar, ih, List.map_cons]

theorem decode?_encode (text : List Char) : decode? (encode text) = some text := by
  rw [decode?, scan_encode]
  induction text with
  | nil => rfl
  | cons c text ih =>
    rw [List.map_cons, List.mapM_cons, ih]
    rfl

end LineShell.Utf8
