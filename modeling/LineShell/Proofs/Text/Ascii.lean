import LineShell.Proofs.Text.Utf8

/-!
# ASCII characters of a text

A byte below `0x80` stands for the same character wherever it is read, well-formed or not: the reader takes no
such byte for a part of another character, and reads no such character where other bytes stand
(`mem_decodeLossy_iff`).
-/

namespace LineShell.Utf8

variable {x b : UInt8} {r : Reader} {bs : Bytes} {lo hi code : Nat}

/-! ## Characters of more than one byte -/

/-- The code is that of a character beyond ASCII. -/
def IsWide (code : Nat) : Prop := 0x80 ≤ code ∧ code.isValidChar

/-- Whatever bytes the bounds admit now and later, they make up a character beyond ASCII. -/
def Widens : Nat → Nat → Nat → Nat → Prop
  | 0, _, _, _ => False
  | due + 1, lo, hi, code => 0x80 ≤ lo ∧ ∀ n, lo ≤ n → n ≤ hi →
    if due = 0 then IsWide (code * 64 + n % 64) else Widens due 0x80 0xBF (code * 64 + n % 64)

/-- The reader is between two characters, or inside one beyond ASCII. -/
def Reader.Wide : Reader → Prop
  | .between => True
  | .inside due lo hi code => Widens due lo hi code

/-- Before the last byte: the code is neither too small nor too large, nor that of a surrogate. -/
theorem widens_one (hlo : 0x80 ≤ lo) (hcode : 2 ≤ code ∧ code < 0x360 ∨ 0x380 ≤ code ∧ code < 0x4400) :
    Widens 1 lo hi code := by
  refine ⟨hlo, fun n _ _ => ?_⟩
  rw [if_pos rfl]
  rcases hcode with hcode | hcode
  · exact ⟨by omega, Or.inl (by omega)⟩
  · exact ⟨by omega, Or.inr (by omega)⟩

theorem widens_two (hlo : 0x80 ≤ lo) (hcode : ∀ n, lo ≤ n → n ≤ hi →
    2 ≤ code * 64 + n % 64 ∧ code * 64 + n % 64 < 0x360 ∨ 0x380 ≤ code * 64 + n % 64 ∧ code * 64 + n % 64 < 0x4400) :
    Widens 2 lo hi code := by
  refine ⟨hlo, fun n hn hn' => ?_⟩
  rw [if_neg (by decide)]
  exact widens_one (Nat.le_refl _) (hcode n hn hn')

theorem widens_three (hlo : 0x80 ≤ lo) (hcode : ∀ n, lo ≤ n → n ≤ hi →
    0x10 ≤ code * 64 + n % 64 ∧ code * 64 + n % 64 < 0x110) : Widens 3 lo hi code := by
  refine ⟨hlo, fun n hn hn' => ?_⟩
  rw [if_neg (by decide)]
  have := hcode n hn hn'
  exact widens_two (Nat.le_refl _) fun m _ _ => by omega

/-- A byte beyond ASCII is no character by itself, and begins none that could turn out to be ASCII. -/
theorem start_wide (hb : ¬ b.toNat < 0x80) : (start b).1.Wide ∧ ∀ c, some c ∉ (start b).2 := by
  have hlt := b.toNat_lt
  unfold start
  dsimp only
  rw [if_neg hb]
  split
  · exact ⟨trivial, by simp⟩
  split
  · exact ⟨widens_one (by omega) (by omega), by simp⟩
  split
  · exact ⟨widens_two (by omega) (by omega), by simp⟩
  split
  · exact ⟨widens_two (by omega) (by omega), by simp⟩
  split
  · exact ⟨widens_two (by omega) (by omega), by simp⟩
  split
  · exact ⟨widens_three (by omega) (by omega), by simp⟩
  split
  · exact ⟨widens_three (by omega) (by omega), by simp⟩
  split
  · exact ⟨widens_three (by omega) (by omega), by simp⟩
  · exact ⟨trivial, by simp⟩

theorem wide_start (b : UInt8) : (start b).1.Wide := by
  by_cases hb : b.toNat < 0x80
  · rw [start_one hb]
    trivial
  · exact (start_wide hb).1

theorem toNat_ofNat_of_isWide (h : IsWide code) : (Char.ofNat code).toNat = code := by
  rw [Char.ofNat, dif_pos h.2]
  rfl

theorem toNat_ofNat_byte (hb : b.toNat < 0x80) : (Char.ofNat b.toNat).toNat = b.toNat := by
  have hvalid : b.toNat.isValidChar := Or.inl (by omega)
  rw [Char.ofNat, dif_pos hvalid]
  rfl

/-! ## Reading -/

/-- Between two characters an ASCII character is read just where its byte stands. -/
theorem mem_start_iff (hx : x.toNat < 0x80) : some (Char.ofNat x.toNat) ∈ (start b).2 ↔ b = x := by
  by_cases hb : b.toNat < 0x80
  · rw [start_one hb, List.mem_singleton, Option.some_inj]
    constructor
    · intro h
      have hcode := congrArg Char.toNat h
      rw [toNat_ofNat_byte hx, toNat_ofNat_byte hb] at hcode
      exact UInt8.toNat_inj.1 hcode.symm
    · rintro rfl
      rfl
  · exact iff_of_false ((start_wide hb).2 _) fun h => hb (h ▸ hx)

theorem wide_step (hr : r.Wide) (b : UInt8) : (step r b).1.Wide := by
  cases r with
  | between => exact wide_start b
  | inside due lo hi code =>
    cases due with
    | zero => cases hr
    | succ due =>
      simp only [step]
      split
      · next hbounds =>
        have hnext := hr.2 b.toNat hbounds.1 hbounds.2
        cases due with
        | zero => trivial
        | succ due => simpa [Reader.Wide] using hnext
      · exact wide_start b

theorem mem_step_iff (hr : r.Wide) (hx : x.toNat < 0x80) : some (Char.ofNat x.toNat) ∈ (step r b).2 ↔ b = x := by
  cases r with
  | between => exact mem_start_iff hx
  | inside due lo hi code =>
    cases due with
    | zero => cases hr
    | succ due =>
      simp only [step]
      split
      · next hbounds =>
        have hlo := hr.1
        refine iff_of_false ?_ fun h => by rw [h] at hbounds; omega
        have hnext := hr.2 b.toNat hbounds.1 hbounds.2
        cases due with
        | zero =>
          rw [if_pos rfl] at hnext
          simp only [Nat.zero_add, Nat.le_refl, if_true, List.mem_singleton, Option.some_inj]
          intro h
          have hcode := congrArg Char.toNat h
          rw [toNat_ofNat_byte hx, toNat_ofNat_of_isWide hnext] at hcode
          exact absurd hnext.1 (by omega)
        | succ due => simp
      · simpa using mem_start_iff hx

theorem mem_scan_iff (hr : r.Wide) (hx : x.toNat < 0x80) : some (Char.ofNat x.toNat) ∈ scan r bs ↔ x ∈ bs := by
  induction bs generalizing r with
  | nil => cases r <;> simp [scan]
  | cons b bs ih =>
    simp only [scan, List.mem_append, List.mem_cons, mem_step_iff hr hx, ih (wide_step hr b), eq_comm]

/-- **ASCII is read where it stands.** A character of one byte is read from any bytes, well-formed or not, just if
its byte is one of them. -/
theorem mem_decodeLossy_iff (hx : x.toNat < 0x80) : Char.ofNat x.toNat ∈ decodeLossy bs ↔ x ∈ bs := by
  rw [← mem_scan_iff (r := .between) trivial hx, decodeLossy, List.mem_map]
  constructor
  · rintro ⟨item, hitem, hchar⟩
    cases item with
    | none =>
      have hcode : 0xFFFD = x.toNat := (congrArg Char.toNat hchar).trans (toNat_ofNat_byte hx)
      omega
    | some c => rwa [← hchar]
  · exact fun h => ⟨_, h, rfl⟩

end LineShell.Utf8
