import LineShell.Text.Number
import Mathlib.Algebra.Ring.Nat

/-!
# Reading back written numbers

A number is read back from its digits (`read?_digits`). Digits with something in front of them are read as
the same number exactly when there are only zeros in front, a sign aside (`read?_append_digits_iff`).
-/

namespace LineShell.Number

variable {limit n value : Nat} {c : Char} {cs front : List Char}

theorem digit?_eq (c : Char) : digit? c = if c.isDigit then some (c.toNat - '0'.toNat) else none := by
  have hiff : ('0' ≤ c ∧ c ≤ '9') ↔ c.isDigit = true := by
    simp [Char.isDigit, Char.le_def]
  simp only [digit?, hiff]

/-- Digits are read one after the other, and nothing but digits is. -/
theorem readDigits_eq (value : Nat) (cs : List Char) :
    readDigits value cs = if cs.all Char.isDigit then some (Nat.ofDigitChars 10 cs value) else none := by
  induction cs generalizing value with
  | nil => simp [readDigits]
  | cons c cs ih =>
    by_cases hc : c.isDigit = true
    · rw [readDigits, digit?_eq, if_pos hc, Option.bind_some, ih, List.all_cons, hc, Bool.true_and,
        Nat.ofDigitChars_cons, Nat.mul_comm]
    · simp [readDigits, digit?_eq, hc]

theorem isDigit_of_mem_digits (h : c ∈ digits n) : c.isDigit = true :=
  Nat.isDigit_of_mem_toDigits (by omega) (by omega) h

theorem digits_ne_nil (n : Nat) : digits n ≠ [] := Nat.toDigits_ne_nil

theorem not_mem_digits (h : c.isDigit = false) : c ∉ digits n := by
  intro hmem
  rw [isDigit_of_mem_digits hmem] at h
  cases h

theorem ofDigitChars_digits (n : Nat) : Nat.ofDigitChars 10 (digits n) 0 = n :=
  Nat.ofDigitChars_toDigits (by omega) (by omega)

/-- A sign can only stand in front of the digits. -/
theorem unsigned_append_digits (front : List Char) (n : Nat) :
    unsigned (front ++ digits n) = unsigned front ++ digits n := by
  cases front with
  | cons c cs => by_cases hc : c = '+' <;> simp [unsigned, hc]
  | nil =>
    obtain ⟨d, ds, hdigits⟩ := List.exists_cons_of_ne_nil (digits_ne_nil n)
    have hd : d ≠ '+' := by
      rintro rfl
      exact not_mem_digits (n := n) rfl (by rw [hdigits]; exact List.mem_cons_self)
    rw [List.nil_append, hdigits]
    simp [unsigned, hd]

/-- What is read of the digits of a number with something in front of them. -/
theorem read?_append_digits (limit : Nat) (front : List Char) (n : Nat) :
    read? limit (front ++ digits n) =
      if (unsigned front).all Char.isDigit ∧
          10 ^ (digits n).length * Nat.ofDigitChars 10 (unsigned front) 0 + n ≤ limit then
        some (10 ^ (digits n).length * Nat.ofDigitChars 10 (unsigned front) 0 + n)
      else none := by
  have hdigits : (digits n).all Char.isDigit = true := List.all_eq_true.2 fun c hc => isDigit_of_mem_digits hc
  have hne : unsigned front ++ digits n ≠ [] := by simp [digits_ne_nil]
  have hvalue : Nat.ofDigitChars 10 (unsigned front ++ digits n) 0 =
      10 ^ (digits n).length * Nat.ofDigitChars 10 (unsigned front) 0 + n := by
    rw [Nat.ofDigitChars_append, Nat.ofDigitChars_eq_ofDigitChars_zero, ofDigitChars_digits]
  rw [read?, unsigned_append_digits]
  split
  · next hnil => exact absurd hnil hne
  · rw [readDigits_eq, List.all_append, hdigits, Bool.and_true, hvalue]
    by_cases hfront : (unsigned front).all Char.isDigit = true
    · simp only [if_pos hfront, Option.filter_some, decide_eq_true_eq, and_iff_right hfront]
    · rw [if_neg hfront, if_neg fun h => hfront h.1]
      rfl

/-- Nothing above the limit is read. -/
theorem le_of_read? (h : read? limit cs = some n) : n ≤ limit := by
  unfold read? at h
  split at h
  · cases h
  · simpa using (Option.filter_eq_some_iff.1 h).2

/-- A number is read back, if it is not above the limit. -/
theorem read?_digits (limit n : Nat) : read? limit (digits n) = if n ≤ limit then some n else none := by
  have h := read?_append_digits limit [] n
  simpa [unsigned] using h

/-- A text of digits is worth nothing exactly when it holds only zeros. -/
theorem ofDigitChars_eq_zero_iff (h : ∀ c ∈ cs, c.isDigit) : Nat.ofDigitChars 10 cs 0 = 0 ↔ ∀ c ∈ cs, c = '0' := by
  induction cs with
  | nil => simp
  | cons c cs ih =>
    obtain ⟨hc, hcs⟩ := List.forall_mem_cons.1 h
    have hzero : c.toNat - '0'.toNat = 0 ↔ c = '0' := by
      have hle : '0'.toNat ≤ c.toNat := by
        simp only [Char.isDigit, Bool.and_eq_true, decide_eq_true_eq] at hc
        exact hc.1
      refine ⟨fun hsub => Char.toNat_inj.1 (by omega), ?_⟩
      rintro rfl
      rfl
    rw [Nat.ofDigitChars_cons, Nat.mul_zero, Nat.zero_add, Nat.ofDigitChars_eq_ofDigitChars_zero,
      Nat.add_eq_zero_iff, Nat.mul_eq_zero, ih hcs, List.forall_mem_cons, hzero]
    simp

/-- Only zeros in front of a number leave it what it is. -/
theorem read?_append_digits_iff (hlimit : n ≤ limit) :
    read? limit (front ++ digits n) = some n ↔ ∀ c ∈ unsigned front, c = '0' := by
  have hpow : 10 ^ (digits n).length ≠ 0 := Nat.ne_of_gt (Nat.pow_pos (by omega))
  rw [read?_append_digits]
  constructor
  · intro h
    split at h
    · next hread =>
      have hsame := Option.some.inj h
      have hnothing : 10 ^ (digits n).length * Nat.ofDigitChars 10 (unsigned front) 0 = 0 := by omega
      exact (ofDigitChars_eq_zero_iff (List.all_eq_true.1 hread.1)).1 ((Nat.mul_eq_zero.1 hnothing).resolve_left hpow)
    · cases h
  · intro hzeros
    have hdigits : ∀ c ∈ unsigned front, c.isDigit := by
      intro c hc
      rw [hzeros c hc]
      rfl
    have hnothing := (ofDigitChars_eq_zero_iff hdigits).2 hzeros
    rw [hnothing, Nat.mul_zero, Nat.zero_add, if_pos ⟨List.all_eq_true.2 hdigits, hlimit⟩]

end LineShell.Number
