import LineShell.Text.Order
import LineShell.Proofs.Text.Utf8
import Mathlib.Data.String.Basic

/-!
# Names in order

Sorting gives the one list of the same names that rises (`sortedUnique_eq_iff`), whatever order they came in and
however often. Names rise if their bytes do (`Utf8.ofString_lt_iff`).
-/

namespace LineShell

namespace Text

variable {names names' : List String} {name : String}

/-! ## Repetitions -/

theorem eraseRepsLoop_eq (a : String) (as acc : List String) :
    List.eraseRepsBy.loop (· == ·) a as acc = acc.reverse ++ (a :: as).eraseReps := by
  have hnil : (a :: as).eraseReps = List.eraseRepsBy.loop (· == ·) a as [] := rfl
  rw [hnil]
  clear hnil
  induction as generalizing a acc with
  | nil => simp [List.eraseRepsBy.loop]
  | cons b as ih =>
    rw [List.eraseRepsBy.loop, List.eraseRepsBy.loop]
    split
    · exact ih a acc
    · rw [ih b (a :: acc), ih b [a]]
      simp

theorem eraseReps_cons_cons (a b : String) (as : List String) :
    (a :: b :: as).eraseReps = if a = b then (b :: as).eraseReps else a :: (b :: as).eraseReps := by
  have hloop : (a :: b :: as).eraseReps = List.eraseRepsBy.loop (· == ·) a (b :: as) [] := rfl
  rw [hloop, List.eraseRepsBy.loop]
  by_cases hab : a = b
  · subst hab
    simp [eraseRepsLoop_eq]
  · have hne : (a == b) = false := by simpa using hab
    simp [eraseRepsLoop_eq, hab, hne]

theorem mem_eraseReps : name ∈ names.eraseReps ↔ name ∈ names := by
  induction names with
  | nil => rfl
  | cons a names ih =>
    cases names with
    | nil => rfl
    | cons b names =>
      rw [eraseReps_cons_cons]
      split
      · next hab => rw [ih, List.mem_cons, List.mem_cons, List.mem_cons, hab, or_self_left]
      · rw [List.mem_cons, ih, ← List.mem_cons]

/-- Where names do not fall, equal ones are neighbours. -/
theorem pairwise_eraseReps (h : names.Pairwise (· ≤ ·)) : names.eraseReps.Pairwise (· < ·) := by
  induction names with
  | nil => exact List.Pairwise.nil
  | cons a names ih =>
    cases names with
    | nil => exact List.pairwise_singleton _ _
    | cons b names =>
      obtain ⟨hfirst, hrest⟩ := List.pairwise_cons.1 h
      obtain ⟨hsecond, -⟩ := List.pairwise_cons.1 hrest
      rw [eraseReps_cons_cons]
      split
      · exact ih hrest
      · next hab =>
        have hlt : a < b := lt_of_le_of_ne (hfirst b List.mem_cons_self) hab
        refine List.pairwise_cons.2 ⟨fun c hc => ?_, ih hrest⟩
        rcases List.mem_cons.1 (mem_eraseReps.1 hc) with rfl | hc
        · exact hlt
        · exact hlt.trans_le (hsecond c hc)

/-! ## Sorted names -/

theorem le_iff {a b : String} : le a b = true ↔ a ≤ b := by
  rw [le, Bool.not_eq_true', decide_eq_false_iff_not, not_lt]

theorem mem_sortedUnique : name ∈ sortedUnique names ↔ name ∈ names := by
  rw [sortedUnique, mem_eraseReps, (names.mergeSort_perm le).mem_iff]

theorem pairwise_sortedUnique (names : List String) : (sortedUnique names).Pairwise (· < ·) := by
  have hsorted : (names.mergeSort le).Pairwise fun a b => le a b = true := by
    refine List.pairwise_mergeSort (fun a b c hab hbc => ?_) (fun a b => ?_) names
    · exact le_iff.2 ((le_iff.1 hab).trans (le_iff.1 hbc))
    · rw [Bool.or_eq_true, le_iff, le_iff]
      exact le_total a b
  exact pairwise_eraseReps (hsorted.imp fun h => le_iff.1 h)

/-- There is one list of the same names that rises. -/
theorem sortedUnique_eq_iff :
    sortedUnique names = names' ↔ names'.Pairwise (· < ·) ∧ ∀ name, name ∈ names ↔ name ∈ names' := by
  constructor
  · rintro rfl
    exact ⟨pairwise_sortedUnique names, fun name => mem_sortedUnique.symm⟩
  · rintro ⟨hrises, hsame⟩
    have hperm : (sortedUnique names).Perm names' :=
      (List.perm_ext_iff_of_nodup ((pairwise_sortedUnique names).imp ne_of_lt) (hrises.imp ne_of_lt)).2 fun name => by
        rw [mem_sortedUnique, hsame]
    exact hperm.eq_of_pairwise (fun a b _ _ hab hba => absurd (hab.trans hba) (lt_irrefl a))
      (pairwise_sortedUnique names) hrises

theorem sortedUnique_congr (h : ∀ name, name ∈ names ↔ name ∈ names') : sortedUnique names = sortedUnique names' :=
  sortedUnique_eq_iff.2 ⟨pairwise_sortedUnique names', fun name => by rw [h, mem_sortedUnique]⟩

end Text

/-! ## Characters and bytes -/

namespace Utf8

variable {a b : List Char}

/-- Of two numbers the lower one is so in its last digit or in front of it. -/
theorem lt_digits {v w : Nat} (h : v < w) : v / 64 < w / 64 ∨ v / 64 = w / 64 ∧ v % 64 < w % 64 := by omega

/-- Which of two characters is the lower one is seen in their bytes, whatever follows. -/
theorem encodeChar_append_lt {c d : Char} (h : c < d) (as bs : Bytes) :
    String.utf8EncodeChar c ++ as < String.utf8EncodeChar d ++ bs := by
  obtain ⟨v, hv⟩ : ∃ v, c.val.toNat = v := ⟨_, rfl⟩
  obtain ⟨w, hw⟩ : ∃ w, d.val.toNat = w := ⟨_, rfl⟩
  have hlt : v < w := by
    rw [← hv, ← hw]
    exact UInt32.lt_iff_toNat_lt.1 (Char.lt_def.1 h)
  have hbound : w < 0x110000 := by
    have := d.valid
    simp only [UInt32.isValidChar, Nat.isValidChar, hw] at this
    omega
  have hlast := lt_digits hlt
  have hmiddle : v / 64 < w / 64 → v / 4096 < w / 4096 ∨ v / 4096 = w / 4096 ∧ v / 64 % 64 < w / 64 % 64 := by
    intro hfront
    simpa [Nat.div_div_eq_div_mul] using lt_digits hfront
  have hfirst : v / 4096 < w / 4096 →
      v / 262144 < w / 262144 ∨ v / 262144 = w / 262144 ∧ v / 4096 % 64 < w / 4096 % 64 := by
    intro hfront
    simpa [Nat.div_div_eq_div_mul] using lt_digits hfront
  simp only [String.utf8EncodeChar, hv, hw]
  -- the longer an encoding is, the higher is its first byte; of one length, the bytes are digits of the character
  split_ifs
  all_goals
    simp only [List.cons_append, List.cons_lt_cons_iff, UInt8.lt_iff_toNat_lt, ← UInt8.toNat_inj, UInt8.toNat_ofNat']
    simp (disch := omega) only [Nat.mod_eq_of_lt]
    omega

theorem encode_lt_of_lt (h : a < b) : encode a < encode b := by
  induction a generalizing b with
  | nil =>
    cases b with
    | nil => exact absurd h (lt_irrefl _)
    | cons d b =>
      obtain ⟨byte, bytes, hbytes⟩ := List.exists_cons_of_ne_nil (mt encode_eq_nil.1 (List.cons_ne_nil d b))
      rw [hbytes]
      exact List.nil_lt_cons byte bytes
  | cons c a ih =>
    cases b with
    | nil => exact absurd h (List.not_lt_nil _)
    | cons d b =>
      rw [encode_cons, encode_cons]
      rcases List.cons_lt_cons_iff.1 h with hcd | ⟨rfl, hab⟩
      · exact encodeChar_append_lt hcd _ _
      · exact List.append_left_lt (ih hab)

/-- Texts are in the order of their bytes. -/
theorem encode_lt_iff : encode a < encode b ↔ a < b := by
  refine ⟨fun h => ?_, encode_lt_of_lt⟩
  rcases lt_trichotomy a b with hab | rfl | hba
  · exact hab
  · exact absurd h (List.lt_irrefl _)
  · exact absurd h (List.lt_asymm (encode_lt_of_lt hba))

theorem ofString_lt_iff {a b : String} : ofString a < ofString b ↔ a < b :=
  encode_lt_iff

end Utf8

end LineShell
