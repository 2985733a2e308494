import LineShell.Proofs.Text.Utf8
import Mathlib.Algebra.Order.BigOperators.Group.List
import Mathlib.Algebra.Order.Ring.Nat

/-!
# Where bytes may be cut

Encoded text can be cut into pieces that are read one by one. Cut between two characters it is read as it was
(`decodeLossy_encode_append`). Cut through a character it is not, and there is no need to look at what is
read to see this: in any bytes every byte that is no continuation byte gives a character or a replacement
of its own (`leads_le_length`), and so does a continuation byte in front of all others
(`leads_lt_length`).
-/

namespace LineShell.Utf8

variable {text front back : List Char} {r : Reader} {b : UInt8} {bs : Bytes} {n : Nat}

/-! ## Boundaries -/

/-- So many bytes of the encoded text are whole characters. -/
def IsBoundary (text : List Char) (n : Nat) : Prop :=
  ∃ front, front <+: text ∧ (encode front).length = n

theorem isBoundary_iff_mem : IsBoundary text n ↔ n ∈ text.inits.map fun front => (encode front).length := by
  simp [IsBoundary, List.mem_inits]

instance (text : List Char) (n : Nat) : Decidable (IsBoundary text n) :=
  decidable_of_iff _ isBoundary_iff_mem.symm

theorem isBoundary_zero (text : List Char) : IsBoundary text 0 :=
  ⟨[], List.nil_prefix, rfl⟩

theorem isBoundary_length (text : List Char) : IsBoundary text (encode text).length :=
  ⟨text, List.prefix_rfl, rfl⟩

/-- Behind whole characters the boundaries are those of what follows. -/
theorem isBoundary_append (front back : List Char) (n : Nat) :
    IsBoundary (front ++ back) ((encode front).length + n) ↔ IsBoundary back n := by
  constructor
  · rintro ⟨whole, hwhole, hlength⟩
    rcases List.prefix_or_prefix_of_prefix hwhole (List.prefix_append front back) with hshort | ⟨more, rfl⟩
    · have := (encode_mono hshort).length_le
      obtain rfl : n = 0 := by omega
      exact isBoundary_zero back
    · refine ⟨more, (List.prefix_append_right_inj front).1 hwhole, ?_⟩
      rw [encode_append, List.length_append] at hlength
      omega
  · rintro ⟨more, hmore, rfl⟩
    refine ⟨front ++ more, (List.prefix_append_right_inj front).2 hmore, ?_⟩
    rw [encode_append, List.length_append]

/-- A cut in front of a byte that is no continuation byte is a boundary. -/
theorem isBoundary_of_getElem (hn : n < (encode text).length) (hlead : isContinuation (encode text)[n] = false) :
    IsBoundary text n := by
  induction text generalizing n with
  | nil => simp [encode] at hn
  | cons c text ih =>
    by_cases hinside : n < (String.utf8EncodeChar c).length
    · cases n with
      | zero => exact isBoundary_zero _
      | succ n =>
        -- behind its first byte a character has continuation bytes only
        exfalso
        simp only [encode_cons, List.getElem_append_left hinside] at hlead
        rcases encodeChar_bytes c with ⟨-, hbytes⟩ | ⟨-, b, cs, hbytes, -, hcs⟩
        · simp [hbytes] at hinside
        · simp only [hbytes, List.getElem_cons_succ] at hlead
          rw [hcs _ (List.getElem_mem _)] at hlead
          cases hlead
    · obtain ⟨m, rfl⟩ := Nat.exists_eq_add_of_le (Nat.le_of_not_lt hinside)
      rw [encode_cons, List.length_append] at hn
      simp only [encode_cons, List.getElem_append_right (Nat.le_add_right _ m), Nat.add_sub_cancel_left] at hlead
      have hrest := (isBoundary_append [c] text m).2 (ih (by omega) hlead)
      rwa [encode_singleton] at hrest

/-! ## Counting -/

/-- How many of the bytes are no continuation bytes. -/
def leads (bs : Bytes) : Nat := bs.countP fun b => !isContinuation b

theorem leads_append (as bs : Bytes) : leads (as ++ bs) = leads as + leads bs :=
  List.countP_append

theorem leads_cons (b : UInt8) (bs : Bytes) :
    leads (b :: bs) = leads bs + if isContinuation b then 0 else 1 := by
  cases h : isContinuation b <;> simp [leads, h]

/-- Each character has one byte that is no continuation byte. -/
theorem leads_encode (text : List Char) : leads (encode text) = text.length := by
  induction text with
  | nil => rfl
  | cons c text ih =>
    have hchar : leads (String.utf8EncodeChar c) = 1 := by
      rcases encodeChar_bytes c with ⟨hc, hbytes⟩ | ⟨-, b, cs, hbytes, hb, hcs⟩
      · have hlead : isContinuation (UInt8.ofNat c.toNat) = false := by
          rw [← Bool.not_eq_true, isContinuation_iff, toNat_ofNat (by omega)]
          omega
        simp [hbytes, leads, hlead]
      · have hlead : isContinuation b = false := by
          rw [← Bool.not_eq_true, isContinuation_iff]
          omega
        have hrest : leads cs = 0 := List.countP_eq_zero.2 fun b' hb' => by simp [hcs b' hb']
        rw [hbytes, leads_cons, hrest, hlead]
        rfl
    rw [encode_cons, leads_append, hchar, ih, List.length_cons, Nat.add_comm]

/-- The reader goes on inside a character with continuation bytes only. -/
def Reader.Strict : Reader → Prop
  | .between => True
  | .inside _ lo hi _ => 0x80 ≤ lo ∧ hi ≤ 0xBF

/-- What the reader still gives if nothing follows. -/
def Reader.owed : Reader → Nat
  | .between => 0
  | .inside .. => 1

@[simp] theorem Reader.owed_between : Reader.between.owed = 0 := rfl

@[simp] theorem Reader.owed_inside (due lo hi code : Nat) : (Reader.inside due lo hi code).owed = 1 := rfl

/-- A byte that is looked at between two characters gives one result, now or later. -/
theorem start_owed (b : UInt8) : (start b).1.Strict ∧ (start b).2.length + (start b).1.owed = 1 := by
  unfold start
  dsimp only
  split_ifs <;> exact ⟨by simp [Reader.Strict], rfl⟩

theorem step_owed (hr : r.Strict) (b : UInt8) :
    (step r b).1.Strict ∧
      (r.owed + if isContinuation b then 0 else 1) ≤ (step r b).2.length + (step r b).1.owed := by
  obtain ⟨hstrict, howed⟩ := start_owed b
  cases r with
  | between =>
    refine ⟨hstrict, ?_⟩
    rw [step, howed, Reader.owed_between]
    split <;> omega
  | inside due lo hi code =>
    obtain ⟨hlo, hhi⟩ := hr
    by_cases hb : lo ≤ b.toNat ∧ b.toNat ≤ hi
    · have hcontinue : isContinuation b = true := isContinuation_iff.2 ⟨by omega, by omega⟩
      simp only [step, if_pos hb, hcontinue]
      split
      · exact ⟨trivial, Nat.le_refl _⟩
      · exact ⟨⟨by omega, by omega⟩, Nat.le_refl _⟩
    · simp only [step, if_neg hb, List.length_cons]
      refine ⟨hstrict, ?_⟩
      simp only [Reader.owed] at howed ⊢
      split <;> omega

theorem owed_add_leads_le (hr : r.Strict) (bs : Bytes) : r.owed + leads bs ≤ (scan r bs).length := by
  induction bs generalizing r with
  | nil => cases r <;> exact Nat.le_refl _
  | cons b bs ih =>
    obtain ⟨hstrict, hstep⟩ := step_owed hr b
    have hrest := ih hstrict
    rw [scan, List.length_append, leads_cons]
    omega

theorem length_decodeLossy (bs : Bytes) : (decodeLossy bs).length = (scan .between bs).length :=
  List.length_map _

/-- Every byte that is no continuation byte is read as something of its own. -/
theorem leads_le_length (bs : Bytes) : leads bs ≤ (decodeLossy bs).length := by
  have := owed_add_leads_le (r := .between) trivial bs
  rwa [Reader.owed_between, Nat.zero_add, ← length_decodeLossy] at this

/-- So is a continuation byte that nothing stands in front of. -/
theorem leads_lt_length (h : isContinuation b = true) (bs : Bytes) :
    leads (b :: bs) < (decodeLossy (b :: bs)).length := by
  obtain ⟨hstrict, howed⟩ := start_owed b
  have hrest := owed_add_leads_le hstrict bs
  rw [length_decodeLossy, scan, List.length_append, leads_cons, if_pos h, step]
  omega

/-! ## Pieces -/

/-- The bytes in pieces of `n`, the last of which may be shorter. -/
def pieces (n : Nat) (bs : Bytes) : List Bytes :=
  if n = 0 ∨ bs = [] then [] else bs.take n :: pieces n (bs.drop n)
termination_by bs.length
decreasing_by
  rename_i h
  have := List.length_pos_iff.2 (not_or.1 h).2
  rw [List.length_drop]
  omega

/-- Every cut into pieces of `n` lies between two characters. -/
def IsAligned (n : Nat) (text : List Char) : Prop :=
  ∀ k, k * n ≤ (encode text).length → IsBoundary text (k * n)

@[simp] theorem pieces_nil (n : Nat) : pieces n [] = [] := by
  rw [pieces, if_pos (Or.inr rfl)]

theorem pieces_of_ne_nil (hn : 0 < n) (h : bs ≠ []) : pieces n bs = bs.take n :: pieces n (bs.drop n) := by
  rw [pieces, if_neg (not_or.2 ⟨Nat.ne_of_gt hn, h⟩)]

theorem flatten_pieces (hn : 0 < n) (bs : Bytes) : (pieces n bs).flatten = bs := by
  fun_induction pieces n bs with
  | case1 bs h => exact (h.resolve_left (Nat.ne_of_gt hn)).symm
  | case2 bs h ih => rw [List.flatten_cons, ih, List.take_append_drop]

/-- What stands behind a cut begins a piece. -/
theorem take_drop_mem_pieces (hn : 0 < n) (k : Nat) (hk : k * n < bs.length) :
    (bs.drop (k * n)).take n ∈ pieces n bs := by
  have hne : bs ≠ [] := List.ne_nil_of_length_pos (Nat.zero_lt_of_lt hk)
  rw [pieces_of_ne_nil hn hne]
  induction k generalizing bs with
  | zero => simp
  | succ k ih =>
    rw [Nat.succ_mul] at hk
    have hdrop : k * n < (bs.drop n).length := by
      rw [List.length_drop]
      omega
    have hrest : bs.drop n ≠ [] := List.ne_nil_of_length_pos (Nat.zero_lt_of_lt hdrop)
    refine List.mem_cons_of_mem _ ?_
    rw [pieces_of_ne_nil hn hrest, Nat.succ_mul, Nat.add_comm, ← List.drop_drop]
    exact ih hdrop hrest

/-- In pieces that are cut between two characters a text is read as it was. -/
theorem IsAligned.flatMap_pieces (hn : 0 < n) (h : IsAligned n text) :
    (pieces n (encode text)).flatMap decodeLossy = text := by
  generalize hbs : encode text = bs
  fun_induction pieces n bs generalizing text with
  | case1 bs hnil =>
    have hempty := hnil.resolve_left (Nat.ne_of_gt hn)
    exact (encode_eq_nil.1 (hbs.trans hempty)).symm
  | case2 bs hne ih =>
    subst hbs
    rw [List.flatMap_cons]
    by_cases hlong : n ≤ (encode text).length
    · have hfirst := h 1 (by omega)
      rw [Nat.one_mul] at hfirst
      obtain ⟨front, ⟨back, rfl⟩, hlength⟩ := hfirst
      have hback : IsAligned n back := by
        intro k hk
        have hcut := h (k + 1) (by rw [encode_append, List.length_append, Nat.succ_mul]; omega)
        rw [Nat.succ_mul, Nat.add_comm, ← hlength] at hcut
        rw [← hlength]
        exact (isBoundary_append front back _).1 hcut
      have htake : (encode (front ++ back)).take n = encode front := by
        rw [encode_append, ← hlength, List.take_left]
      have hdrop : encode back = (encode (front ++ back)).drop n := by
        rw [encode_append, ← hlength, List.drop_left]
      rw [ih hback hdrop, htake, decodeLossy_encode]
    · have hshort := Nat.le_of_not_le hlong
      rw [List.take_of_length_le hshort, List.drop_of_length_le hshort, decodeLossy_encode, pieces_nil]
      exact List.append_nil text

theorem leads_flatten_lt {ps : List Bytes} (h : ∃ p ∈ ps, leads p < (decodeLossy p).length) :
    leads ps.flatten < (ps.flatMap decodeLossy).length := by
  rw [leads, List.countP_flatten, List.length_flatMap]
  exact List.sum_lt_sum _ _ (fun p _ => leads_le_length p) h

/-- **Reading in pieces.** A text is read from pieces of its bytes as it was if and only if none of
the cuts goes through a character. -/
theorem flatMap_pieces_iff (hn : 0 < n) :
    (pieces n (encode text)).flatMap decodeLossy = text ↔ IsAligned n text := by
  refine ⟨fun h k hk => ?_, fun h => h.flatMap_pieces hn⟩
  rcases Nat.eq_or_lt_of_le hk with hend | hinside
  · rw [hend]
    exact isBoundary_length text
  · refine isBoundary_of_getElem hinside ?_
    by_contra hcontinue
    -- such a piece is read as more than it has characters, and then so is the whole
    have hpiece : leads (((encode text).drop (k * n)).take n) <
        (decodeLossy (((encode text).drop (k * n)).take n)).length := by
      rw [List.drop_eq_getElem_cons hinside, List.take_cons hn]
      exact leads_lt_length (by simpa using hcontinue) _
    have hmore := leads_flatten_lt ⟨_, take_drop_mem_pieces hn k hinside, hpiece⟩
    rw [h, flatten_pieces hn, leads_encode] at hmore
    exact Nat.lt_irrefl _ hmore

theorem length_encode_of_width {width : Nat} (h : ∀ c ∈ text, (String.utf8EncodeChar c).length = width) :
    (encode text).length = text.length * width := by
  induction text with
  | nil => simp [encode]
  | cons c text ih =>
    obtain ⟨hc, htext⟩ := List.forall_mem_cons.1 h
    rw [encode_cons, List.length_append, hc, ih htext, List.length_cons, Nat.succ_mul, Nat.add_comm]

/-- Where the encodings are equally long, cuts at multiples of their length are in front of a character. -/
theorem isAligned_of_width {width : Nat} (h : ∀ c ∈ text, (String.utf8EncodeChar c).length = width)
    (hn : width ∣ n) : IsAligned n text := by
  obtain ⟨m, rfl⟩ := hn
  intro k hk
  have hfront : ∀ c ∈ text.take (k * m), (String.utf8EncodeChar c).length = width :=
    fun c hc => h c (List.mem_of_mem_take hc)
  refine ⟨text.take (k * m), List.take_prefix _ _, ?_⟩
  have hcomm : k * (width * m) = k * m * width := by rw [Nat.mul_comm width m, Nat.mul_assoc]
  rw [length_encode_of_width h, hcomm] at hk
  rw [length_encode_of_width hfront, List.length_take, hcomm]
  rcases Nat.eq_zero_or_pos width with rfl | hwidth
  · rfl
  · rw [Nat.min_eq_left (Nat.le_of_mul_le_mul_right hk hwidth)]

end LineShell.Utf8
