import LineShell.Pipeline.Parse
import LineShell.Proofs.Completion.Candidates
import LineShell.Proofs.Pipeline.Words
import LineShell.Proofs.Text.Utf8
import Mathlib.Data.Set.Finite.List
import Mathlib.Data.Fintype.EquivFin
import Mathlib.Order.WellFounded

/-!
# Completing a line again and again

A line asks for completion if it ends in a mark, whatever blanks there are behind it. What is read
when nothing follows a completed line is `reread`. If that asks for completion again and again, it
comes to a line that is read from its own completion (`exists_reread_eq`): the lines are bounded, so
they come back; the shortest line that comes back is added to and nothing else, and the only line in
front of it that it could come from is itself with another mark behind it, which is completed in the
same way.
-/

namespace LineShell

/-- Does the text end in a mark, blanks aside? -/
def asksCompletion (line : List Char) : Prop := (trim line).getLast? = some '?'

instance (line : List Char) : Decidable (asksCompletion line) :=
  inferInstanceAs (Decidable ((trim line).getLast? = some '?'))

theorem getLast?_trim {text : List Char} {c : Char} (hc : isBlank c = false) :
    (trim (text ++ [c])).getLast? = some c := by
  rw [trim_concat hc, List.getLast?_concat]

/-- A line that asks for completion ends in the mark or in a blank. -/
theorem asksCompletion.cases {line : List Char} (h : asksCompletion line) :
    (∃ text, line = text ++ ['?']) ∨ ∃ text b, isBlank b = true ∧ line = text ++ [b] := by
  rcases List.eq_nil_or_concat' line with rfl | ⟨text, c, rfl⟩
  · simp [asksCompletion, trim] at h
  · by_cases hc : isBlank c = true
    · exact Or.inr ⟨text, c, hc, rfl⟩
    · rw [asksCompletion, getLast?_trim (by simpa using hc)] at h
      cases h
      exact Or.inl ⟨text, rfl⟩

theorem Pipeline.head_setBackground (p : Pipeline) (background : Bool) :
    (p.setBackground background).head.needsCompletion = p.head.needsCompletion := by
  obtain ⟨head, tail⟩ := p
  cases tail <;> rfl

/-- A line is read as a request for completion if it asks for it. -/
theorem Pipeline.needsCompletion_parse (line : String) :
    (parse line).needsCompletion = true ↔ asksCompletion line.toList := by
  simp only [parse, ofText, needsCompletion, head_setBackground, asksCompletion, LineEnd.split]
  split
  · rename_i hmark
    simp [hmark]
  · split <;> simp_all

namespace Completion

variable {listing : Listing} {commands : String → List String} {capacity : Nat} {line stem : List Char}

/-- What is read when the completed line is all there is, as far as it is taken. -/
def reread (listing : Listing) (commands : String → List String) (capacity : Nat) (line : List Char) :
    List Char :=
  Utf8.decodeLossy ((Utf8.encode (completed listing commands line)).take capacity)

/-- A request that is read from a completed line is a part of it. -/
theorem reread_part (h : asksCompletion (reread listing commands capacity line)) :
    reread listing commands capacity line <+: completed listing commands line ∧
      (Utf8.encode (reread listing commands capacity line)).length ≤ capacity := by
  obtain ⟨front, hfront, hlength, hread | hread⟩ :=
    Utf8.decodeLossy_take_encode (completed listing commands line) capacity
  · unfold reread
    rw [hread]
    exact ⟨hfront, hlength⟩
  · -- a replacement at the end is neither the mark nor a blank
    rw [reread, hread] at h
    rcases h.cases with ⟨text, heq⟩ | ⟨text, b, hb, heq⟩
    · have := congrArg List.getLast? heq
      rw [List.getLast?_concat, List.getLast?_concat] at this
      exact absurd this (by decide)
    · have := congrArg List.getLast? heq
      rw [List.getLast?_concat, List.getLast?_concat, Option.some_inj] at this
      rw [← this] at hb
      exact absurd hb (by decide)

theorem prefix_reread (h : stem <+: completed listing commands line)
    (hlength : (Utf8.encode stem).length ≤ capacity) : stem <+: reread listing commands capacity line := by
  obtain ⟨rest, hrest⟩ := Utf8.encode_mono h
  rw [reread, ← hrest, List.take_append, List.take_of_length_le hlength, Utf8.decodeLossy_encode_append]
  exact List.prefix_append _ _

theorem encode_length_le {a b : List Char} (h : a <+: b) :
    (Utf8.encode a).length ≤ (Utf8.encode b).length :=
  (Utf8.encode_mono h).length_le

/-- What a request begins with is kept, unless it is the whole request with its mark. -/
theorem keep_prefix (hlists : Lists commands) (hline : asksCompletion line)
    (hlength : (Utf8.encode line).length ≤ capacity) (hstem : stem <+: line)
    (hne : stem = line → stem.getLast? ≠ some '?') : stem <+: reread listing commands capacity line := by
  refine prefix_reread ?_ ((encode_length_le hstem).trans hlength)
  rcases hline.cases with ⟨text, rfl⟩ | ⟨text, b, hb, rfl⟩
  · rcases List.prefix_concat_iff.1 hstem with rfl | hstem
    · exact absurd List.getLast?_concat (hne rfl)
    · exact hstem.trans (prefix_completed_mark hlists text)
  · refine hstem.trans (prefix_completed_plain hlists ?_)
    rw [List.getLast?_concat]
    rintro ⟨⟩
    exact absurd hb (by decide)

/-- A request that is only added to is read again in the same way with another mark behind it. -/
theorem reread_mark (hlists : Lists commands) (hline : asksCompletion line)
    (h : line <+: completed listing commands line) :
    reread listing commands capacity (line ++ ['?']) = reread listing commands capacity line := by
  unfold reread
  rcases hline.cases with ⟨text, rfl⟩ | ⟨text, b, hb, rfl⟩
  · rw [completed_mark_mark hlists h]
  · rw [completed_blank_mark hb]

/-! ## Lines that come back -/

/-- Requests in a row, each read from the completion of the one before it, where the first comes back
and is the shortest. -/
structure Cycle (listing : Listing) (commands : String → List String) (capacity : Nat)
    (x : Nat → List Char) : Prop where
  asks : ∀ n, asksCompletion (x n)
  next : ∀ n, x (n + 1) = reread listing commands capacity (x n)
  short : ∀ n, (Utf8.encode (x n)).length ≤ capacity
  shortest : ∀ n, (x 0).length ≤ (x n).length
  back : ∃ n, x (n + 1) = x 0

namespace Cycle

variable {x : Nat → List Char}

theorem keep (hx : Cycle listing commands capacity x) (hlists : Lists commands) {n : Nat}
    (hstem : stem <+: x n) (hne : stem = x n → stem.getLast? ≠ some '?') : stem <+: x (n + 1) := by
  rw [hx.next]
  exact keep_prefix hlists (hx.asks n) (hx.short n) hstem hne

/-- Another character in the place of the mark would stay there. -/
theorem mark_of_prefix (hx : Cycle listing commands capacity x) (hlists : Lists commands)
    {text : List Char} {y : Char} (hzero : x 0 = text ++ ['?']) (hone : text ++ [y] <+: x 1) : y = '?' := by
  by_contra hy
  have hstay : ∀ n, text ++ [y] <+: x (n + 1) := by
    intro n
    induction n with
    | zero => exact hone
    | succ n ih =>
      refine hx.keep hlists ih fun _ => ?_
      rw [List.getLast?_concat]
      simpa using hy
  obtain ⟨n, hback⟩ := hx.back
  have := hstay n
  rw [hback, hzero, List.prefix_append_right_inj] at this
  exact hy (by simpa using this)

/-- The shortest line is added to. -/
theorem prefix_one (hx : Cycle listing commands capacity x) (hlists : Lists commands) : x 0 <+: x 1 := by
  rcases (hx.asks 0).cases with ⟨text, hzero⟩ | ⟨text, b, hb, hzero⟩
  · have htext : text <+: x 1 := by
      refine hx.keep hlists (hzero ▸ List.prefix_append _ _) fun h => ?_
      have := congrArg List.length (h.trans hzero)
      rw [List.length_append, List.length_singleton] at this
      omega
    obtain ⟨rest, hrest⟩ := htext
    cases rest with
    | nil =>
      have := hx.shortest 1
      rw [← hrest, hzero, List.append_nil, List.length_append, List.length_singleton] at this
      omega
    | cons y rest =>
      obtain rfl : y = '?' := hx.mark_of_prefix hlists hzero ⟨rest, by rw [← hrest]; simp⟩
      exact ⟨rest, by rw [hzero, ← hrest]; simp⟩
  · refine hx.keep hlists List.prefix_rfl fun _ => ?_
    rw [hzero, List.getLast?_concat]
    rintro ⟨⟩
    exact absurd hb (by decide)

theorem prefix_all (hx : Cycle listing commands capacity x) (hlists : Lists commands) (n : Nat) :
    x 0 <+: x n := by
  induction n with
  | zero => exact List.prefix_rfl
  | succ n ih =>
    by_cases hsame : x 0 = x n
    · rw [hx.next, ← hsame, ← hx.next]
      exact hx.prefix_one hlists
    · exact hx.keep hlists ih fun h => absurd h hsame

/-- Only with another mark behind it does a line lead to a part of itself. -/
theorem eq_mark_of_next (hx : Cycle listing commands capacity x) (hlists : Lists commands) {n : Nat}
    (hnext : x (n + 1) = x 0) (hne : x n ≠ x 0) : x n = x 0 ++ ['?'] := by
  have hpart := hx.prefix_all hlists n
  rcases (hx.asks n).cases with ⟨text, heq⟩ | ⟨text, b, hb, heq⟩
  · have htext : text <+: x 0 := by
      rw [← hnext]
      refine hx.keep hlists (heq ▸ List.prefix_append _ _) fun h => ?_
      have := congrArg List.length (h.trans heq)
      rw [List.length_append, List.length_singleton] at this
      omega
    rw [heq] at hpart hne ⊢
    rcases List.prefix_concat_iff.1 hpart with h | h
    · exact absurd h.symm hne
    · rw [h.eq_of_length_le htext.length_le]
  · have hwhole : x n <+: x 0 := by
      rw [← hnext]
      refine hx.keep hlists List.prefix_rfl fun _ => ?_
      rw [heq, List.getLast?_concat]
      rintro ⟨⟩
      exact absurd hb (by decide)
    exact absurd (hwhole.eq_of_length_le hpart.length_le) hne

/-- The shortest line is read from its own completion. -/
theorem reread_zero (hx : Cycle listing commands capacity x) (hlists : Lists commands) :
    reread listing commands capacity (x 0) = x 0 := by
  obtain ⟨n, hback⟩ := hx.back
  by_cases hsame : x n = x 0
  · rw [← hsame, ← hx.next, hback, hsame]
  · have hadded : x 0 <+: completed listing commands (x 0) := by
      have hone := hx.asks 1
      rw [hx.next] at hone
      exact (hx.prefix_one hlists).trans (hx.next 0 ▸ (reread_part hone).1)
    rw [← reread_mark hlists (hx.asks 0) hadded, ← hx.eq_mark_of_next hlists hback hsame, ← hx.next, hback]

end Cycle

/-- Requests in a row come back, because there are only so many. -/
theorem exists_cycle {x : Nat → List Char} (hasks : ∀ n, asksCompletion (x n))
    (hnext : ∀ n, x (n + 1) = reread listing commands capacity (x n)) :
    ∃ c, Cycle listing commands capacity fun n => x (c + n) := by
  have hshort : ∀ n, (Utf8.encode (x (n + 1))).length ≤ capacity := by
    intro n
    have := hasks (n + 1)
    rw [hnext] at this ⊢
    exact (reread_part this).2
  obtain ⟨a, period, hback⟩ : ∃ a period, x (a + 1 + (period + 1)) = x (a + 1) := by
    have : Finite UInt8 := Finite.of_injective UInt8.toFin fun _ _ => UInt8.toFin_inj.1
    have hmaps : Set.MapsTo (fun n => Utf8.encode (x (n + 1))) Set.univ {bs | bs.length ≤ capacity} :=
      fun n _ => hshort n
    obtain ⟨i, -, j, -, hij, heq⟩ :=
      Set.infinite_univ.exists_ne_map_eq_of_mapsTo hmaps (List.finite_length_le UInt8 capacity)
    have heq : x (i + 1) = x (j + 1) := by
      rw [← Utf8.decodeLossy_encode (x (i + 1)), ← Utf8.decodeLossy_encode (x (j + 1))]
      exact congrArg Utf8.decodeLossy heq
    rcases Nat.lt_or_gt_of_ne hij with h | h
    · exact ⟨i, j - i - 1, by rw [heq]; congr 1; omega⟩
    · exact ⟨j, i - j - 1, by rw [← heq]; congr 1; omega⟩
  have hperiod : ∀ n, x (a + 1 + n + (period + 1)) = x (a + 1 + n) := by
    intro n
    induction n with
    | zero => exact hback
    | succ n ih =>
      rw [show a + 1 + (n + 1) + (period + 1) = a + 1 + n + (period + 1) + 1 by omega, hnext, ih, ← hnext]
      rfl
  -- from the shortest of them on
  let b := Function.argmin fun n => (x (a + 1 + n)).length
  have hmin : ∀ n, (x (a + 1 + b)).length ≤ (x (a + 1 + n)).length :=
    fun n => Function.argmin_le (fun n => (x (a + 1 + n)).length) n
  refine ⟨a + 1 + b, fun n => hasks _, fun n => hnext _, fun n => ?_, fun n => ?_, period, hperiod b⟩
  · rw [show a + 1 + b + n = a + b + n + 1 by omega]
    exact hshort _
  · rw [Nat.add_assoc _ b n]
    exact hmin (b + n)

/-- Where every line in a row asks for completion, one of them is read from its own completion. -/
theorem exists_reread_eq (hlists : Lists commands) {x : Nat → List Char}
    (hasks : ∀ n, asksCompletion (x n)) (hnext : ∀ n, x (n + 1) = reread listing commands capacity (x n)) :
    ∃ n, x (n + 1) = x n := by
  obtain ⟨c, hcycle⟩ := exists_cycle hasks hnext
  exact ⟨c, by rw [hnext]; exact hcycle.reread_zero hlists⟩

end Completion

end LineShell
