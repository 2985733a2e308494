import LineShell.Proofs.Editor.Drafts
import LineShell.Proofs.Text.Ascii

/-!
# How long a line becomes

A byte that is put into the line finishes it where that comes to the capacity; seeds are cut to it. But
a seed and a remembered line may take all of the capacity, and the byte that is put behind one of them
is in the buffer before the capacity is looked at. `keepsWithin_iff` says that this is all: the
capacity bounds every buffer, line and remembered line of a run if and only if nothing is typed
where the buffer is full already; and each read exceeds what there was by one byte at most.
-/

namespace LineShell

/-! ## ASCII -/

/-- Does every byte stand for a character? -/
def IsAscii (bs : Bytes) : Prop := ∀ b ∈ bs, b.toNat < 0x80

instance (bs : Bytes) : Decidable (IsAscii bs) := List.decidableBAll (fun b : UInt8 => b.toNat < 0x80) bs

theorem IsAscii.exists_text {bs : Bytes} (h : IsAscii bs) : ∃ text, bs = Utf8.encode text := by
  induction bs with
  | nil => exact ⟨[], rfl⟩
  | cons b bs ih =>
    obtain ⟨hb, hbs⟩ := List.forall_mem_cons.1 h
    obtain ⟨text, rfl⟩ := ih hbs
    have htoNat := Utf8.toNat_ofNat_byte hb
    refine ⟨Char.ofNat b.toNat :: text, ?_⟩
    rcases Utf8.encodeChar_bytes (Char.ofNat b.toNat) with ⟨-, hbytes⟩ | ⟨hlarge, -⟩
    · rw [Utf8.encode_cons, hbytes, htoNat, UInt8.ofNat_toNat]
      rfl
    · omega

/-- ASCII is read and written again as it was. -/
theorem IsAscii.encode_decodeLossy {bs : Bytes} (h : IsAscii bs) : Utf8.encode (Utf8.decodeLossy bs) = bs := by
  obtain ⟨text, rfl⟩ := h.exists_text
  rw [Utf8.decodeLossy_encode]

theorem isAscii_encode {text : List Char} (h : ∀ c ∈ text, c.toNat < 0x80) : IsAscii (Utf8.encode text) := by
  intro b hb
  obtain ⟨c, hc, hbytes⟩ := List.mem_flatMap.1 hb
  have hsmall := h c hc
  rcases Utf8.encodeChar_bytes c with ⟨-, heq⟩ | ⟨hlarge, -⟩
  · rw [heq, List.mem_singleton] at hbytes
    rw [hbytes, Utf8.toNat_ofNat (by omega)]
    exact hsmall
  · omega

namespace Editor

variable {e : Editor} {t : Typing} {b : UInt8} {bs : Bytes} {bound : Nat}

/-! ## What a byte does to the buffer -/

/-- Is the byte put into the line where the read stands? -/
def Takes (t : Typing) (b : UInt8) : Prop := IsPlain t b ∧ IsText b

instance (t : Typing) (b : UInt8) : Decidable (Takes t b) := inferInstanceAs (Decidable (_ ∧ _))

/-- What a byte can do that is not put into the line. -/
inductive Passes (e : Editor) (t : Typing) : Next → Prop where
  | keep (escape : Escape) : Passes e t (.more ⟨t.buffer, escape⟩)
  | drop : Passes e t (.more ⟨dropChar t.buffer, .idle⟩)
  | recalls : Passes e t (.more ⟨e.recalled, .idle⟩)
  | enter : Passes e t (.finish t.buffer true)
  | tab : Passes e t (.finish (t.buffer ++ [Key.question]) false)
  | quit : Passes e t .quit

/-- What a byte can do. -/
inductive Presses (e : Editor) (t : Typing) (b : UInt8) : Next → Prop where
  | text (takes : Takes t b) (room : t.buffer.length + 1 < e.capacity) :
    Presses e t b (.more ⟨t.buffer ++ [b], .idle⟩)
  | full (takes : Takes t b) (full : e.capacity ≤ t.buffer.length + 1) :
    Presses e t b (.finish (t.buffer ++ [b]) true)
  | passes {next : Next} (other : ¬ Takes t b) (passes : Passes e t next) : Presses e t b next

theorem pressPlain_passes (h : ¬ IsText b) : Passes e t (e.pressPlain t.buffer b).2 := by
  unfold pressPlain
  split
  · exact .keep .start
  split
  · exact .quit
  split
  · exact .tab
  split
  · exact .enter
  split
  · split
    · exact .keep .idle
    · exact .drop
  rename_i hedit
  split
  · exact .keep .idle
  · rename_i hspace
    exact absurd ⟨UInt8.not_lt.1 hspace, (not_or.1 hedit).2⟩ h

theorem press_passes (h : ¬ IsPlain t b) : Passes e t (e.press t b).2 := by
  obtain ⟨buffer, escape⟩ := t
  simp only [IsPlain, not_or, not_and, not_not] at h
  cases escape with
  | idle => exact absurd rfl h.1
  | start =>
    rw [h.2 rfl]
    exact .keep .bracket
  | bracket =>
    simp only [press]
    split
    · exact .recalls
    · exact .keep .idle

theorem presses (e : Editor) (t : Typing) (b : UInt8) : Presses e t b (e.press t b).2 := by
  by_cases hplain : IsPlain t b
  · rw [press_of_isPlain hplain]
    by_cases htext : IsText b
    · rw [pressPlain_of_isText htext, List.length_append, List.length_singleton]
      by_cases hfull : e.capacity ≤ t.buffer.length + 1
      · rw [if_pos hfull]
        exact .full ⟨hplain, htext⟩ hfull
      · rw [if_neg hfull]
        exact .text ⟨hplain, htext⟩ (Nat.lt_of_not_le hfull)
    · exact .passes (fun htakes => htext htakes.2) (pressPlain_passes htext)
  · exact .passes (fun htakes => hplain htakes.1) (press_passes hplain)

theorem dropChar_isPrefix (buffer : Bytes) : dropChar buffer <+: buffer := by
  have hsuffix : (buffer.reverse.dropWhile Utf8.isContinuation).tail <:+ buffer.reverse :=
    (List.tail_suffix _).trans (List.dropWhile_suffix _)
  rw [dropChar, ← List.reverse_suffix, List.reverse_reverse]
  exact hsuffix

/-- What is not put into the line brings no more bytes than there are, but for the mark of Tab. -/
theorem Passes.length_le {next : Next} (h : Passes e t next) (ht : t.buffer.length ≤ bound)
    (hrecalled : e.recalled.length ≤ bound) :
    match next with
    | .more t' => t'.buffer.length ≤ bound
    | .finish buffer remember => buffer.length ≤ if remember then bound else bound + 1
    | .quit => True := by
  cases h with
  | keep escape => exact ht
  | drop => exact (dropChar_isPrefix t.buffer).length_le.trans ht
  | recalls => exact hrecalled
  | enter => exact ht
  | tab =>
    dsimp only
    rw [List.length_append, List.length_singleton]
    exact Nat.succ_le_succ ht
  | quit => trivial

/-- ASCII stays ASCII. -/
theorem Presses.isAscii {next : Next} (h : Presses e t b next) (ht : IsAscii t.buffer) (hb : b.toNat < 0x80)
    (hrecalled : IsAscii e.recalled) :
    match next with
    | .more t' => IsAscii t'.buffer
    | .finish buffer _ => IsAscii buffer
    | .quit => True := by
  have hconcat : ∀ b' : UInt8, b'.toNat < 0x80 → IsAscii (t.buffer ++ [b']) := by
    intro b' hb'
    exact List.forall_mem_append.2 ⟨ht, List.forall_mem_singleton.2 hb'⟩
  cases h with
  | text takes room => exact hconcat b hb
  | full takes full => exact hconcat b hb
  | passes other passes =>
    cases passes with
    | keep escape => exact ht
    | drop => exact fun b' hb' => ht b' ((dropChar_isPrefix t.buffer).subset hb')
    | recalls => exact hrecalled
    | enter => exact ht
    | tab => exact hconcat Key.question (by decide)
    | quit => trivial

/-! ## One read -/

/-- The buffer holds at most so many bytes wherever the read comes, and one more only for the mark that
Tab puts behind the line. -/
def Within (bound : Nat) (e : Editor) (t : Typing) : Bytes → Prop
  | [] => t.buffer.length ≤ bound
  | b :: bs =>
    t.buffer.length ≤ bound ∧
      match (e.press t b).2 with
      | .more t' => Within bound e t' bs
      | .finish buffer remember => buffer.length ≤ if remember then bound else bound + 1
      | .quit => True

/-- Somewhere a byte is put into the line that finds the buffer full. -/
def Overtypes (e : Editor) (t : Typing) : Bytes → Prop
  | [] => False
  | b :: bs =>
    (Takes t b ∧ e.capacity ≤ t.buffer.length) ∨
      match (e.press t b).2 with
      | .more t' => Overtypes e t' bs
      | _ => False

/-- A read stays within the capacity just if nothing is put into a full buffer. -/
theorem within_iff (ht : t.buffer.length ≤ e.capacity) (hrecalled : e.recalled.length ≤ e.capacity) :
    e.Within e.capacity t bs ↔ ¬ e.Overtypes t bs := by
  induction bs generalizing t with
  | nil => simp [Within, Overtypes, ht]
  | cons b bs ih =>
    have hpresses := presses e t b
    simp only [Within, Overtypes, ht, true_and, not_or, not_and, Nat.not_le]
    generalize (e.press t b).2 = next at hpresses ⊢
    cases hpresses with
    | text takes room =>
      have hlength : (t.buffer ++ [b]).length ≤ e.capacity := by
        rw [List.length_append, List.length_singleton]
        exact Nat.le_of_lt room
      have hroom : t.buffer.length < e.capacity := by omega
      simp only [takes, hroom, forall_const, true_and]
      exact ih hlength
    | full takes full =>
      simp only [takes, forall_const, if_true, List.length_append, List.length_singleton, not_false_eq_true,
        and_true]
      exact Iff.rfl
    | passes other passes =>
      have hlength := passes.length_le ht hrecalled
      simp only [other, false_imp_iff, true_and]
      cases next with
      | more t' => exact ih hlength
      | finish buffer remember => simpa using hlength
      | quit => simp

/-- A read exceeds what there was by one byte at most. -/
theorem within_of_lt (ht : t.buffer.length < bound) (hrecalled : e.recalled.length < bound)
    (hcapacity : e.capacity ≤ bound) : e.Within bound t bs := by
  induction bs generalizing t with
  | nil => exact Nat.le_of_lt ht
  | cons b bs ih =>
    have hpresses := presses e t b
    refine ⟨Nat.le_of_lt ht, ?_⟩
    generalize (e.press t b).2 = next at hpresses ⊢
    cases hpresses with
    | text takes room =>
      refine ih ?_
      rw [List.length_append, List.length_singleton]
      omega
    | full takes full =>
      dsimp only
      rw [if_pos rfl, List.length_append, List.length_singleton]
      exact ht
    | passes other passes =>
      have hlength := passes.length_le (Nat.le_sub_one_of_lt ht) (Nat.le_sub_one_of_lt hrecalled)
      cases next with
      | more t' => exact ih (by dsimp only at hlength; omega)
      | finish buffer remember =>
        dsimp only at hlength ⊢
        split at hlength <;> split <;> omega
      | quit => trivial

/-- What a read gives and remembers holds at most so many bytes, but for the mark of Tab. -/
structure Bounded (bound : Nat) (r : Read) : Prop where
  line : ∀ text, r.result = .ok (.line text) → (Utf8.ofString text).length ≤ bound ∨
    ∃ front, text = front ++ "?" ∧ (Utf8.ofString front).length ≤ bound
  remembered : r.editor.recalled.length ≤ bound

theorem ofString_decodeLossy {buffer : Bytes} (h : IsAscii buffer) :
    Utf8.ofString (String.ofList (Utf8.decodeLossy buffer)) = buffer := by
  rw [Utf8.ofString, String.toList_ofList, h.encode_decodeLossy]

/-- The result of a read that finishes a line of ASCII. -/
theorem bounded_accept {buffer : Bytes} (h : IsAscii buffer) (hlength : buffer.length ≤ bound) (s : Screen)
    (rest : Bytes) :
    Bounded bound ⟨.ok (e.accept buffer true).1, (e.accept buffer true).2, s, rest⟩ ∧
      IsAscii (e.accept buffer true).2.recalled := by
  have hbytes := ofString_decodeLossy h
  have hremembered : (e.accept buffer true).2.recalled = buffer := hbytes
  refine ⟨⟨fun text htext => ?_, by rwa [hremembered]⟩, by rwa [hremembered]⟩
  cases htext
  exact Or.inl (by rwa [hbytes])

theorem bounded_accept_mark {buffer : Bytes} (h : IsAscii buffer) (hlength : buffer.length ≤ bound)
    (hrecalled : e.recalled.length ≤ bound) (s : Screen) (rest : Bytes) :
    Bounded bound ⟨.ok (e.accept (buffer ++ [Key.question]) false).1, e, s, rest⟩ := by
  refine ⟨fun text htext => Or.inr ⟨String.ofList (Utf8.decodeLossy buffer), ?_, ?_⟩, hrecalled⟩
  · obtain ⟨line, rfl⟩ := h.exists_text
    have hmark : Utf8.encode line ++ [Key.question] = Utf8.encode (line ++ ['?']) :=
      (Utf8.encode_concat line '?').symm
    rw [hmark, accept, Utf8.decodeLossy_encode] at htext
    cases htext
    rw [Utf8.decodeLossy_encode, ← String.toList_inj, String.toList_append, String.toList_ofList,
      String.toList_ofList]
    rfl
  · rwa [ofString_decodeLossy h]

theorem typeOn_bounded {s : Screen} (hroom : s.room = none) (ht : IsAscii t.buffer) (hbs : IsAscii bs)
    (hascii : IsAscii e.recalled) (hwithin : e.Within bound t bs) (hrecalled : e.recalled.length ≤ bound) :
    Bounded bound (e.typeOn s t .used bs) ∧ IsAscii (e.typeOn s t .used bs).editor.recalled := by
  induction bs generalizing t s with
  | nil =>
    simp only [typeOn]
    split
    · refine ⟨⟨fun text htext => ?_, hrecalled⟩, hascii⟩
      cases htext
    · exact bounded_accept ht hwithin s []
  | cons b bs ih =>
    obtain ⟨hb, hbs⟩ := List.forall_mem_cons.1 hbs
    obtain ⟨hlength, hwithin⟩ := hwithin
    have hpresses := presses e t b
    have hnext := hpresses.isAscii ht hb hascii
    simp only [typeOn, Screen.write, hroom]
    generalize hpress : (e.press t b).2 = next at hwithin hpresses hnext ⊢
    cases next with
    | more t' => exact ih rfl hnext hbs hwithin
    | quit =>
      refine ⟨⟨fun text htext => ?_, hrecalled⟩, hascii⟩
      cases htext
    | finish buffer remember =>
      cases remember with
      | true => exact bounded_accept hnext hwithin _ bs
      | false =>
        -- only Tab finishes a line that is not remembered
        cases hpresses with
        | passes other passes =>
          cases passes with
          | tab => exact ⟨bounded_accept_mark ht hlength hrecalled _ bs, hascii⟩

/-! ## Runs -/

/-- A seed or an input of ASCII. -/
def Call.IsAscii : Call Bytes → Prop
  | .seed text => ∀ c ∈ text.toList, c.toNat < 0x80
  | .read input => LineShell.IsAscii input

instance (c : Call Bytes) : Decidable c.IsAscii :=
  match c with
  | .seed text => List.decidableBAll (fun c : Char => c.toNat < 0x80) text.toList
  | .read input => inferInstanceAs (Decidable (LineShell.IsAscii input))

/-- Reads stay within so many bytes, in the buffer, in what they give and in what they remember. -/
def WithinCall (bound : Nat) (e : Editor) : Call Bytes → Prop
  | .seed _ => True
  | .read input => { e with pending := none }.Within bound { buffer := e.seedBytes } input ∧
      Bounded bound (e.edit {} input .used)

def KeepsWithin (bound : Nat) : Editor → List (Call Bytes) → Prop
  | _, [] => True
  | e, c :: cs => e.WithinCall bound c ∧ (e.call c).2.KeepsWithin bound cs

/-- A read puts a byte into a full buffer. -/
def OvertypesCall (e : Editor) : Call Bytes → Prop
  | .seed _ => False
  | .read input => { e with pending := none }.Overtypes { buffer := e.seedBytes } input

def Overtyped : Editor → List (Call Bytes) → Prop
  | _, [] => False
  | e, c :: cs => e.OvertypesCall c ∨ (e.call c).2.Overtyped cs

/-- How many of the calls are reads. -/
def reads : List (Call Bytes) → Nat
  | [] => 0
  | .seed _ :: cs => reads cs
  | .read _ :: cs => reads cs + 1

/-- The editor holds ASCII, and remembers at most so many bytes. -/
structure Holds (bound : Nat) (e : Editor) : Prop where
  seed : IsAscii e.seedBytes
  recalled : IsAscii e.recalled
  length : e.recalled.length ≤ bound

theorem seedBytes_length_le (e : Editor) : e.seedBytes.length ≤ e.capacity :=
  List.length_take_le _ _

theorem Holds.seeded (h : e.Holds bound) {text : String} (htext : ∀ c ∈ text.toList, c.toNat < 0x80) :
    (e.seed text).Holds bound :=
  ⟨fun b hb => isAscii_encode htext b (List.mem_of_mem_take hb), h.recalled, h.length⟩

theorem edit_capacity (e : Editor) (input : Bytes) : (e.edit {} input .used).editor.capacity = e.capacity :=
  (edit_keeps e input .used).1

/-- A read that stays within a bound remembers a line within it. -/
theorem Holds.edit {m : Nat} {input : Bytes} (h : e.Holds m) (hm : m ≤ bound) (hinput : IsAscii input)
    (hwithin : { e with pending := none }.Within bound { buffer := e.seedBytes } input) :
    Bounded bound (e.edit {} input .used) ∧ (e.edit {} input .used).editor.Holds bound := by
  have hrecalled : { e with pending := none }.recalled.length ≤ bound := h.length.trans hm
  obtain ⟨hbounded, hascii⟩ :=
    typeOn_bounded (e := { e with pending := none }) (s := { shown := e.seedBytes })
      (t := { buffer := e.seedBytes }) rfl h.seed hinput h.recalled hwithin hrecalled
  rw [← edit_eq_typeOn] at hbounded hascii
  refine ⟨hbounded, ?_, hascii, hbounded.remembered⟩
  rw [seedBytes, (edit_keeps e input .used).2]
  simp [IsAscii]

theorem keepsWithin_reads {calls : List (Call Bytes)} {m : Nat} (hcalls : ∀ c ∈ calls, c.IsAscii) (h : e.Holds m)
    (hcapacity : e.capacity ≤ m) (hbound : m + reads calls ≤ bound) : e.KeepsWithin bound calls := by
  induction calls generalizing e m with
  | nil => trivial
  | cons c cs ih =>
    obtain ⟨hc, hcs⟩ := List.forall_mem_cons.1 hcalls
    cases c with
    | seed text => exact ⟨trivial, ih hcs (h.seeded hc) hcapacity hbound⟩
    | read input =>
      have hmore : m < bound := by
        rw [reads] at hbound
        omega
      have hwithin : ∀ {n}, m < n → { e with pending := none }.Within n { buffer := e.seedBytes } input := by
        intro n hn
        have hseed := e.seedBytes_length_le
        exact within_of_lt (Nat.lt_of_le_of_lt (hseed.trans hcapacity) hn) (Nat.lt_of_le_of_lt h.length hn) (by
          dsimp only
          omega)
      obtain ⟨-, hholds⟩ := h.edit (Nat.le_succ m) hc (hwithin (Nat.lt_succ_self m))
      refine ⟨⟨hwithin hmore, (h.edit (Nat.le_of_lt hmore) hc (hwithin hmore)).1⟩, ih hcs hholds ?_ ?_⟩
      · exact (edit_capacity e input).trans_le (hcapacity.trans (Nat.le_succ m))
      · rw [reads] at hbound
        omega

theorem keepsWithin_capacity {calls : List (Call Bytes)} {capacity : Nat} (hcalls : ∀ c ∈ calls, c.IsAscii)
    (hcapacity : e.capacity = capacity) (h : e.Holds capacity) :
    e.KeepsWithin capacity calls ↔ ¬ e.Overtyped calls := by
  induction calls generalizing e with
  | nil => simp [KeepsWithin, Overtyped]
  | cons c cs ih =>
    obtain ⟨hc, hcs⟩ := List.forall_mem_cons.1 hcalls
    rw [KeepsWithin, Overtyped, not_or]
    cases c with
    | seed text => exact and_congr ⟨fun _ => not_false, fun _ => trivial⟩ (ih hcs hcapacity (h.seeded hc))
    | read input =>
      have hread : { e with pending := none }.Within capacity { buffer := e.seedBytes } input ↔
          ¬ { e with pending := none }.Overtypes { buffer := e.seedBytes } input := by
        subst hcapacity
        exact within_iff (e := { e with pending := none }) (t := { buffer := e.seedBytes }) e.seedBytes_length_le
          h.length
      have hafter : (e.call (.read input)).2.capacity = capacity := (edit_capacity e input).trans hcapacity
      constructor
      · rintro ⟨⟨hwithin, hbounded⟩, hrest⟩
        obtain ⟨-, hholds⟩ := h.edit (Nat.le_refl _) hc hwithin
        exact ⟨hread.1 hwithin, (ih hcs hafter hholds).1 hrest⟩
      · rintro ⟨hover, hrest⟩
        have hwithin := hread.2 hover
        obtain ⟨hbounded, hholds⟩ := h.edit (Nat.le_refl _) hc hwithin
        exact ⟨⟨hwithin, hbounded⟩, (ih hcs hafter hholds).2 hrest⟩

/-- **What the capacity bounds.** In a run of ASCII every buffer, every line and every remembered line holds
at most the capacity, but for the mark of Tab, if and only if nothing is put into a full buffer. In any
run they hold at most one byte more for every read. -/
theorem keepsWithin_iff (capacity : Nat) (calls : List (Call Bytes)) (hcalls : ∀ c ∈ calls, c.IsAscii) :
    (({ capacity } : Editor).KeepsWithin capacity calls ↔ ¬ ({ capacity } : Editor).Overtyped calls) ∧
      ({ capacity } : Editor).KeepsWithin (capacity + reads calls) calls := by
  have hholds : ({ capacity } : Editor).Holds capacity :=
    ⟨by simp [IsAscii, seedBytes], by simp [IsAscii, Editor.recalled], Nat.zero_le _⟩
  exact ⟨keepsWithin_capacity hcalls rfl hholds, keepsWithin_reads hcalls hholds (Nat.le_refl _) (Nat.le_refl _)⟩

/-- A line that fills the editor, and a read that recalls it and puts a key behind it. -/
def recallAndType : List (Call Bytes) :=
  [.read [0x61, 0x62, 0x63, 0x64], .read [Key.escape, Key.bracket, Key.up, 0x65]]

theorem keepsWithin_iff_recall :
    (∀ c ∈ recallAndType, c.IsAscii) ∧ ¬ ({ capacity := 4 } : Editor).KeepsWithin 4 recallAndType ∧
      (({ capacity := 4 } : Editor).answers recallAndType).map Answer.remembered = [some "abcd", some "abcde"] := by
  have hcalls : ∀ c ∈ recallAndType, c.IsAscii := by decide
  refine ⟨hcalls, fun hwithin => (keepsWithin_iff 4 recallAndType hcalls).1.1 hwithin ?_, rfl⟩
  -- the second read has recalled the whole line when the key comes
  exact Or.inr (Or.inl (Or.inr (Or.inr (Or.inr (Or.inl ⟨by decide, by decide⟩)))))

end Editor

end LineShell
