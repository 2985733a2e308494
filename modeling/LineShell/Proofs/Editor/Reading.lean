import LineShell.Editor

/-!
# Reading bytes

A read takes its bytes from the beginning of the input (`typeOn_rest`) and leaves nothing of the editor
as it was but its capacity (`edit_keeps`). `pressAll` is the part of a read in which it goes on:
what has been echoed of some bytes and where the read stands behind them; the rest of the read
is the same as that of a read that begins there (`typeOn_append`).
-/

namespace LineShell

namespace Editor

variable {e : Editor} {s : Screen} {ending : Ending}

/-- Reading takes bytes from the beginning of the input. -/
theorem typeOn_rest (e : Editor) (s : Screen) (t : Typing) (ending : Ending) (bs : Bytes) :
    (e.typeOn s t ending bs).rest <:+ bs := by
  induction bs generalizing s t with
  | nil =>
    unfold typeOn
    split
    · exact List.suffix_rfl
    · split <;> exact List.suffix_rfl
  | cons b bs ih =>
    have htail : bs <:+ b :: bs := List.suffix_cons b bs
    unfold typeOn
    dsimp only
    split
    · exact htail
    · split
      · exact (ih _ _).trans htail
      · exact htail
      · exact htail

theorem typeOn_rest_length_lt (e : Editor) (s : Screen) (t : Typing) (ending : Ending) (b : UInt8) (bs : Bytes) :
    (e.typeOn s t ending (b :: bs)).rest.length < (b :: bs).length := by
  unfold typeOn
  dsimp only
  split
  · exact Nat.lt_succ_self _
  · split
    · exact Nat.lt_succ_of_le (typeOn_rest e _ _ ending bs).length_le
    · exact Nat.lt_succ_self _
    · exact Nat.lt_succ_self _

theorem accept_keeps (e : Editor) (buffer : Bytes) (remember : Bool) :
    (e.accept buffer remember).2.capacity = e.capacity ∧ (e.accept buffer remember).2.pending = e.pending := by
  cases remember <;> exact ⟨rfl, rfl⟩

theorem typeOn_keeps (e : Editor) (s : Screen) (t : Typing) (ending : Ending) (bs : Bytes) :
    (e.typeOn s t ending bs).editor.capacity = e.capacity ∧
      (e.typeOn s t ending bs).editor.pending = e.pending := by
  induction bs generalizing s t with
  | nil =>
    unfold typeOn
    split
    · exact ⟨rfl, rfl⟩
    · split
      · exact ⟨rfl, rfl⟩
      · exact accept_keeps e _ _
  | cons b bs ih =>
    unfold typeOn
    dsimp only
    split
    · exact ⟨rfl, rfl⟩
    · split
      · exact ih _ _
      · exact ⟨rfl, rfl⟩
      · exact accept_keeps e _ _

/-- A screen that takes everything does not stop a read before it has begun. -/
theorem edit_eq_typeOn (e : Editor) (input : Bytes) (ending : Ending) :
    e.edit {} input ending =
      { e with pending := none }.typeOn { shown := e.seedBytes } { buffer := e.seedBytes } ending input := rfl

/-- A read leaves no seed behind. -/
theorem edit_keeps (e : Editor) (input : Bytes) (ending : Ending) :
    (e.edit {} input ending).editor.capacity = e.capacity ∧ (e.edit {} input ending).editor.pending = none := by
  rw [edit_eq_typeOn]
  exact typeOn_keeps _ _ _ _ _

theorem edit_rest (e : Editor) (input : Bytes) (ending : Ending) : (e.edit {} input ending).rest <:+ input := by
  rw [edit_eq_typeOn]
  exact typeOn_rest _ _ _ _ _

theorem edit_rest_length_lt (e : Editor) {input : Bytes} (ending : Ending) (h : input ≠ []) :
    (e.edit {} input ending).rest.length < input.length := by
  obtain ⟨b, bs, rfl⟩ := List.exists_cons_of_ne_nil h
  rw [edit_eq_typeOn]
  exact typeOn_rest_length_lt _ _ _ _ _ _

/-- The line that an editor gives when there is nothing to read. -/
def pendingLine (e : Editor) : String := String.ofList (Utf8.decodeLossy e.seedBytes)

theorem pendingLine_seed (e : Editor) (text : String) : (e.seed text).pendingLine =
    String.ofList (Utf8.decodeLossy ((Utf8.ofString text).take e.capacity)) := rfl

theorem edit_of_used (e : Editor) :
    (e.edit {} [] .used).result = .ok (if e.seedBytes = [] then .eof else .line e.pendingLine) := by
  rw [edit_eq_typeOn]
  unfold typeOn
  dsimp only
  split
  · rfl
  · rfl

/-! ## A read that goes on -/

variable {t t' : Typing} {as bs echo : Bytes}

/-- What a read that goes on has echoed of some bytes, and where it stands behind them. -/
def pressAll (e : Editor) (t : Typing) : Bytes → Option (Bytes × Typing)
  | [] => some ([], t)
  | b :: bs =>
    match e.press t b with
    | (echo, .more t') => (pressAll e t' bs).map fun (echoes, t'') => (echo ++ echoes, t'')
    | _ => none

theorem pressAll_cons {b : UInt8} (h : e.press t b = (echo, .more t')) :
    e.pressAll t (b :: bs) = (e.pressAll t' bs).map fun (echoes, t'') => (echo ++ echoes, t'') := by
  simp only [pressAll, h]

theorem pressAll_one {b : UInt8} (h : e.press t b = (echo, .more t')) : e.pressAll t [b] = some (echo, t') := by
  simp [pressAll, h]

theorem pressAll_append (h : e.pressAll t as = some (echo, t')) :
    e.pressAll t (as ++ bs) = (e.pressAll t' bs).map fun (echoes, t'') => (echo ++ echoes, t'') := by
  induction as generalizing t echo with
  | nil =>
    cases h
    simp
  | cons b as ih =>
    rw [pressAll] at h
    split at h
    · rename_i first t₁ hpress
      obtain ⟨⟨echoes, t₂⟩, hrest, heq⟩ := Option.map_eq_some_iff.1 h
      cases heq
      rw [List.cons_append, pressAll_cons hpress, ih hrest, Option.map_map]
      congr 1
      funext ⟨more, t₃⟩
      simp
    · cases h

/-- A read goes on behind some bytes as it stands there. -/
theorem typeOn_append {s : Screen} (hroom : s.room = none) (ending : Ending)
    (h : e.pressAll t as = some (echo, t')) :
    e.typeOn s t ending (as ++ bs) = e.typeOn { s with shown := s.shown ++ echo } t' ending bs := by
  induction as generalizing t s echo with
  | nil =>
    cases h
    simp
  | cons b as ih =>
    rw [pressAll] at h
    split at h
    · rename_i first t₁ hpress
      obtain ⟨⟨echoes, t₂⟩, hrest, heq⟩ := Option.map_eq_some_iff.1 h
      cases heq
      rw [List.cons_append, typeOn]
      simp only [hpress, Screen.write, hroom]
      rw [ih rfl hrest, List.append_assoc]
    · cases h

end Editor

end LineShell
