import LineShell.Proofs.Completion.Marks
import LineShell.Proofs.Editor.Drafts
import LineShell.Proofs.Shell.Reading
import LineShell.System.Machine

/-!
# Tab

Tab ends a read with the text and a mark behind it (`edit_tab`). The line is completed, which takes
nothing of the text away, and the next read begins with as much of it as the capacity allows. So what
was typed in front of Tab is there again when the next read begins (`tab_keeps_text`).
-/

namespace LineShell

namespace Editor

variable {e : Editor} {typed : Bytes} {text : String} {escape : Escape}

/-- Behind some bytes a read goes on, with the text in its buffer. -/
def Stands (e : Editor) (typed : Bytes) (text : String) (escape : Escape) : Prop :=
  ∃ echo, e.pressAll { buffer := e.seedBytes } typed = some (echo, ⟨Utf8.ofString text, escape⟩)

/-- A seed is nothing to the keys that are pressed. -/
theorem pressAll_unseeded (e : Editor) (t : Typing) (bs : Bytes) :
    { e with pending := none }.pressAll t bs = e.pressAll t bs := by
  induction bs generalizing t with
  | nil => rfl
  | cons b bs ih =>
    have hpress : { e with pending := none }.press t b = e.press t b := rfl
    simp only [pressAll, hpress, ih]

/-- Where no escape sequence is open, Tab ends the read with the text and a mark behind it. -/
theorem edit_tab (h : e.Stands typed text escape) (hescape : escape ≠ .bracket) (rest : Bytes) (ending : Ending) :
    ∃ screen, e.edit {} (typed ++ Key.tab :: rest) ending =
      ⟨.ok (.line (text ++ "?")), { e with pending := none }, screen, rest⟩ := by
  obtain ⟨echo, htyped⟩ := h
  rw [← pressAll_unseeded] at htyped
  have hplain : IsPlain ⟨Utf8.ofString text, escape⟩ Key.tab := by
    cases escape with
    | idle => exact .inl rfl
    | start => exact .inr ⟨rfl, by decide⟩
    | bracket => exact absurd rfl hescape
  have hpress : { e with pending := none }.press ⟨Utf8.ofString text, escape⟩ Key.tab =
      ([Key.newline], .finish (Utf8.encode (text.toList ++ ['?'])) false) := by
    rw [press_of_isPlain hplain, Utf8.encode_concat]
    rfl
  have hline : String.ofList (text.toList ++ ['?']) = text ++ "?" := by
    rw [String.ofList_append, String.ofList_toList]
  refine ⟨{ shown := e.seedBytes ++ echo ++ [Key.newline] }, ?_⟩
  rw [edit_eq_typeOn, typeOn_append rfl ending htyped, typeOn_finish rfl ending hpress, hline]
  rfl

/-- As the last byte of an escape sequence, the byte of Tab leaves the text alone. -/
theorem Stands.tab_of_bracket (h : e.Stands typed text .bracket) : e.Stands (typed ++ [Key.tab]) text .idle := by
  obtain ⟨echo, htyped⟩ := h
  have hpress : e.press ⟨Utf8.ofString text, .bracket⟩ Key.tab = ([], .more ⟨Utf8.ofString text, .idle⟩) := rfl
  exact ⟨_, by rw [pressAll_append htyped, pressAll_one hpress]; rfl⟩

/-- Of a seed that begins with the text, the text is left if it fits. -/
theorem prefix_seedBytes {e : Editor} {line : String} (hpending : e.pending = some line)
    (hbegins : text.toList <+: line.toList) (hlength : (Utf8.ofString text).length ≤ e.capacity) :
    Utf8.ofString text <+: e.seedBytes := by
  obtain ⟨rest, hrest⟩ := Utf8.encode_mono hbegins
  have hseed : e.seedBytes = (Utf8.ofString text ++ rest).take e.capacity := by
    rw [seedBytes, hpending]
    exact congrArg (List.take e.capacity) hrest.symm
  rw [hseed, List.take_append, List.take_of_length_le hlength]
  exact List.prefix_append _ _

end Editor

namespace Shell

variable {κ : Type u} {typed : Bytes} {text : String} {escape : Escape}

theorem prefix_completion (s : Shell κ) (text : String) :
    text.toList <+: (s.completion (text ++ "?")).line.toList := by
  obtain ⟨before, word, extended, htext, -, -, hextended, hpending⟩ := s.pending_mark text
  rw [pending_offerCompletion, Option.some_inj] at hpending
  rw [hpending, htext, String.toList_ofList]
  exact (List.prefix_append_right_inj before).2 hextended

theorem editor_offerCompletion (s : Shell κ) (line : String) :
    (s.offerCompletion line).editor = s.editor.seed (s.completion line).line := by
  unfold offerCompletion
  dsimp only
  split <;> rfl

theorem prefix_seedBytes_offerCompletion (s : Shell κ) (hlength : (Utf8.ofString text).length ≤ s.editor.capacity) :
    Utf8.ofString text <+: (s.offerCompletion (text ++ "?")).editor.seedBytes := by
  rw [editor_offerCompletion]
  exact Editor.prefix_seedBytes rfl (s.prefix_completion text) hlength

theorem asks_tab (text : String) : (Pipeline.parse (text ++ "?")).needsCompletion = true :=
  (Pipeline.needsCompletion_iff _).2 ⟨text, "", by rw [String.append_empty], by simp⟩

/-- A shell that finds Tab behind what was typed completes the text and executes nothing. -/
theorem turn_tab {k : Kernel κ} {s : Shell κ} (h : s.editor.Stands typed text escape) (hescape : escape ≠ .bracket)
    {rest : Bytes} (hleft : (s.reap k).host.left = typed ++ Key.tab :: rest) :
    ∃ r, (s.reap k).readLine = (.line (text ++ "?"), r) ∧ r.editor = { s.editor with pending := none } ∧
      s.turn k = some (.more, r.offerCompletion (text ++ "?")) := by
  obtain ⟨screen, hedit⟩ := Editor.edit_tab h hescape rest (s.reap k).host.comingInput.2
  have hread : (s.reap k).nextRead =
      ⟨.ok (.line (text ++ "?")), { s.editor with pending := none }, screen, rest⟩ := by
    rw [nextRead, hleft]
    exact hedit
  have hline := (s.reap k).readLine_eq
  rw [hread] at hline
  refine ⟨_, hline, rfl, ?_⟩
  unfold turn
  rw [hline]
  simp only [Except.toOption, Option.getD_some, asks_tab, if_true]

/-- **Tab keeps what was typed.** Whatever text the buffer holds in front of Tab, it comes back with a mark
behind it, and is not remembered. That line is not executed; its completion begins with the text, and so
does the buffer of the next read, although the completion may be cut off there. This holds for whole turns
of the conversation, too. The byte of Tab that ends an escape sequence is no key, and changes nothing. -/
theorem tab_keeps_text (k : Kernel κ) (s : Shell κ) (h : s.editor.Stands typed text escape)
    (hlength : (Utf8.ofString text).length ≤ s.editor.capacity) :
    (escape ≠ .bracket → ∀ rest ending, ∃ screen, s.editor.edit {} (typed ++ Key.tab :: rest) ending =
      ⟨.ok (.line (text ++ "?")), { s.editor with pending := none }, screen, rest⟩) ∧
    (escape = .bracket → s.editor.Stands (typed ++ [Key.tab]) text .idle) ∧
    (Pipeline.parse (text ++ "?")).needsCompletion = true ∧
    text.toList <+: (s.completion (text ++ "?")).line.toList ∧
    (∃ begun, Utf8.ofString text <+: begun ∧ ∀ input ending,
      (s.offerCompletion (text ++ "?")).editor.edit {} input ending =
        { s.editor with pending := none }.typeOn { shown := begun } { buffer := begun } ending input) ∧
    (escape ≠ .bracket → ∀ rest, (s.reap k).host.left = typed ++ Key.tab :: rest →
      ∃ s', s.turn k = some (.more, s') ∧ s'.editor.lastLine = s.editor.lastLine ∧
        Utf8.ofString text <+: s'.editor.seedBytes) := by
  refine ⟨fun hescape => Editor.edit_tab h hescape, ?_, asks_tab text, s.prefix_completion text, ?_, ?_⟩
  · rintro rfl
    exact h.tab_of_bracket
  · refine ⟨_, s.prefix_seedBytes_offerCompletion hlength, fun input ending => ?_⟩
    rw [editor_offerCompletion, Editor.edit_eq_typeOn]
    rfl
  · intro hescape rest hleft
    obtain ⟨r, -, heditor, hturn⟩ := turn_tab h hescape hleft
    refine ⟨_, hturn, ?_, r.prefix_seedBytes_offerCompletion ?_⟩
    · rw [editor_offerCompletion, heditor]
      rfl
    · rwa [heditor]

/-- A shell with a seed that is longer than its capacity, and an escape byte and Tab as its input. -/
def seeded : Shell Machine :=
  { start { dataDir := "/" } .shown (.startReading {} FileTree.root [Key.escape, Key.tab] []) {} with
    editor := { capacity := 4, lastLine := some "ls", pending := some "echoes" } }

/-- The text fills the capacity, and is all that is left of its completion. -/
theorem tab_keeps_text_seeded : seeded.editor.Stands [Key.escape] "echo" .start ∧
    (Utf8.ofString "echo").length ≤ seeded.editor.capacity ∧
    (seeded.reap (Machine.kernel fun _ => none)).host.left = [Key.escape] ++ Key.tab :: [] ∧
    ∃ s', seeded.turn (Machine.kernel fun _ => none) = some (.more, s') ∧ s'.editor.lastLine = some "ls" ∧
      Utf8.ofString "echo" <+: s'.editor.seedBytes := by
  have h : seeded.editor.Stands [Key.escape] "echo" .start := ⟨[], by decide +kernel⟩
  have hlength : (Utf8.ofString "echo").length ≤ seeded.editor.capacity := by decide +kernel
  have hleft : (seeded.reap (Machine.kernel fun _ => none)).host.left = [Key.escape] ++ Key.tab :: [] := rfl
  obtain ⟨-, -, -, -, -, hturn⟩ := tab_keeps_text (Machine.kernel fun _ => none) seeded h hlength
  exact ⟨h, hlength, hleft, hturn (by decide) [] hleft⟩

end Shell

end LineShell
