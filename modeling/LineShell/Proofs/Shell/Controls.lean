import LineShell.Proofs.Completion.Characters
import LineShell.Proofs.Editor.Kept
import LineShell.Proofs.Shell.Conversation
import LineShell.Proofs.Shell.Tab

/-!
# Control characters in lines

A line that is read has no control character that was typed. But a completion puts the names of files in as they
are, and the next read begins with that. So the lines that the parser gets hold a control character just if a
read leaves it in what it began with, and never one that no file has in its name (`lines_free_iff`).
-/

namespace LineShell

/-- Reading leaves the file tree as it is. -/
theorem World.files_of_read {w w' : World} {f : FileId} {count : Nat} {bytes : Bytes}
    (h : w.read f count = .ok (bytes, w')) : w'.files = w.files := by
  unfold World.read at h
  split at h
  · next i offset _ =>
    cases hcontent : w.files.contentOf i with
    | error e => rw [hcontent] at h; cases h
    | ok content =>
      rw [hcontent] at h
      cases h
      rfl
  · cases h
    rfl
  · cases h

theorem Host.files_useInput (h : Host) (count : Nat) : (h.useInput count).world.files = h.world.files := by
  unfold Host.useInput
  dsimp only
  split
  · rfl
  · split
    · rfl
    · next hread => exact World.files_of_read hread

namespace Shell

open Editor (byteOf)

variable {κ : Type u} {k : Kernel κ} {s s' r : Shell κ} {o : Outcome} {p : Pipeline} {text : String} {c : Char}

/-! ## The editor between two reads -/

theorem editor_runStages (k : Kernel κ) (s : Shell κ) (p : Pipeline) : (s.runStages k p).2.editor = s.editor := by
  have hlaunched : ∀ launched : Launched κ, (s.withLaunched launched).editor = s.editor :=
    fun launched => (withLaunched_rests s launched).editor
  unfold runStages conclude
  dsimp only
  split
  · exact hlaunched _
  · split
    · exact hlaunched _
    · exact hlaunched _

/-- Whatever the kernel does, executing a pipeline leaves the editor alone. -/
theorem editor_execute (h : s.execute k p = some (o, s')) : s'.editor = s.editor :=
  executeWithin_keeps (R := fun s s' => s'.editor = s.editor) ⟨fun hstays => hstays.editor, fun hab hbc => hbc.trans hab⟩
    (editor_runStages k) _ p s o s' h

/-! ## One turn -/

/-- The shell hands the line to the parser next. -/
def Hands (k : Kernel κ) (s : Shell κ) (text : String) : Prop := (s.reap k).readLine.1 = .line text

/-- What is left in that line of what the read began with. -/
def keptSeed (k : Kernel κ) (s : Shell κ) : Bytes := s.editor.keptSeed (s.reap k).host.left

theorem result_of_hands (h : s.Hands k text) : (s.reap k).nextRead.result = .ok (.line text) := by
  rw [Hands, readLine_eq] at h
  generalize (s.reap k).nextRead.result = result at h ⊢
  cases result with
  | error e => cases h
  | ok input => exact congrArg Except.ok h

/-- A control character is handed over just if the read has left it in what it began with. -/
theorem mem_iff_of_hands (hc : ¬ IsPrintable c) (hrecalled : byteOf c ∉ s.editor.recalled) (h : s.Hands k text) :
    c ∈ text.toList ↔ byteOf c ∈ s.keptSeed k :=
  Editor.mem_line_iff (e := s.editor) hc hrecalled (result_of_hands h)

/-- What reading the line leaves in the editor. -/
theorem readLine_editor (hread : (s.reap k).readLine = (.line text, r)) :
    (r.editor.lastLine = s.editor.lastLine ∨ r.editor.lastLine = some text) ∧ r.editor.pending = none := by
  have hgives := result_of_hands (congrArg Prod.fst hread)
  have heditor : r.editor = (s.reap k).nextRead.editor := congrArg (fun p => p.2.editor) hread.symm
  rw [heditor]
  refine ⟨?_, (Editor.edit_keeps _ _ _).2⟩
  rcases Editor.edit_lastLine s.editor (s.reap k).host.left (s.reap k).host.comingInput.2 with hsame |
    ⟨given, hgiven, hlast⟩
  · exact .inl hsame
  · obtain rfl : text = given := by simpa using hgives.symm.trans hgiven
    exact .inr hlast

/-- The names of files that a completion of the line puts in are those of the tree in front of the read. -/
theorem mem_completion (hc : ¬ IsPrintable c) (hread : (s.reap k).readLine = (.line text, r))
    (h : c ∈ (r.completion text).line.toList) :
    c ∈ text.toList ∨ (s.reap k).host.world.files.Mentions c := by
  have hfiles : r.host.world.files = (s.reap k).host.world.files := by
    rw [show r = (s.reap k).readLine.2 by rw [hread]]
    exact Host.files_useInput _ _
  have hnames : ∀ name ∈ Builtin.names, ∀ c ∈ name.toList, IsPrintable c := by
    simp [Builtin.names, Builtin.all, Builtin.name, IsPrintable]
  rw [← hfiles]
  rcases Completion.mem_of_mem_completed h with h | rfl | rfl | ⟨name, hname, h⟩ | h
  · exact .inl h
  · exact absurd (by decide) hc
  · exact absurd (by decide) hc
  · exact absurd (hnames name hname c h) hc
  · exact .inr h

/-- What a turn that is not the last leaves in the editor: as the seed nothing, or the completion of the line. -/
theorem editor_turn (h : s.turn k = some (.more, s')) : ∃ text r, (s.reap k).readLine = (.line text, r) ∧
    (s'.editor = r.editor ∨ s'.editor = r.editor.seed (r.completion text).line) := by
  cases hread : (s.reap k).readLine with
  | mk input r =>
    simp only [turn, hread] at h
    cases input with
    | eof => cases h
    | line text =>
      refine ⟨text, r, rfl, ?_⟩
      dsimp only at h
      split at h
      · cases h
        exact .inr (editor_offerCompletion r text)
      · split at h
        · cases h
        · cases h
        · next hexecute =>
          cases h
          exact .inl (editor_execute hexecute)

/-- What is remembered behind a turn has no control character if the line has none and nothing remembered before. -/
theorem not_mem_recalled_of_turn (hc : ¬ IsPrintable c) (hread : (s.reap k).readLine = (.line text, r))
    (heditor : s'.editor = r.editor ∨ s'.editor = r.editor.seed (r.completion text).line)
    (hrecalled : byteOf c ∉ s.editor.recalled) (htext : c ∉ text.toList) : byteOf c ∉ s'.editor.recalled := by
  have hlast : s'.editor.lastLine = r.editor.lastLine := by
    rcases heditor with heditor | heditor <;> rw [heditor]
    rfl
  rcases (readLine_editor hread).1 with hsame | hgiven
  · rwa [Editor.recalled, hlast, hsame]
  · rw [Editor.mem_recalled_iff hc, hlast, hgiven]
    rintro ⟨_, ⟨⟩, hmem⟩
    exact htext hmem

/-- The seed behind a turn has no control character if the line has none and no file has one in its name. -/
theorem not_mem_seedBytes_of_turn (hc : ¬ IsPrintable c) (hread : (s.reap k).readLine = (.line text, r))
    (heditor : s'.editor = r.editor ∨ s'.editor = r.editor.seed (r.completion text).line)
    (hnames : ¬ (s.reap k).host.world.files.Mentions c) (htext : c ∉ text.toList) :
    byteOf c ∉ s'.editor.seedBytes := by
  intro hmem
  obtain ⟨seed, hseed, hmem⟩ := Editor.mem_of_mem_seedBytes hc hmem
  rcases heditor with heditor | heditor
  · rw [heditor, (readLine_editor hread).2] at hseed
    cases hseed
  · rw [heditor] at hseed
    obtain rfl : (r.completion text).line = seed := Option.some.inj hseed
    exact (mem_completion hc hread hmem).elim htext hnames

/-! ## Runs -/

/-- If no line with a control character is handed over where none is remembered, none is ever remembered. -/
theorem not_mem_recalled (hc : ¬ IsPrintable c) (hstart : byteOf c ∉ s.editor.recalled)
    (hhands : ∀ s' text, Reaches k s s' → s'.Hands k text → byteOf c ∉ s'.editor.recalled → c ∉ text.toList)
    (h : Reaches k s s') : byteOf c ∉ s'.editor.recalled := by
  induction h with
  | start => exact hstart
  | @next s₁ s₂ hreached hturn ih =>
    obtain ⟨text, r, hread, heditor⟩ := editor_turn hturn
    exact not_mem_recalled_of_turn hc hread heditor ih (hhands s₁ text hreached (congrArg Prod.fst hread) ih)

theorem keptSeed_subset (k : Kernel κ) (s : Shell κ) : s.keptSeed k ⊆ s.editor.seedBytes := List.take_subset _ _

/-- If no file ever has a control character in its name, no read begins with it. -/
theorem not_mem_seedBytes (hc : ¬ IsPrintable c) (hrecalled : byteOf c ∉ s.editor.recalled)
    (hseed : byteOf c ∉ s.editor.seedBytes)
    (hnames : ∀ s', Reaches k s s' → ¬ (s'.reap k).host.world.files.Mentions c) (h : Reaches k s s') :
    byteOf c ∉ s'.editor.recalled ∧ byteOf c ∉ s'.editor.seedBytes := by
  induction h with
  | start => exact ⟨hrecalled, hseed⟩
  | @next s₁ s₂ hreached hturn ih =>
    obtain ⟨text, r, hread, heditor⟩ := editor_turn hturn
    have htext : c ∉ text.toList := by
      rw [mem_iff_of_hands hc ih.1 (congrArg Prod.fst hread)]
      exact fun hkept => ih.2 (keptSeed_subset k s₁ hkept)
    exact ⟨not_mem_recalled_of_turn hc hread heditor ih.1 htext,
      not_mem_seedBytes_of_turn hc hread heditor (hnames s₁ hreached) htext⟩

/-- **Which control characters the parser gets.** In whatever conversation, on whatever input: no line that is
handed over holds a control character if and only if no read leaves it in the completion it began with. That
is so if no file ever has the character in its name. -/
theorem lines_free_iff {c : Char} (hc : ¬ IsPrintable c) (k : Kernel κ) (config : Config) (diagnostics : Diagnostics)
    (host : Host) (kernel : κ) :
    ((∀ s text, Reaches k (start config diagnostics host kernel) s → s.Hands k text → c ∉ text.toList) ↔
      ∀ s text, Reaches k (start config diagnostics host kernel) s → s.Hands k text → byteOf c ∉ s.keptSeed k) ∧
    ((∀ s, Reaches k (start config diagnostics host kernel) s → ¬ (s.reap k).host.world.files.Mentions c) →
      ∀ s text, Reaches k (start config diagnostics host kernel) s → s.Hands k text → c ∉ text.toList) := by
  have hrecalled : byteOf c ∉ (start config diagnostics host kernel).editor.recalled := by simp [start, Editor.recalled]
  have hseed : byteOf c ∉ (start config diagnostics host kernel).editor.seedBytes := by simp [start, Editor.seedBytes]
  refine ⟨⟨fun hfree s text hreached hhands => ?_, fun hkept s text hreached hhands => ?_⟩,
    fun hnames s text hreached hhands => ?_⟩
  · have hclean := not_mem_recalled hc hrecalled (fun s text hreached hhands _ => hfree s text hreached hhands) hreached
    rw [← mem_iff_of_hands hc hclean hhands]
    exact hfree s text hreached hhands
  · have hclean := not_mem_recalled hc hrecalled (fun s text hreached hhands hclean =>
      (mem_iff_of_hands hc hclean hhands).not.2 (hkept s text hreached hhands)) hreached
    rw [mem_iff_of_hands hc hclean hhands]
    exact hkept s text hreached hhands
  · obtain ⟨hclean, hseed⟩ := not_mem_seedBytes hc hrecalled hseed hnames hreached
    rw [mem_iff_of_hands hc hclean hhands]
    exact fun hkept => hseed (keptSeed_subset k s hkept)

/-! ### A name of two lines -/

/-- A directory with a file whose name has a newline. -/
def twoLineTree : FileTree where
  nodes := #[.directory 0 [("a\nb", 1)], .file [] 0o644]

/-- A shell that is asked to complete the name, and then given the line. -/
def naming : Shell Machine :=
  start { dataDir := "/" } .shown (.startReading twoLineTree FileTree.root (Utf8.ofString "echo a\t\n") []) {}

/-- The same after its first turn. -/
def named : Shell Machine := { naming with
  editor := { capacity := naming.editor.capacity, pending := some "echo a\nb " }
  host := { naming.host with
    world := { naming.host.world with opened := #[.node 2 .read 8, .output, .error] }
    unread := [Key.newline] } }

theorem turn_naming : naming.turn (Machine.kernel fun _ => none) = some (.more, named) := by
  have hread : (naming.reap (Machine.kernel fun _ => none)).readLine =
      (.line "echo a?", { named with editor := { named.editor with pending := none } }) := rfl
  have hneeds : (Pipeline.parse "echo a?").needsCompletion = true := by decide
  have hcompletion : ({ named with editor := { named.editor with pending := none } } : Shell Machine).completion
      "echo a?" = ⟨"echo a\nb ", ["a\nb"]⟩ := by decide +kernel
  simp only [turn, hread, hneeds, if_true, offerCompletion, hcompletion]
  rfl

/-- The newline of the name is handed to the parser, because the read leaves it in what it began with. -/
theorem lines_free_iff_newline : ¬ IsPrintable '\n' ∧
    Reaches (Machine.kernel fun _ => none) naming named ∧
    named.Hands (Machine.kernel fun _ => none) "echo a\nb " ∧
    ¬ ∀ s text, Reaches (Machine.kernel fun _ => none) naming s → s.Hands (Machine.kernel fun _ => none) text →
      byteOf '\n' ∉ s.keptSeed (Machine.kernel fun _ => none) := by
  have hreached : Reaches (Machine.kernel fun _ => none) naming named := .of_turn turn_naming
  have hhands : named.Hands (Machine.kernel fun _ => none) "echo a\nb " := rfl
  refine ⟨by decide, hreached, hhands, fun hkept => ?_⟩
  exact (lines_free_iff (by decide) _ _ _ _ _).1.2 hkept named _ hreached hhands (by decide)

end Shell

end LineShell
