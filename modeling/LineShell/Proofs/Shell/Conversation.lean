import LineShell.Proofs.Completion.Requests
import LineShell.Proofs.Shell.Reading
import LineShell.Proofs.System.Machine

/-!
# When a conversation comes to its end

Every turn uses up some of the input while there is any. After that a turn either takes its line
from what the last one has seeded, or is the last. So a conversation can go on for ever only by
completing lines at the end of its input, and does so only if one of them is its own completion
(`converse_ends_iff`): a trapped shell reads that line, completes it and reads it again.
-/

namespace LineShell.Shell

variable {κ : Type u} {k : Kernel κ} {s s' s'' : Shell κ}

/-- The conversation comes to its end. -/
def Ends (k : Kernel κ) (s : Shell κ) : Prop := ∃ turns last, converse k turns s = some last

/-- What a conversation comes to on its way. -/
inductive Reaches (k : Kernel κ) (s : Shell κ) : Shell κ → Prop where
  | start : Reaches k s s
  | next {s' s'' : Shell κ} : Reaches k s s' → s'.turn k = some (.more, s'') → Reaches k s s''

/-- The next command ends and leaves the file tree as it is, and so do those that were left running. -/
structure Calm (k : Kernel κ) (s : Shell κ) : Prop where
  reap : (s.reap k).host.world.files = s.host.world.files
  execute : ∀ text s', (s.reap k).readLine = (.line text, s') →
    (Pipeline.parse text).needsCompletion = false →
      ∃ o s'', s'.execute k (Pipeline.parse text) = some (o, s'') ∧ s''.host.world.files = s'.host.world.files

/-- The input is used up, and the line that is read next asks for a completion that is read as the
same line. -/
structure Trapped (s : Shell κ) : Prop where
  used : s.host.left = []
  asks : (Pipeline.parse s.editor.pendingLine).needsCompletion = true
  again : (s.editor.seed (s.completion s.editor.pendingLine).line).pendingLine = s.editor.pendingLine

/-! ## Turns and runs -/

theorem ends_of_over (h : s.turn k = some (.over, s')) : s.Ends k := by
  refine ⟨1, s'.print "", ?_⟩
  simp only [converse, h]

theorem ends_iff_of_more (h : s.turn k = some (.more, s')) : s.Ends k ↔ s'.Ends k := by
  constructor
  · rintro ⟨turns, last, hlast⟩
    cases turns with
    | zero => cases hlast
    | succ turns =>
      simp only [converse, h] at hlast
      exact ⟨turns, last, hlast⟩
  · rintro ⟨turns, last, hlast⟩
    refine ⟨turns + 1, last, ?_⟩
    simp only [converse, h]
    exact hlast

namespace Reaches

theorem trans (h : Reaches k s s') (h' : Reaches k s' s'') : Reaches k s s'' := by
  induction h' with
  | start => exact h
  | next _ hturn ih => exact ih.next hturn

theorem of_turn (h : s.turn k = some (.more, s')) : Reaches k s s' := .next .start h

theorem ends_iff (h : Reaches k s s') : s.Ends k ↔ s'.Ends k := by
  induction h with
  | start => exact Iff.rfl
  | next _ hturn ih => exact ih.trans (ends_iff_of_more hturn)

end Reaches

/-- What a turn of a calm shell can be. -/
theorem turn_cases (hcalm : s.Calm k) :
    (∃ last, s.turn k = some (.over, last)) ∨
    (∃ text r, (s.reap k).readLine = (.line text, r) ∧ (Pipeline.parse text).needsCompletion = true ∧
      s.turn k = some (.more, r.offerCompletion text)) ∨
    (∃ text r o s', (s.reap k).readLine = (.line text, r) ∧ (Pipeline.parse text).needsCompletion = false ∧
      r.execute k (Pipeline.parse text) = some (o, s') ∧ s'.host.world.files = r.host.world.files ∧
      s.turn k = some (.more, s')) := by
  cases hread : (s.reap k).readLine with
  | mk input r =>
    cases input with
    | eof => exact .inl ⟨r, by simp only [turn, hread]⟩
    | line text =>
      by_cases hneeds : (Pipeline.parse text).needsCompletion = true
      · exact .inr (.inl ⟨text, r, rfl, hneeds, by simp only [turn, hread, hneeds, if_true]⟩)
      · rw [Bool.not_eq_true] at hneeds
        obtain ⟨o, s', hexecute, hfiles⟩ := hcalm.execute text r hread hneeds
        by_cases hexit : o = .exit
        · subst hexit
          exact .inl ⟨s', by simp [turn, hread, hneeds, hexecute]⟩
        · have hmore : s.turn k = some (.more, s') := by
            cases o <;> simp [turn, hread, hneeds, hexecute] at hexit ⊢
          exact .inr (.inr ⟨text, r, o, s', rfl, hneeds, hexecute, hfiles, hmore⟩)

/-! ## What is left of the input -/

theorem reap_alike (hcalm : s.Calm k) : s.Alike (s.reap k) := ⟨hcalm.reap, rfl, rfl, rfl⟩

theorem reap_attached (hk : k.Advances) (hcalm : s.Calm k) (ha : s.host.Attached) :
    (s.reap k).host.Attached ∧ (s.reap k).host.left.length ≤ s.host.left.length :=
  ha.advances (reap_advances hk s).host (reap_advances hk s).table hcalm.reap

/-- A turn keeps the shell attached and puts no input back. While there is input, it uses some. -/
theorem turn_progress (hk : k.Advances) (hcalm : s.Calm k) (ha : s.host.Attached)
    (hturn : s.turn k = some (.more, s')) : s'.host.Attached ∧ s'.host.left.length ≤ s.host.left.length ∧
      (s.host.left ≠ [] → s'.host.left.length < s.host.left.length) := by
  obtain ⟨hreaped, hreap⟩ := reap_attached hk hcalm ha
  have hreads := readLine_readsTo hreaped
  have hafter : s'.host.Attached ∧ s'.host.left.length ≤ (s.reap k).readLine.2.host.left.length := by
    rcases turn_cases hcalm with ⟨last, hover⟩ | ⟨text, r, hread, -, hmore⟩ |
      ⟨text, r, o, t, hread, -, hexecute, hfiles, hmore⟩
    · rw [hturn] at hover
      cases hover
    · rw [hturn] at hmore
      cases hmore
      rw [hread] at hreads ⊢
      obtain ⟨hattached, -, hleft, -⟩ := offerCompletion_spec hreads.attached text
      exact ⟨hattached, Nat.le_of_eq (congrArg List.length hleft)⟩
    · rw [hturn] at hmore
      cases hmore
      rw [hread] at hreads ⊢
      have hadvances := execute_advances hk hexecute
      exact hreads.attached.advances hadvances.host hadvances.table hfiles
  refine ⟨hafter.1, hafter.2.trans (hreads.left.trans hreap), fun hne => ?_⟩
  by_cases hused : (s.reap k).host.left = []
  · have hzero := hafter.2.trans hreads.left
    rw [hused, List.length_nil] at hzero
    exact Nat.lt_of_le_of_lt hzero (List.length_pos_iff.2 hne)
  · exact Nat.lt_of_le_of_lt hafter.2 (Nat.lt_of_lt_of_le (hreads.progress hused) hreap)

theorem left_eq_nil (h : s'.host.left.length ≤ s.host.left.length) (hused : s.host.left = []) :
    s'.host.left = [] := by
  rw [hused] at h
  exact List.length_eq_zero_iff.1 (Nat.le_zero.1 h)

/-! ## Where nothing is left -/

/-- A shell that has completed the line it was seeded with, at the end of its input. -/
structure Completed (s s' : Shell κ) : Prop where
  attached : s'.host.Attached
  used : s'.host.left = []
  alike : s.Alike s'
  pending : s'.editor.pending = some (s.completion s.editor.pendingLine).line

theorem Completed.pendingLine_eq (h : s.Completed s') :
    s'.editor.pendingLine = (s.editor.seed (s.completion s.editor.pendingLine).line).pendingLine := by
  unfold Editor.pendingLine Editor.seedBytes
  rw [h.pending, h.alike.capacity]
  rfl

/-- The next line is read from the completion of this one. -/
theorem Completed.toList_pendingLine (h : s.Completed s') : s'.editor.pendingLine.toList =
    Completion.reread (s.host.world.files.listing s.host.cwd)
      (Search.named s.host.world.files s.host.cwd s.host.searchPath) s.editor.capacity
      s.editor.pendingLine.toList := by
  rw [h.pendingLine_eq, Editor.pendingLine_seed, String.toList_ofList, Completion.reread, Completion.completed,
    String.ofList_toList]
  rfl

theorem readLine_reaped (hk : k.Advances) (hcalm : s.Calm k) (ha : s.host.Attached) (hused : s.host.left = []) :
    (s.reap k).readLine.1 = if s.editor.seedBytes = [] then .eof else .line s.editor.pendingLine := by
  obtain ⟨hreaped, hreap⟩ := reap_attached hk hcalm ha
  exact readLine_of_used hreaped (left_eq_nil hreap hused)

/-- Only a line that there is can ask for completion. -/
theorem seedBytes_ne_nil (hasks : (Pipeline.parse s.editor.pendingLine).needsCompletion = true) :
    s.editor.seedBytes ≠ [] := by
  intro hnil
  rw [Pipeline.needsCompletion_parse, Editor.pendingLine, hnil] at hasks
  exact absurd hasks (by decide)

theorem turn_completed (hk : k.Advances) (hcalm : s.Calm k) (ha : s.host.Attached) (hused : s.host.left = [])
    (hasks : (Pipeline.parse s.editor.pendingLine).needsCompletion = true) :
    ∃ s', s.turn k = some (.more, s') ∧ s.Completed s' := by
  have hline := readLine_reaped hk hcalm ha hused
  rw [if_neg (seedBytes_ne_nil hasks)] at hline
  obtain ⟨hreaped, hreap⟩ := reap_attached hk hcalm ha
  have hreads := readLine_readsTo hreaped
  cases hread : (s.reap k).readLine with
  | mk input r =>
    rw [hread] at hline hreads
    obtain rfl : input = .line s.editor.pendingLine := hline
    have halike : s.Alike r := (reap_alike hcalm).trans hreads.alike
    obtain ⟨hattached, hoffered, hleft, heditor⟩ := offerCompletion_spec hreads.attached s.editor.pendingLine
    refine ⟨r.offerCompletion s.editor.pendingLine, by simp only [turn, hread, hasks, if_true], ?_⟩
    refine ⟨hattached, ?_, halike.trans hoffered, ?_⟩
    · rw [hleft]
      exact left_eq_nil (hreads.left.trans hreap) hused
    · rw [heditor, ← halike.completion_eq]
      rfl

/-- Without input and without a seed the conversation is over. -/
theorem turn_of_nothing (hk : k.Advances) (hcalm : s.Calm k) (ha : s.host.Attached) (hused : s.host.left = [])
    (hpending : s.editor.pending = none) : ∃ last, s.turn k = some (.over, last) := by
  have hline := readLine_reaped hk hcalm ha hused
  rw [if_pos (by simp [Editor.seedBytes, hpending])] at hline
  cases hread : (s.reap k).readLine with
  | mk input r =>
    rw [hread] at hline
    obtain rfl : input = .eof := hline
    exact ⟨r, by simp only [turn, hread]⟩

/-- What is not completed at the end of the input is the last line. -/
theorem ends_of_not_asks (hk : k.Advances) (hcalm : ∀ s', Reaches k s s' → s'.Calm k) (ha : s.host.Attached)
    (hused : s.host.left = []) (hasks : (Pipeline.parse s.editor.pendingLine).needsCompletion = false) :
    s.Ends k := by
  have hline := readLine_reaped hk (hcalm s .start) ha hused
  obtain ⟨hreaped, hreap⟩ := reap_attached hk (hcalm s .start) ha
  have hreads := readLine_readsTo hreaped
  rcases turn_cases (hcalm s .start) with ⟨last, hover⟩ | ⟨text, r, hread, hneeds, -⟩ |
    ⟨text, r, o, s', hread, -, hexecute, -, hmore⟩
  · exact ends_of_over hover
  · rw [hread] at hline
    split at hline
    · cases hline
    · cases hline
      rw [hasks] at hneeds
      cases hneeds
  · obtain ⟨hattached, hleft, -⟩ := turn_progress hk (hcalm s .start) ha hmore
    have hpending : s'.editor.pending = none := by
      rw [hread] at hreads
      rw [(execute_advances hk hexecute).editor]
      exact hreads.pending
    have hreached := Reaches.of_turn hmore
    obtain ⟨last, hover⟩ := turn_of_nothing hk (hcalm s' hreached) hattached (left_eq_nil hleft hused) hpending
    exact hreached.ends_iff.2 (ends_of_over hover)

/-! ## Trapped -/

/-- A trapped shell comes to one that is trapped in the same line. -/
theorem Trapped.turn (hk : k.Advances) (hcalm : s.Calm k) (ha : s.host.Attached) (htrapped : s.Trapped) :
    ∃ s', s.turn k = some (.more, s') ∧ s'.host.Attached ∧ s'.Trapped := by
  obtain ⟨s', hturn, hcompleted⟩ := turn_completed hk hcalm ha htrapped.used htrapped.asks
  have hsame := hcompleted.pendingLine_eq.trans htrapped.again
  refine ⟨s', hturn, hcompleted.attached, hcompleted.used, hsame ▸ htrapped.asks, ?_⟩
  rw [hsame, hcompleted.alike.completion_eq, Editor.pendingLine_seed, hcompleted.alike.capacity,
    ← Editor.pendingLine_seed]
  exact htrapped.again

theorem Trapped.not_converse (hk : k.Advances) (hcalm : ∀ s', Reaches k s s' → s'.Calm k) (ha : s.host.Attached)
    (htrapped : s.Trapped) (turns : Nat) : converse k turns s = none := by
  induction turns generalizing s with
  | zero => rfl
  | succ turns ih =>
    obtain ⟨s', hturn, hattached, htrapped'⟩ := htrapped.turn hk (hcalm s .start) ha
    simp only [converse, hturn]
    exact ih (fun t ht => hcalm t ((Reaches.of_turn hturn).trans ht)) hattached htrapped'

/-! ## Requests in a row -/

/-- A shell at the end of its input that goes on for ever. -/
structure Endless (k : Kernel κ) (s : Shell κ) : Prop where
  calm : ∀ s', Reaches k s s' → s'.Calm k
  attached : s.host.Attached
  used : s.host.left = []
  endless : ¬ s.Ends k

theorem Endless.asks (hk : k.Advances) (h : s.Endless k) :
    (Pipeline.parse s.editor.pendingLine).needsCompletion = true := by
  by_contra hasks
  exact h.endless (ends_of_not_asks hk h.calm h.attached h.used (by simpa using hasks))

theorem Endless.next (hk : k.Advances) (h : s.Endless k) :
    ∃ s', s'.Endless k ∧ Reaches k s s' ∧ s.Completed s' := by
  obtain ⟨s', hturn, hcompleted⟩ := turn_completed hk (h.calm s .start) h.attached h.used (h.asks hk)
  have hreached := Reaches.of_turn hturn
  exact ⟨s', ⟨fun t ht => h.calm t (hreached.trans ht), hcompleted.attached, hcompleted.used,
    fun hends => h.endless (hreached.ends_iff.2 hends)⟩, hreached, hcompleted⟩

/-- At the end of its input a shell goes on for ever only into a trap. -/
theorem Endless.exists_trapped (hk : k.Advances) (h : s.Endless k) : ∃ t, Reaches k s t ∧ t.Trapped := by
  have hnext : ∀ t : { t : Shell κ // t.Endless k }, ∃ t' : { t : Shell κ // t.Endless k },
      Reaches k t.1 t'.1 ∧ t.1.Completed t'.1 := by
    intro t
    obtain ⟨t', hendless, hstep⟩ := t.2.next hk
    exact ⟨⟨t', hendless⟩, hstep⟩
  choose next hreaches hcompleted using hnext
  let run : Nat → { t : Shell κ // t.Endless k } := Nat.rec ⟨s, h⟩ fun _ => next
  have hfrom : ∀ n, Reaches k s (run n).1 ∧ s.Alike (run n).1 := by
    intro n
    induction n with
    | zero => exact ⟨.start, rfl, rfl, rfl, rfl⟩
    | succ n ih => exact ⟨ih.1.trans (hreaches (run n)), ih.2.trans (hcompleted (run n)).alike⟩
  have hreread : ∀ n, (run (n + 1)).1.editor.pendingLine.toList =
      Completion.reread (s.host.world.files.listing s.host.cwd)
        (Search.named s.host.world.files s.host.cwd s.host.searchPath) s.editor.capacity
        (run n).1.editor.pendingLine.toList := by
    intro n
    have halike := (hfrom n).2
    rw [(hcompleted (run n)).toList_pendingLine, Host.searchPath, halike.files, halike.cwd, halike.environment,
      halike.capacity]
    rfl
  obtain ⟨n, hsame⟩ := Completion.exists_reread_eq (Completion.lists_named _ _ _)
    (fun n => (Pipeline.needsCompletion_parse _).1 ((run n).2.asks hk)) hreread
  have hagain := String.toList_inj.1 hsame
  rw [(hcompleted (run n)).pendingLine_eq] at hagain
  exact ⟨(run n).1, (hfrom n).1, (run n).2.used, (run n).2.asks hk, hagain⟩

/-- Without a trap, every shell that is attached to its input ends: a turn that does not end it uses some. -/
theorem ends_of_untrapped (hk : k.Advances) (hcalm : ∀ s', Reaches k s s' → s'.Calm k) (ha : s.host.Attached)
    (huntrapped : ∀ s', Reaches k s s' → ¬ s'.Trapped) : s.Ends k := by
  induction hlength : s.host.left.length using Nat.strongRecOn generalizing s with
  | ind n ih =>
    subst hlength
    by_contra hendless
    by_cases hused : s.host.left = []
    · obtain ⟨t, hreached, htrapped⟩ := Endless.exists_trapped hk ⟨hcalm, ha, hused, hendless⟩
      exact huntrapped t hreached htrapped
    · have hmore : ∀ s', s.turn k = some (.more, s') → False := by
        intro s' hturn
        obtain ⟨hattached, -, hprogress⟩ := turn_progress hk (hcalm s .start) ha hturn
        have hreached := Reaches.of_turn hturn
        refine hendless (hreached.ends_iff.2 (ih _ (hprogress hused) (fun t ht => hcalm t (hreached.trans ht))
          hattached (fun t ht => huntrapped t (hreached.trans ht)) rfl))
      rcases turn_cases (hcalm s .start) with ⟨last, hover⟩ | ⟨_, _, -, -, hturn⟩ |
        ⟨_, _, _, _, -, -, -, -, hturn⟩
      · exact hendless (ends_of_over hover)
      · exact hmore _ hturn
      · exact hmore _ hturn

theorem attached_of_reaches (hk : k.Advances) (hcalm : ∀ s', Reaches k s s' → s'.Calm k) (ha : s.host.Attached)
    (hreached : Reaches k s s') : s'.host.Attached := by
  induction hreached with
  | start => exact ha
  | next hreached hturn ih => exact (turn_progress hk (hcalm _ hreached) ih hturn).1

/-- **A conversation ends unless it is trapped.** Whatever the input, the file tree and the search path: if
commands end and leave the file tree as it is, the conversation comes to its end, unless its input is
used up in front of a request whose completion is read as the same request. -/
theorem converse_ends_iff (hk : k.Advances) (config : Config) (diagnostics : Diagnostics) (files : FileTree)
    (cwd : NodeId) (input : Bytes) (environment : List (String × String)) (kernel : κ)
    (hcalm : ∀ s, Reaches k (start config diagnostics (.startReading files cwd input environment) kernel) s →
      s.Calm k) :
    (∃ turns last, converse k turns
      (start config diagnostics (.startReading files cwd input environment) kernel) = some last) ↔
      ∀ s, Reaches k (start config diagnostics (.startReading files cwd input environment) kernel) s →
        ¬ s.Trapped := by
  have ha : (start config diagnostics (.startReading files cwd input environment) kernel).host.Attached :=
    Host.attached_startReading files cwd input environment
  refine ⟨fun hends s hreached htrapped => ?_, fun huntrapped => ends_of_untrapped hk hcalm ha huntrapped⟩
  obtain ⟨turns, last, hlast⟩ := hreached.ends_iff.1 hends
  rw [htrapped.not_converse hk (fun t ht => hcalm t (hreached.trans ht))
    (attached_of_reaches hk hcalm ha hreached)] at hlast
  cases hlast

/-! ### A request with a blank behind it -/

/-- A shell in an empty directory, with a request as its input that has a blank behind its mark. -/
def asking : Shell Machine :=
  start { dataDir := "/" } .shown (.startReading {} FileTree.root (Utf8.ofString "x? ") []) {}

/-- The same after its first turn. -/
def asked : Shell Machine := { asking with
  editor := { capacity := asking.editor.capacity, lastLine := some "x? ", pending := some "x? " }
  host := { asking.host with world := { asking.host.world with opened := #[.node 1 .read 3, .output, .error] } } }

theorem turn_of_completes {text : String} {r : Shell κ} (hread : (s.reap k).readLine = (.line text, r))
    (hneeds : (Pipeline.parse text).needsCompletion = true) (hcompletion : r.completion text = ⟨text, []⟩) :
    s.turn k = some (.more, { r with editor := r.editor.seed text }) := by
  simp only [turn, hread, hneeds, if_true, offerCompletion, hcompletion]
  rfl

theorem turn_asking : asking.turn (Machine.kernel fun _ => none) = some (.more, asked) := by
  have hread : (asking.reap (Machine.kernel fun _ => none)).readLine =
      (.line "x? ", { asked with editor := { asked.editor with pending := none } }) := rfl
  exact turn_of_completes hread (by decide) (by decide +kernel)

theorem turn_asked : asked.turn (Machine.kernel fun _ => none) = some (.more, asked) := by
  have hread : (asked.reap (Machine.kernel fun _ => none)).readLine =
      (.line "x? ", { asked with editor := { asked.editor with pending := none } }) := rfl
  exact turn_of_completes hread (by decide) (by decide +kernel)

theorem reaches_asking {t : Shell Machine} (h : Reaches (Machine.kernel fun _ => none) asking t) :
    t = asking ∨ t = asked := by
  induction h with
  | start => exact .inl rfl
  | next _ hturn ih =>
    rcases ih with rfl | rfl
    · rw [turn_asking] at hturn
      cases hturn
      exact .inr rfl
    · rw [turn_asked] at hturn
      cases hturn
      exact .inr rfl

/-- The request is its own completion, and is read for ever. -/
theorem converse_ends_iff_asking :
    (∀ s, Reaches (Machine.kernel fun _ => none) asking s → s.Calm (Machine.kernel fun _ => none)) ∧
      ¬ ∃ turns last, converse (Machine.kernel fun _ => none) turns asking = some last := by
  have hcalm : ∀ s, Reaches (Machine.kernel fun _ => none) asking s → s.Calm (Machine.kernel fun _ => none) := by
    intro s hreached
    have hnone : (Pipeline.parse "x? ").needsCompletion ≠ false := by decide
    rcases reaches_asking hreached with rfl | rfl
    · refine ⟨rfl, fun text s' hread hneeds => absurd ?_ hnone⟩
      cases hread
      exact hneeds
    · refine ⟨rfl, fun text s' hread hneeds => absurd ?_ hnone⟩
      cases hread
      exact hneeds
  refine ⟨hcalm, fun hends => ?_⟩
  have huntrapped := (converse_ends_iff (Machine.kernel_advances _) { dataDir := "/" } .shown {} FileTree.root
    (Utf8.ofString "x? ") [] {} hcalm).1 hends
  refine huntrapped asked (.of_turn turn_asking) ⟨rfl, by decide, ?_⟩
  have hcompletion : asked.completion asked.editor.pendingLine = ⟨"x? ", []⟩ := by decide +kernel
  rw [hcompletion]
  rfl

end LineShell.Shell
