import LineShell.Proofs.Launch.Wiring
import LineShell.Shell.Conversation

/-!
# What the shell keeps while it executes a line

An open file stays open for what it is, and the place where a file is read moves forward only
(`World.Advances`). A kernel that keeps to that is `Kernel.Advances`; on such a kernel everything that
the shell does keeps to it too, and leaves its table, its editor, its configuration and the input
that it has read and not used (`Shell.execute_advances`).
-/

namespace LineShell

/-! ## Open files -/

/-- An open file goes on for what it is; the place where a file is read moves forward only. -/
def OpenFile.Advances : OpenFile → OpenFile → Prop
  | .node i .read offset, f => ∃ offset', offset ≤ offset' ∧ f = .node i .read offset'
  | .node i (.write mode) _, f => ∃ offset', f = .node i (.write mode) offset'
  | f, f' => f' = f

theorem OpenFile.Advances.refl (f : OpenFile) : f.Advances f := by
  unfold OpenFile.Advances
  split
  · exact ⟨_, Nat.le_refl _, rfl⟩
  · exact ⟨_, rfl⟩
  · rfl

theorem OpenFile.Advances.trans {a b c : OpenFile} (hab : a.Advances b) (hbc : b.Advances c) : a.Advances c := by
  match a, hab with
  | .node i .read offset, ⟨offset', hle, hb⟩ =>
    subst hb
    obtain ⟨offset'', hle', hc⟩ := hbc
    exact ⟨offset'', Nat.le_trans hle hle', hc⟩
  | .node i (.write mode) _, ⟨offset', hb⟩ =>
    subst hb
    exact hbc
  | .reader _, hb => exact hb ▸ hbc
  | .writer _, hb => exact hb ▸ hbc
  | .output, hb => exact hb ▸ hbc
  | .error, hb => exact hb ▸ hbc

namespace World

/-- What is open stays open. -/
def Advances (w w' : World) : Prop :=
  ∀ f file, w.file? f = some file → ∃ file', w'.file? f = some file' ∧ file.Advances file'

namespace Advances

variable {w w' w'' : World}

theorem refl (w : World) : w.Advances w := fun _ file h => ⟨file, h, .refl file⟩

theorem trans (h : w.Advances w') (h' : w'.Advances w'') : w.Advances w'' := by
  intro f file hfile
  obtain ⟨file', hfile', hfirst⟩ := h f file hfile
  obtain ⟨file'', hfile'', hsecond⟩ := h' f file' hfile'
  exact ⟨file'', hfile'', hfirst.trans hsecond⟩

theorem of_opened (h : w'.opened = w.opened) : w.Advances w' := by
  intro f file hfile
  exact ⟨file, by rwa [file?, h], .refl file⟩

theorem add (w : World) (file : OpenFile) : w.Advances (w.add file).2 := by
  intro f file' hfile
  refine ⟨file', ?_, .refl file'⟩
  simp only [World.add, file?] at hfile ⊢
  obtain ⟨hlt, heq⟩ := Array.getElem?_eq_some_iff.1 hfile
  rw [Array.getElem?_push_lt hlt, heq]

theorem set {f : FileId} {file file' : OpenFile} (hfile : w.file? f = some file) (h : file.Advances file')
    (hopened : w'.opened = w.opened.setIfInBounds f file') : w.Advances w' := by
  intro g old hold
  by_cases hg : f = g
  · subst hg
    obtain rfl : file = old := by simpa [hfile] using hold
    obtain ⟨hlt, -⟩ := Array.getElem?_eq_some_iff.1 hfile
    exact ⟨file', by simp [file?, hopened, Array.getElem?_setIfInBounds_self_of_lt hlt], h⟩
  · exact ⟨old, by rwa [file?, hopened, Array.getElem?_setIfInBounds_ne hg], .refl old⟩

theorem openPath {cwd : NodeId} {path : String} {mode : OpenMode} {f : FileId}
    (h : w.openPath cwd path mode = .ok (f, w')) : w.Advances w' := by
  cases mode with
  | read =>
    simp only [World.openPath] at h
    cases hlocate : w.files.locate cwd path with
    | error e => rw [hlocate] at h; cases h
    | ok i =>
      rw [hlocate] at h
      cases h
      exact add w _
  | write mode =>
    simp only [World.openPath] at h
    cases hopen : w.files.openWrite cwd path (mode = .truncate) with
    | error e => rw [hopen] at h; cases h
    | ok opened =>
      rw [hopen] at h
      cases h
      exact add { w with files := opened.2 } _

theorem makePipe (w : World) : w.Advances w.makePipe.2.2 :=
  (add { w with pipes := w.pipes.push [] } _).trans (add _ _)

theorem write {f : FileId} {bytes : Bytes} (h : w.write f bytes = .ok w') : w.Advances w' := by
  unfold World.write at h
  split at h
  · rename_i i mode offset hfile
    cases h
    exact set hfile ⟨_, rfl⟩ rfl
  · cases h
    exact of_opened rfl
  · cases h
    exact of_opened rfl
  · cases h
    exact of_opened rfl
  · cases h

theorem read {f : FileId} {count : Nat} {bytes : Bytes} (h : w.read f count = .ok (bytes, w')) :
    w.Advances w' := by
  unfold World.read at h
  split at h
  · rename_i i offset hfile
    cases hcontent : w.files.contentOf i with
    | error e => rw [hcontent] at h; cases h
    | ok content =>
      rw [hcontent] at h
      cases h
      exact set hfile ⟨_, Nat.le_add_right _ _, rfl⟩ rfl
  · cases h
    exact of_opened rfl
  · cases h

end Advances

end World

/-- The other processes leave the open files of the shell for what they are, and do not put back what
has been read. -/
structure Kernel.Advances {κ : Type u} (k : Kernel κ) : Prop where
  fork : ∀ image (system : World × κ), system.1.Advances (k.fork image system).2.1
  wait : ∀ table pid mode (system : World × κ), system.1.Advances (k.wait table pid mode system).2.1

/-! ## Waiting -/

/-- Every answer of a waiter keeps to a relation. -/
structure Waiter.Keeps {σ : Type u} (w : Waiter σ) (R : σ → σ → Prop) : Prop where
  refl : ∀ s, R s s
  trans : ∀ {a b c}, R a b → R b c → R a c
  wait : ∀ pid mode s, R s (w.wait pid mode s).2

namespace Waiter.Keeps

variable {σ : Type u} {w : Waiter σ} {R : σ → σ → Prop}

theorem settle (h : w.Keeps R) (mode : WaitMode) (c : Child) (s : σ) : R s (c.settle w mode s).2 := by
  induction c, s using Child.settle.induct w mode with
  | case1 c s hunsettled ih =>
    rw [Child.settle, dif_pos hunsettled]
    exact h.trans (h.wait c.pid mode s) ih
  | case2 c s hsettled =>
    rw [Child.settle, dif_neg hsettled]
    exact h.wait c.pid mode s

theorem pollEach (h : w.Keeps R) (mode : WaitMode) (cs : List Child) (s : σ) :
    R s (Job.pollEach w mode cs s).2 := by
  induction cs generalizing s with
  | nil => exact h.refl s
  | cons c cs ih =>
    have hpoll : R s (c.poll w mode s).2 := by
      unfold Child.poll
      split
      · exact h.refl s
      · exact h.settle mode c s
    exact h.trans hpoll (ih _)

theorem reapEach (h : w.Keeps R) (js : List Job) (s : σ) : R s (JobSet.reapEach w js s).2 := by
  induction js generalizing s with
  | nil => exact h.refl s
  | cons j js ih => exact h.trans (h.pollEach .look j.children s) (ih _)

end Waiter.Keeps

variable {κ : Type u} {k : Kernel κ}

theorem Kernel.Advances.keeps (hk : k.Advances) (table : DescriptorTable) :
    (k.waiter table).Keeps fun a b => a.1.Advances b.1 where
  refl _ := .refl _
  trans := .trans
  wait := hk.wait table

/-! ## Launching -/

namespace Host

variable {kernel : κ} {h h' : Host}

/-- What a host keeps, its table aside. -/
structure Advances (h h' : Host) : Prop where
  unread : h'.unread = h.unread
  world : h.world.Advances h'.world

theorem Advances.refl (h : Host) : h.Advances h := ⟨rfl, .refl _⟩

theorem Advances.trans {a b c : Host} (hab : a.Advances b) (hbc : b.Advances c) : a.Advances c :=
  ⟨hbc.unread.trans hab.unread, hab.world.trans hbc.world⟩

theorem openTarget_advances {target : Option (String × OpenMode)} {d : Option Descriptor}
    (hopen : h.openTarget k kernel target = .ok (d, h')) : h.Advances h' := by
  rcases openTarget_cases hopen with ⟨-, -, rfl⟩ | ⟨_, _, _, _, -, hpath, -, rfl⟩
  · exact .refl _
  · exact ⟨rfl, .openPath hpath⟩

theorem prepare_advances (k : Kernel κ) (kernel : κ) (h : Host) (stage : Stage) (first last : Bool) :
    h.Advances (h.prepare k kernel stage first last).2 := by
  rcases prepare_cases k kernel h stage first last with ⟨_, hready⟩ | ⟨_, _, _, hinput, hready⟩ |
    ⟨_, _, _, _, _, hinput, houtput, hready⟩
  · rw [hready]
    exact .refl h
  · rw [hready]
    exact (openTarget_advances hinput).trans ⟨rfl, .refl _⟩
  · rw [hready]
    exact (openTarget_advances hinput).trans (openTarget_advances houtput)

end Host

theorem Piped.advances {last : Bool} {h h' : Host} {reader writer : Option Descriptor}
    (hpiped : Piped last h reader writer h') : h.Advances h' := by
  cases last with
  | true =>
    obtain ⟨-, -, rfl⟩ := hpiped
    exact .refl _
  | false =>
    obtain ⟨r, w, -, -, hpipe⟩ := hpiped
    cases hpipe
    exact ⟨rfl, .makePipe _⟩

theorem forkStage_advances (hk : k.Advances) (shellName : String) (stage : Stage) (launch : Launch)
    (incoming reader writer : Option Descriptor) (h : Host) (kernel : κ) :
    h.Advances (forkStage k shellName stage launch incoming reader writer h kernel).host := by
  simp only [forkStage]
  generalize hanswer : k.fork _ (h.world, kernel) = answer
  have hworld : h.world.Advances answer.2.1 := by
    rw [← hanswer]
    exact hk.fork _ (h.world, kernel)
  obtain ⟨answer, world, kernel'⟩ := answer
  cases answer with
  | error e => exact ⟨rfl, hworld⟩
  | ok pid => exact ⟨rfl, hworld⟩

theorem launchStage_advances (hk : k.Advances) (shellName : String) (first last : Bool) (stage : Stage)
    (st : Standing κ) : st.host.Advances (launchStage k shellName first last stage st).host := by
  have hready := Host.prepare_advances k st.kernel st.host stage first last
  rcases launchStage_cases k shellName first last stage st with ⟨_, _, hprepare, h⟩ |
    ⟨launch, h₁, _, hprepare, -, -, h⟩ | ⟨launch, h₁, reader, writer, h₂, hprepare, hpiped, h⟩
  · rw [hprepare] at hready
    rw [h]
    exact hready.trans ⟨rfl, .refl _⟩
  · rw [hprepare] at hready
    rw [h]
    exact hready.trans ⟨rfl, .refl _⟩
  · rw [hprepare] at hready
    rw [h]
    exact (hready.trans hpiped.advances).trans
      (forkStage_advances hk shellName stage launch st.incoming reader writer h₂ st.kernel)

theorem launchFrom_advances (hk : k.Advances) (shellName : String) (first : Bool) (stages : List Stage)
    (st : Standing κ) : st.host.Advances (launchFrom k shellName first stages st).host := by
  induction stages generalizing first st with
  | nil => exact ⟨rfl, .refl _⟩
  | cons stage later ih =>
    have hstep := launchStage_advances hk shellName first later.isEmpty stage st
    rw [launchFrom]
    split
    · rename_i heq
      rwa [heq] at hstep
    · rename_i heq
      rw [heq] at hstep
      exact hstep.trans (ih false _)

/-! ## Executing -/

namespace Shell

/-- What a shell keeps while it executes a line. -/
structure Advances (s s' : Shell κ) : Prop where
  config : s'.config = s.config
  editor : s'.editor = s.editor
  table : s'.host.table = s.host.table
  host : s.host.Advances s'.host

/-- What a shell keeps while it launches nothing and waits for nothing. -/
structure Stays (s s' : Shell κ) : Prop extends Advances s s' where
  jobs : s'.jobs = s.jobs
  kernel : s'.kernel = s.kernel

/-- What a shell keeps while it prints and changes files, and nothing more. -/
structure Rests (s s' : Shell κ) : Prop extends Stays s s' where
  cwd : s'.host.cwd = s.host.cwd

variable {s s' : Shell κ} {o : Outcome} {again : Again κ} {R : Shell κ → Shell κ → Prop}

namespace Advances

theorem refl (s : Shell κ) : s.Advances s := ⟨rfl, rfl, rfl, .refl _⟩

theorem trans {a b c : Shell κ} (hab : a.Advances b) (hbc : b.Advances c) : a.Advances c :=
  ⟨hbc.config.trans hab.config, hbc.editor.trans hab.editor, hbc.table.trans hab.table, hab.host.trans hbc.host⟩

end Advances

theorem Stays.refl (s : Shell κ) : s.Stays s := ⟨.refl s, rfl, rfl⟩

theorem Stays.trans {a b c : Shell κ} (hab : a.Stays b) (hbc : b.Stays c) : a.Stays c :=
  ⟨hab.toAdvances.trans hbc.toAdvances, hbc.jobs.trans hab.jobs, hbc.kernel.trans hab.kernel⟩

namespace Rests

theorem refl (s : Shell κ) : s.Rests s := ⟨.refl s, rfl⟩

theorem trans {a b c : Shell κ} (hab : a.Rests b) (hbc : b.Rests c) : a.Rests c :=
  ⟨hab.toStays.trans hbc.toStays, hbc.cwd.trans hab.cwd⟩

theorem write (s : Shell κ) (d : Descriptor) (bytes : Bytes) :
    s.Rests { s with host := s.host.write d bytes } := by
  unfold Host.write
  split
  · exact .refl s
  · split
    · rename_i hwrite
      exact ⟨⟨⟨rfl, rfl, rfl, rfl, .write hwrite⟩, rfl, rfl⟩, rfl⟩
    · exact .refl s

theorem print (s : Shell κ) (line : String) : s.Rests (s.print line) := write s _ _

theorem emit (s : Shell κ) (line : String) : s.Rests (s.emit line) := by
  unfold Shell.emit
  split
  · exact write s _ _
  · exact ⟨⟨⟨rfl, rfl, rfl, .refl _⟩, rfl, rfl⟩, rfl⟩

theorem report (s : Shell κ) (message : String) : s.Rests (s.report message) := emit s _

theorem reportFor (s : Shell κ) (command message : String) : s.Rests (s.reportFor command message) :=
  report s _

theorem failOn (s : Shell κ) (command : String) (e : IoError) : s.Rests (s.failOn command e).2 :=
  reportFor s command e.message

theorem refuse (s : Shell κ) (line : String) (status : UInt8) : s.Rests (s.refuse line status).2 :=
  print s line

theorem withFiles (s : Shell κ) (files : FileTree) : s.Rests { s with host := s.host.withFiles files } :=
  ⟨⟨⟨rfl, rfl, rfl, rfl, .of_opened rfl⟩, rfl, rfl⟩, rfl⟩

end Rests

/-! ### Builtins -/

theorem changeDirectory_stays (s : Shell κ) (arguments : List String) :
    s.Stays (s.changeDirectory arguments).2 := by
  unfold changeDirectory
  split
  · exact .refl s
  · split
    · rename_i path _ _ host hchange
      unfold Host.changeDirectory at hchange
      split at hchange
      · cases hchange
      · cases hlocate : s.host.world.files.locateDirectory s.host.cwd path with
        | error e => rw [hlocate] at hchange; cases hchange
        | ok cwd =>
          rw [hlocate] at hchange
          cases hchange
          exact ⟨⟨rfl, rfl, rfl, rfl, .refl _⟩, rfl, rfl⟩
    · exact (Rests.reportFor s _ _).toStays

theorem printEach_rests {α : Type} (line : α → String) (xs : List α) (s : Shell κ) :
    s.Rests (xs.foldl (fun s x => s.print (line x)) s) := by
  induction xs generalizing s with
  | nil => exact .refl s
  | cons x xs ih => exact (Rests.print s (line x)).trans (ih _)

theorem listBookmarks_rests (s : Shell κ) : s.Rests s.listBookmarks.2 := by
  unfold listBookmarks
  split
  · exact .failOn s _ _
  · rename_i bs _
    have hprinted := printEach_rests (fun b : Bookmark => String.ofList b.record) bs s
    exact hprinted

theorem removeBookmark_rests (s : Shell κ) (index : Nat) : s.Rests (s.removeBookmark index).2 := by
  unfold removeBookmark
  split
  rename_i result files _
  dsimp only
  have hfiles := Rests.withFiles s files
  split
  · exact hfiles.trans (.failOn _ _ _)
  · exact hfiles
  · exact hfiles.trans (.refuse _ _ _)

theorem saveBookmark_rests (s : Shell κ) (command : String) : s.Rests (s.saveBookmark command).2 := by
  unfold saveBookmark
  split
  · exact .refuse s _ _
  · split
    · exact .failOn s _ _
    · exact .withFiles s _

theorem setShortcut_rests (s : Shell κ) (name : String) : s.Rests (s.setShortcut name).2 := by
  unfold setShortcut
  split
  · exact .refuse s _ _
  · split
    · exact .failOn s _ _
    · split
      · exact .failOn s _ _
      · exact (Rests.withFiles s _).trans (.print _ _)

/-- What a builtin comes to at once. -/
theorem Rests.of_some {r : Outcome × Shell κ} (h : some r = some (o, s')) (hr : s.Rests r.2) : s.Rests s' := by
  obtain rfl := Option.some.inj h
  exact hr

/-- What executing a bookmark may come to: nothing more than printing and changing files, or what its command
comes to. -/
theorem bookmark_cases {background : Bool} {request : Bookmarks.Request}
    (h : s.bookmark again background request = some (o, s')) : s.Rests s' ∨ ∃ index bs b,
      request = .replay (some index) ∧
      Bookmarks.load s.host.world.files s.host.cwd s.config.dataDir = .ok bs ∧ bs.find? (·.index = index) = some b ∧
      again (if background then (Pipeline.parse b.command).setBackground true else Pipeline.parse b.command) s =
        some (o, s') := by
  unfold bookmark at h
  split at h
  · exact .inl (.of_some h (.refuse s _ _))
  · exact .inl (.of_some h (listBookmarks_rests s))
  · exact .inl (.of_some h (.refuse s _ _))
  · exact .inl (.of_some h (removeBookmark_rests s _))
  · exact .inl (.of_some h (.refuse s _ _))
  · rename_i index
    unfold replayBookmark at h
    split at h
    · exact .inl (.of_some h (.failOn s _ _))
    · exact .inl (.of_some h (.refuse s _ _))
    · rename_i bs _ hload
      split at h
      · exact .inl (.of_some h (.refuse s _ _))
      · rename_i b hfind
        exact .inr ⟨index, bs, b, rfl, hload, hfind, h⟩
  · exact .inl (.of_some h (saveBookmark_rests s _))

theorem short_cases {background : Bool} {request : Shortcuts.Request}
    (h : s.short again background request = some (o, s')) : s.Rests s' ∨ ∃ name directory,
      request = .jump name ∧
      Shortcuts.lookup s.host.world.files s.host.cwd s.config.dataDir name = .ok (some directory) ∧
      again (.single { name := Builtin.cd.name, arguments := [directory], background }) s = some (o, s') := by
  unfold short at h
  split at h
  · exact .inl (.of_some h (.refuse s _ _))
  · exact .inl (.of_some h (setShortcut_rests s _))
  · rename_i name
    unfold jump at h
    split at h
    · exact .inl (.of_some h (.failOn s _ _))
    · exact .inl (.of_some h (.refuse s _ _))
    · rename_i directory hlookup
      exact .inr ⟨name, directory, rfl, hlookup, h⟩
  · exact .inl (.of_some h (.refuse s _ _))

theorem pingSweep_cases {background : Bool} {arguments : List String}
    (h : s.pingSweep again background arguments = some (o, s')) : s.Rests s' ∨ ∃ subnet hosts s₁,
      s.Rests s₁ ∧ pingEach again subnet background hosts 0 s₁ = some (o, s') := by
  unfold pingSweep at h
  split at h
  · split at h
    · exact .inl (.of_some h (.refuse s _ _))
    · dsimp only at h
      split at h
      · exact .inl (.of_some h (.report s _))
      · exact .inr ⟨_, _, _, .print s _, h⟩
  · exact .inl (.of_some h (.refuse s _ _))

/-- What every ping of a sweep keeps to, the sweep keeps to. -/
theorem pingEach_keeps (hrefl : ∀ s, R s s) (htrans : ∀ {a b c}, R a b → R b c → R a c) {subnet : String}
    {background : Bool}
    (hping : ∀ host s o s', again (.single { pingStage subnet host with background }) s = some (o, s') → R s s')
    (hosts : List Nat) (status : UInt8) (s : Shell κ)
    (h : pingEach again subnet background hosts status s = some (o, s')) : R s s' := by
  induction hosts generalizing status s with
  | nil =>
    obtain rfl : s = s' := congrArg Prod.snd (Option.some.inj h)
    exact hrefl s
  | cons host hosts ih =>
    unfold pingEach at h
    split at h
    · cases h
    · rename_i heq
      exact htrans (hping _ _ _ _ heq) (ih _ _ h)
    · rename_i heq
      exact htrans (hping _ _ _ _ heq) (ih _ _ h)
    · rename_i heq
      cases h
      exact hping _ _ _ _ heq

/-- A relation that a shell keeps to while it stays, and that goes on from step to step. -/
structure Framed (R : Shell κ → Shell κ → Prop) : Prop where
  stays : ∀ {s s'}, s.Stays s' → R s s'
  trans : ∀ {a b c}, R a b → R b c → R a c

/-- Executing other pipelines keeps to a relation. -/
def Keeps (R : Shell κ → Shell κ → Prop) (again : Again κ) : Prop :=
  ∀ p s o s', again p s = some (o, s') → R s s'

/-- A builtin keeps to what the shell keeps to while it stays and while it executes other pipelines. -/
theorem runBuiltin_keeps (hR : Framed R) (hagain : Keeps R again) {arguments : List String} {background : Bool}
    {b : Builtin} (h : s.runBuiltin again arguments background b = some (o, s')) : R s s' := by
  cases b with
  | bookmark =>
    rcases bookmark_cases h with hrests | ⟨_, _, _, -, -, -, hrun⟩
    · exact hR.stays hrests.toStays
    · exact hagain _ _ _ _ hrun
  | cd =>
    obtain rfl : (s.changeDirectory arguments).2 = s' := congrArg Prod.snd (Option.some.inj h)
    exact hR.stays (changeDirectory_stays s arguments)
  | exit =>
    obtain rfl : s = s' := congrArg Prod.snd (Option.some.inj h)
    exact hR.stays (.refl s)
  | pingsweep =>
    rcases pingSweep_cases h with hrests | ⟨_, _, _, hrests, hpings⟩
    · exact hR.stays hrests.toStays
    · exact hR.trans (hR.stays hrests.toStays)
        (pingEach_keeps (fun s => hR.stays (.refl s)) hR.trans (fun _ => hagain _) _ _ _ hpings)
  | short =>
    rcases short_cases h with hrests | ⟨_, _, -, -, hrun⟩
    · exact hR.stays hrests.toStays
    · exact hagain _ _ _ _ hrun

/-- An execution keeps to what the launch of every pipeline keeps to. -/
theorem executeWithin_keeps (hR : Framed R) (hstages : ∀ s p, R s (s.runStages k p).2) (depth : Nat) :
    Keeps R (executeWithin k depth) := by
  induction depth with
  | zero =>
    intro p s o s' h
    cases h
  | succ depth ih =>
    intro p s o s' h
    unfold executeWithin at h
    split at h
    · obtain rfl : s = s' := congrArg Prod.snd (Option.some.inj h)
      exact hR.stays (.refl s)
    · split at h
      · exact runBuiltin_keeps hR ih h
      · obtain rfl : (s.runStages k p).2 = s' := congrArg Prod.snd (Option.some.inj h)
        exact hstages s p

/-! ### Pipelines -/

theorem withLaunched_rests (s : Shell κ) (launched : Launched κ) :
    Rests { s with host := launched.host, kernel := launched.kernel } (s.withLaunched launched) := by
  unfold withLaunched
  dsimp only
  split
  · exact .refl _
  · exact .report _ _

theorem conclude_advances (hk : k.Advances) (background : Bool) {launched : Launched κ}
    (htable : launched.host.table = s.host.table) (hhost : s.host.Advances launched.host) :
    s.Advances (s.conclude k background launched).2 := by
  have htaken : s.Advances { s with host := launched.host, kernel := launched.kernel } :=
    ⟨rfl, rfl, htable, hhost⟩
  have hlaunched := htaken.trans (withLaunched_rests s launched).toAdvances
  unfold conclude
  dsimp only
  split
  · exact hlaunched
  · split
    · exact hlaunched.trans ⟨rfl, rfl, rfl, .refl _⟩
    · have hwait := (hk.keeps (s.withLaunched launched).host.table).pollEach .block launched.children
        (s.withLaunched launched).system
      exact hlaunched.trans ⟨rfl, rfl, rfl, rfl, hwait⟩

theorem runStages_advances (hk : k.Advances) (s : Shell κ) (p : Pipeline) : s.Advances (s.runStages k p).2 :=
  conclude_advances hk _ (launchFrom_table k s.config.name p.stages s.host s.kernel)
    (launchFrom_advances hk s.config.name true p.stages { host := s.host, kernel := s.kernel })

/-- Executing other pipelines keeps what it has to keep. -/
def Keeping (again : Again κ) : Prop := ∀ p s o s', again p s = some (o, s') → s.Advances s'

theorem executeWithin_advances (hk : k.Advances) (depth : Nat) : Keeping (executeWithin k depth) :=
  executeWithin_keeps ⟨Stays.toAdvances, .trans⟩ (runStages_advances hk) depth

/-- Executing a pipeline takes nothing back of the input, and leaves table and editor alone. -/
theorem execute_advances (hk : k.Advances) {p : Pipeline} (h : s.execute k p = some (o, s')) : s.Advances s' :=
  executeWithin_advances hk _ p s o s' h

theorem reap_advances (hk : k.Advances) (s : Shell κ) : s.Advances (s.reap k) := by
  have hpolled := (hk.keeps s.host.table).reapEach s.jobs.jobs s.system
  exact ⟨rfl, rfl, rfl, rfl, hpolled⟩

end Shell

end LineShell
