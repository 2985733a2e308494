import LineShell.Proofs.Shell.Aliases
import LineShell.Proofs.Shell.Children
import LineShell.Proofs.Shell.Kernels
import LineShell.Proofs.Shell.Nesting

/-!
# The working directory

A shell changes its directory by `cd` alone: by the command itself, by `short jump`, which executes it, or by the
replay of a bookmark whose command comes to one of these (`LeadsTo`). `executeNoting` counts the changes. Each
execution makes none of them, or makes one, does nothing else and succeeds (`executeNoting_cases`); by which of the
two, the first stage decides (`LeadsTo.moved`). `directory_changed` puts this together.
-/

namespace LineShell

variable {κ : Type u} {k : Kernel κ}

/-- Left running or not, a pipeline begins with the same name and arguments. -/
theorem Pipeline.head_left_running (p : Pipeline) (background : Bool) :
    (if background then p.setBackground true else p).head.name = p.head.name ∧
      (if background then p.setBackground true else p).head.arguments = p.head.arguments := by
  split
  · exact ⟨head_name_markLast _ _ _, head_arguments_markLast _ _ _⟩
  · exact ⟨rfl, rfl⟩

namespace Shell

theorem conclude_cwd (k : Kernel κ) (background : Bool) (launched : Launched κ) (s : Shell κ) :
    (s.conclude k background launched).2.host.cwd = launched.host.cwd := by
  have htaken := (withLaunched_rests s launched).cwd
  unfold conclude
  dsimp only
  split
  · exact htaken
  · split
    · exact htaken
    · exact htaken

theorem runStages_cwd (k : Kernel κ) (s : Shell κ) (p : Pipeline) : (s.runStages k p).2.host.cwd = s.host.cwd :=
  (conclude_cwd k _ _ s).trans (launchFrom_persists k _ _ _ _).cwd

/-! ## Where a command leads -/

/-- A command leads to a directory: it is `cd`, or a jump to an alias of it, or the replay of a bookmark whose command
leads there. -/
inductive LeadsTo (dataDir : String) (h : Host) : String → List String → String → Prop where
  | cd (path : String) (rest : List String) : LeadsTo dataDir h Builtin.cd.name (path :: rest) path
  | jump {name path : String} (rest : List String) :
      Shortcuts.lookup h.world.files h.cwd dataDir name = .ok (some path) →
      LeadsTo dataDir h Builtin.short.name ("jump" :: name :: rest) path
  | replay {text path : String} {index : Nat} {bs : List Bookmark} {b : Bookmark} (rest : List String) :
      Bookmark.readIndex? text.toList = some index →
      Bookmarks.load h.world.files h.cwd dataDir = .ok bs → bs.find? (·.index = index) = some b →
      LeadsTo dataDir h (Pipeline.parse b.command).head.name (Pipeline.parse b.command).head.arguments path →
      LeadsTo dataDir h Builtin.bookmark.name ("-i" :: text :: rest) path

theorem exists_replay {arguments : List String} {index : Nat}
    (h : Bookmarks.Request.ofArguments arguments = .replay (some index)) :
    ∃ text rest, arguments = "-i" :: text :: rest ∧ Bookmark.readIndex? text.toList = some index := by
  unfold Bookmarks.Request.ofArguments at h
  split at h
  · cases h
  · cases h
  · cases h
  · rename_i rest
    have hindex := Bookmarks.Request.replay.inj h
    cases rest with
    | nil => cases hindex
    | cons text rest => exact ⟨text, rest, rfl, hindex⟩
  · cases h

theorem exists_jump {arguments : List String} {name : String}
    (h : Shortcuts.Request.ofArguments arguments = .jump name) : ∃ rest, arguments = "jump" :: name :: rest := by
  unfold Shortcuts.Request.ofArguments at h
  split at h <;> cases h
  exact ⟨_, rfl⟩

/-! ## Counting the changes -/

/-- The shell, and the directories that were changed to. -/
def noting (paths : List String) (s : Shell κ) : Shell (κ × List String) := s.mapKernel (·, paths)

/-- The directory that `cd` changes to, if it can. -/
def changedTo? (s : Shell κ) (arguments : List String) : Option String :=
  arguments.head?.filter fun path => (s.host.changeDirectory path).isOk

/-- `cd`, with a note of a change. -/
def changeNoting (s : Shell (κ × List String)) (arguments : List String) : Outcome × Shell (κ × List String) :=
  onKernel (fun (kernel, paths) => (kernel, paths ++ (s.changedTo? arguments).toList)) (s.changeDirectory arguments)

/-- Executes a pipeline as `executeWithin` does, and notes all changes of the directory. -/
def executeNoting (k : Kernel κ) :
    Nat → Pipeline → Shell (κ × List String) → Option (Outcome × Shell (κ × List String))
  | 0, _, _ => none
  | depth + 1, p, s =>
    if p.head.name.toList.isEmpty then some (.done 0, s)
    else match Builtin.ofName? p.head.name with
      | some .cd => some (s.changeNoting p.head.arguments)
      | some b => s.runBuiltin (executeNoting k depth) p.head.arguments p.isBackground b
      | none => some (((s.mapKernel Prod.fst).runStages k p).map id (noting s.kernel.2))

variable {s s' : Shell (κ × List String)} {p : Pipeline} {depth : Nat} {o : Outcome} {path : String} {host : Host}

/-- The notes change nothing. -/
theorem executeNoting_follows (k : Kernel κ) (depth : Nat) :
    Follows Prod.fst (executeWithin k depth) (executeNoting k depth) := by
  induction depth with
  | zero => exact fun _ _ => rfl
  | succ depth ih =>
    intro p s
    rw [executeWithin, executeNoting]
    split
    · rfl
    · cases Builtin.ofName? p.head.name with
      | none => rfl
      | some b =>
        have hrun := runBuiltin_mapKernel ih s p.head.arguments p.isBackground b
        cases b with
        | cd => exact congrArg some (changeDirectory_mapKernel s p.head.arguments)
        | _ => exact hrun

theorem exists_noting {s s' : Shell κ} (h : executeWithin k depth p s = some (o, s')) :
    ∃ paths, executeNoting k depth p (s.noting []) = some (o, s'.noting paths) := by
  have hfollows := executeNoting_follows k depth p (s.noting [])
  rw [show (s.noting []).mapKernel Prod.fst = s from rfl, h] at hfollows
  obtain ⟨⟨o', n⟩, hrun, heq⟩ := Option.map_eq_some_iff.1 hfollows.symm
  cases heq
  exact ⟨n.kernel.2, hrun⟩

/-- The directory is what it was, and was not changed in between. -/
def Remains (s s' : Shell (κ × List String)) : Prop := s'.host.cwd = s.host.cwd ∧ s'.kernel.2 = s.kernel.2

/-- One change of the directory is all that was done. -/
structure Moved (s : Shell (κ × List String)) (path : String) (o : Outcome) (s' : Shell (κ × List String)) : Prop where
  changed : s.host.changeDirectory path = .ok s'.host
  done : o = .done 0
  rest : s' = { s with host := s'.host, kernel := (s.kernel.1, s.kernel.2 ++ [path]) }

theorem Remains.refl (s : Shell (κ × List String)) : Remains s s := ⟨rfl, rfl⟩

theorem Remains.trans {a b c : Shell (κ × List String)} (hab : Remains a b) (hbc : Remains b c) : Remains a c :=
  ⟨hbc.1.trans hab.1, hbc.2.trans hab.2⟩

theorem Rests.remains (h : s.Rests s') : Remains s s' := ⟨h.cwd, congrArg Prod.snd h.kernel⟩

/-! ## What an execution does to the directory -/

theorem changeNoting_ok (h : s.host.changeDirectory path = .ok host) (rest : List String) :
    s.changeNoting (path :: rest) = (.done 0, { s with host, kernel := (s.kernel.1, s.kernel.2 ++ [path]) }) := by
  simp [changeNoting, changeDirectory, changedTo?, onKernel, mapKernel, h, Except.isOk, Except.toBool]

theorem changeNoting_cases {arguments : List String} (h : s.changeNoting arguments = (o, s')) :
    Remains s s' ∨ ∃ path rest, arguments = path :: rest ∧ Moved s path o s' := by
  cases arguments with
  | nil =>
    cases h
    exact .inl ⟨rfl, List.append_nil _⟩
  | cons path rest =>
    cases hchange : s.host.changeDirectory path with
    | ok host =>
      rw [changeNoting_ok hchange] at h
      cases h
      exact .inr ⟨path, rest, rfl, hchange, rfl, rfl⟩
    | error e =>
      have hreported := Rests.reportFor s "cd" e.text
      simp only [changeNoting, changeDirectory, changedTo?, hchange, onKernel] at h
      cases h
      exact .inl ⟨hreported.cwd, by simp [mapKernel, hreported.kernel, hchange, Except.isOk, Except.toBool]⟩

/-- What is no builtin changes no directory. -/
theorem remains_of_stages (hb : Builtin.ofName? p.head.name = none) (h : executeNoting k depth p s = some (o, s')) :
    Remains s s' := by
  cases depth with
  | zero => cases h
  | succ depth =>
    rw [executeNoting, hb] at h
    split at h
    · cases h
      exact .refl _
    · cases h
      exact ⟨runStages_cwd k _ _, rfl⟩

theorem executeNoting_builtin {b : Builtin} (hb : Builtin.ofName? p.head.name = some b) (hcd : b ≠ .cd) :
    executeNoting k (depth + 1) p s =
      s.runBuiltin (executeNoting k depth) p.head.arguments p.isBackground b := by
  have hname := Builtin.toList_ne_nil hb
  rw [executeNoting, if_neg (by simpa using hname), hb]
  cases b with
  | cd => exact absurd rfl hcd
  | _ => rfl

theorem executeNoting_cd (hb : Builtin.ofName? p.head.name = some .cd) :
    executeNoting k (depth + 1) p s = some (s.changeNoting p.head.arguments) := by
  have hname := Builtin.toList_ne_nil hb
  rw [executeNoting, if_neg (by simpa using hname), hb]

theorem LeadsTo.of_cd {dataDir name : String} {arguments : List String} (h : LeadsTo dataDir host name arguments path)
    (hname : name = Builtin.cd.name) : ∃ rest, arguments = path :: rest := by
  cases h with
  | cd path rest => exact ⟨rest, rfl⟩
  | jump => exact absurd hname (by decide)
  | replay => exact absurd hname (by decide)

/-- An execution changes no directory, or its command leads to one, and changing to it is all that was done. -/
theorem executeNoting_cases (h : executeNoting k depth p s = some (o, s')) : Remains s s' ∨
    ∃ path, LeadsTo s.config.dataDir s.host p.head.name p.head.arguments path ∧ Moved s path o s' := by
  -- on the depth: a builtin executes other pipelines one level less deep, in the same shell
  induction depth generalizing p s with
  | zero => cases h
  | succ depth ih =>
    cases hb : Builtin.ofName? p.head.name with
    | none => exact .inl (remains_of_stages hb h)
    | some b =>
      have hname := Builtin.ofName?_eq_some hb
      cases b with
      | cd =>
        rw [executeNoting_cd hb] at h
        rcases changeNoting_cases (Option.some.inj h) with hremains | ⟨path, rest, harguments, hmoved⟩
        · exact .inl hremains
        · exact .inr ⟨path, hname ▸ harguments ▸ .cd path rest, hmoved⟩
      | exit =>
        rw [executeNoting_builtin hb (by decide)] at h
        cases h
        exact .inl (.refl _)
      | bookmark =>
        rw [executeNoting_builtin hb (by decide)] at h
        rcases bookmark_cases h with hrests | ⟨index, bs, b, hrequest, hload, hfind, hrun⟩
        · exact .inl hrests.remains
        · obtain ⟨text, rest, harguments, hindex⟩ := exists_replay hrequest
          rcases ih hrun with hremains | ⟨path, hleads, hmoved⟩
          · exact .inl hremains
          · obtain ⟨hparsed, hparsed'⟩ := (Pipeline.parse b.command).head_left_running p.isBackground
            rw [hparsed, hparsed'] at hleads
            exact .inr ⟨path, hname ▸ harguments ▸ .replay rest hindex hload hfind hleads, hmoved⟩
      | short =>
        rw [executeNoting_builtin hb (by decide)] at h
        rcases short_cases h with hrests | ⟨name, directory, hrequest, hlookup, hrun⟩
        · exact .inl hrests.remains
        · obtain ⟨rest, harguments⟩ := exists_jump hrequest
          rcases ih hrun with hremains | ⟨path, hleads, hmoved⟩
          · exact .inl hremains
          · obtain ⟨_, hpath⟩ := hleads.of_cd rfl
            cases hpath
            exact .inr ⟨directory, hname ▸ harguments ▸ .jump rest hlookup, hmoved⟩
      | pingsweep =>
        rw [executeNoting_builtin hb (by decide)] at h
        rcases pingSweep_cases h with hrests | ⟨subnet, hosts, s₁, hrests, hpings⟩
        · exact .inl hrests.remains
        · have hping : ∀ target s o s', executeNoting k depth
              (.single { pingStage subnet target with background := p.isBackground }) s = some (o, s') →
              Remains s s' := fun _ _ _ _ => remains_of_stages (by rfl)
          exact .inl (hrests.remains.trans (pingEach_keeps .refl .trans hping hosts 0 s₁ hpings))

theorem moved_of_cd {rest : List String} (hok : s.host.changeDirectory path = .ok host)
    (hname : p.head.name = Builtin.cd.name) (harguments : p.head.arguments = path :: rest)
    (h : executeNoting k depth p s = some (o, s')) : Moved s path o s' := by
  cases depth with
  | zero => cases h
  | succ depth =>
    rw [executeNoting_cd (by rw [hname]; rfl), harguments, changeNoting_ok hok] at h
    cases h
    exact ⟨hok, rfl, rfl⟩

/-- What leads to a directory that can be changed to changes to it. -/
theorem LeadsTo.moved {name : String} {arguments : List String}
    (hleads : LeadsTo s.config.dataDir s.host name arguments path) (hok : s.host.changeDirectory path = .ok host)
    (hname : p.head.name = name) (harguments : p.head.arguments = arguments)
    (h : executeNoting k depth p s = some (o, s')) : Moved s path o s' := by
  induction hleads generalizing depth p with
  | cd path rest => exact moved_of_cd hok hname harguments h
  | @jump name path rest hlookup =>
    cases depth with
    | zero => cases h
    | succ depth =>
      rw [executeNoting_builtin (b := .short) (by rw [hname]; rfl) (by decide), harguments, runBuiltin,
        Shortcuts.Request.ofArguments, Shell.short, Shell.jump, hlookup] at h
      exact moved_of_cd hok rfl rfl h
  | @replay text path index bs b rest hindex hload hfind hleads ih =>
    cases depth with
    | zero => cases h
    | succ depth =>
      have hrequest : Bookmarks.Request.ofArguments ("-i" :: text :: rest) = .replay (some index) :=
        congrArg Bookmarks.Request.replay hindex
      rw [executeNoting_builtin (b := .bookmark) (by rw [hname]; rfl) (by decide), harguments, runBuiltin, hrequest,
        bookmark, replayBookmark, hload] at h
      cases bs with
      | nil => cases hfind
      | cons first bs =>
        simp only [hfind] at h
        obtain ⟨hparsed, hparsed'⟩ := (Pipeline.parse b.command).head_left_running p.isBackground
        exact ih hok hparsed hparsed' h

/-- The first stage decides which directory an execution ends in. -/
theorem cwd_eq_of_head {p' : Pipeline} {depth' : Nat} {o' : Outcome} {s'' : Shell (κ × List String)}
    (hname : p'.head.name = p.head.name) (harguments : p'.head.arguments = p.head.arguments)
    (h : executeNoting k depth p s = some (o, s')) (h' : executeNoting k depth' p' s = some (o', s'')) :
    s''.host.cwd = s'.host.cwd := by
  rcases executeNoting_cases h with hremains | ⟨path, hleads, hmoved⟩
  · rcases executeNoting_cases h' with hremains' | ⟨path, hleads', hmoved'⟩
    · exact hremains'.1.trans hremains.1.symm
    · have hmoved := hleads'.moved hmoved'.changed hname.symm harguments.symm h
      rw [Except.ok.inj (hmoved'.changed.symm.trans hmoved.changed)]
  · have hmoved' := hleads.moved hmoved.changed hname harguments h'
    rw [Except.ok.inj (hmoved'.changed.symm.trans hmoved.changed)]

/-- **The working directory changes only on success.** This is about executions at any depth, and so about `execute`.
Unless an execution comes to success, the directory is what it was, and was not changed in between. If the directory is
another one, the command leads there: it is `cd`, `short jump`, or `bookmark -i` of a command that leads there; one
change of the directory succeeded, and nothing else was done, so that no process was forked and nothing was waited for.
What leads nowhere changes no directory: commands that are launched, sweeps, and whatever else builtins are asked for.
Redirects, later stages and being left running make no difference: name and arguments of the first stage decide. -/
theorem directory_changed {s s' : Shell (κ × List Event)} (h : executeWithin k.recording depth p s = some (o, s')) :
    ∃ paths, executeNoting k.recording depth p (s.noting []) = some (o, s'.noting paths) ∧
      (o ≠ .done 0 → s'.host.cwd = s.host.cwd ∧ paths = []) ∧
      (s'.host.cwd ≠ s.host.cwd → ∃ path,
        LeadsTo s.config.dataDir s.host p.head.name p.head.arguments path ∧ paths = [path] ∧
        s.host.changeDirectory path = .ok s'.host ∧ s' = { s with host := s'.host }) ∧
      ((∀ path, ¬ LeadsTo s.config.dataDir s.host p.head.name p.head.arguments path) →
        s'.host.cwd = s.host.cwd ∧ paths = []) ∧
      ∀ p' depth' o' s'', p'.head.name = p.head.name → p'.head.arguments = p.head.arguments →
        executeWithin k.recording depth' p' s = some (o', s'') → s''.host.cwd = s'.host.cwd := by
  obtain ⟨paths, hrun⟩ := exists_noting h
  have hsame : ∀ p' depth' o' s'', p'.head.name = p.head.name → p'.head.arguments = p.head.arguments →
      executeWithin k.recording depth' p' s = some (o', s'') → s''.host.cwd = s'.host.cwd := by
    intro p' depth' o' s'' hname harguments h'
    obtain ⟨paths', hrun'⟩ := exists_noting h'
    exact cwd_eq_of_head hname harguments hrun hrun'
  rcases executeNoting_cases hrun with ⟨hcwd, hpaths⟩ | ⟨path, hleads, hchanged, hdone, hrest⟩
  · exact ⟨paths, hrun, fun _ => ⟨hcwd, hpaths⟩, fun hmoved => absurd hcwd hmoved, fun _ => ⟨hcwd, hpaths⟩, hsame⟩
  · have hpaths : paths = [path] := congrArg (fun s => s.kernel.2) hrest
    have hshell : s' = { s with host := s'.host } := congrArg (mapKernel Prod.fst) hrest
    exact ⟨paths, hrun, fun hfailed => absurd hdone hfailed, fun _ => ⟨path, hleads, hpaths, hchanged, hshell⟩,
      fun hnowhere => absurd hleads (hnowhere path), hsame⟩

/-- A shell whose bookmark goes to a shortcut of a directory. -/
def besideDirectory : Shell (Machine × List Event) :=
  .start { name := "sh", dataDir := "/" } .shown
    (.start { nodes := #[.directory FileTree.root [("shorttxt", 1), ("bookmarktxt", 2), ("b", 3)],
        .file (Utf8.ofString "d:/b\n") FileTree.newFileMode,
        .file (Utf8.ofString "0 \"short jump d\"\n") FileTree.newFileMode, .directory FileTree.root []] }
      FileTree.root FileTree.root []) ({}, [])

/-- The bookmark is replayed, with a redirect and a later stage that count for nothing. -/
theorem directory_changed_replay :
    ∃ s' path, executeWithin (Machine.kernel fun _ => none).recording 3
        (Pipeline.parse "bookmark -i 0 > out | wc &") besideDirectory = some (.done 0, s') ∧
      s'.host.cwd = 3 ∧
      executeNoting (Machine.kernel fun _ => none).recording 3
        (Pipeline.parse "bookmark -i 0 > out | wc &") (besideDirectory.noting []) = some (.done 0, s'.noting [path]) ∧
      LeadsTo "/" besideDirectory.host "bookmark" ["-i", "0"] path ∧ s' = { besideDirectory with host := s'.host } := by
  have hcomes : (executeWithin (Machine.kernel fun _ => none).recording 3
      (Pipeline.parse "bookmark -i 0 > out | wc &") besideDirectory).map (fun r => (r.1, r.2.host.cwd)) =
      some (.done 0, 3) := by decide +kernel
  obtain ⟨⟨o, s'⟩, hrun, heq⟩ := Option.map_eq_some_iff.1 hcomes
  obtain ⟨rfl, hcwd⟩ := Prod.mk.inj heq
  obtain ⟨paths, hnoting, -, hmoved, -, -⟩ := directory_changed hrun
  obtain ⟨path, hleads, rfl, -, hshell⟩ := hmoved (by rw [show s'.host.cwd = 3 from hcwd]; decide)
  have hname : (Pipeline.parse "bookmark -i 0 > out | wc &").head.name = "bookmark" := by decide +kernel
  have harguments : (Pipeline.parse "bookmark -i 0 > out | wc &").head.arguments = ["-i", "0"] := by decide +kernel
  rw [hname, harguments] at hleads
  exact ⟨s', path, hrun, hcwd, hnoting, hleads, hshell⟩

end Shell

end LineShell
