import LineShell.Proofs.Store.Shortcuts
import LineShell.Proofs.Shell.Printing

/-!
# Aliases of a shell

What a shell knows of its aliases is what `short set` has put into the store, from whatever working
directories (`Sets.aliases`). Every look-up is answered, by the lines of the store; the answer is the first
working directory that an alias was set in, at any time, exactly if all records are legible where they
stand (`first_alias_wins_iff`). A working directory may well have a newline in its path.
-/

namespace LineShell

variable {t : FileTree} {cwd cwd' : NodeId} {path : String} {x : Option (List Char)}

theorem FileTree.resolve_of_absolute (h : path.toList.head? = some '/') :
    t.resolve cwd path = t.resolve cwd' path := by
  simp [resolve, Path.ofString, h]

/-- A store with an absolute path is the same from everywhere. -/
theorem Store.Holds.of_absolute (h : path.toList.head? = some '/') (hholds : Store.Holds t cwd path x) :
    Store.Holds t cwd' path x := by
  have hlocate : t.locate cwd' path = t.locate cwd path := by
    rw [FileTree.locate, FileTree.locate, FileTree.resolve_of_absolute h]
  cases x with
  | none =>
    refine ⟨hholds.1, ?_⟩
    rw [FileTree.readFile, hlocate]
    exact hholds.2
  | some text =>
    obtain ⟨hnul, i, mode, hi, hfile⟩ := hholds
    exact ⟨hnul, i, mode, hlocate.trans hi, hfile⟩

theorem Host.changeDirectory_eq_ok {h h' : Host} (hcd : h.changeDirectory path = .ok h') :
    ∃ cwd, h' = { h with cwd } := by
  unfold Host.changeDirectory at hcd
  split at hcd
  · cases hcd
  · cases hlocate : h.world.files.locateDirectory h.cwd path with
    | error e => simp [hlocate, Except.map] at hcd
    | ok cwd =>
      simp only [hlocate, Except.map, Except.ok.injEq] at hcd
      exact ⟨cwd, hcd.symm⟩

namespace Shell

variable {κ : Type u} {again : Again κ} {s₀ s s' : Shell κ} {name directory : String}
  {sets before : List (String × String)}

/-- What the store of shortcuts of a shell holds. -/
def Aliases (s : Shell κ) (x : Option (List Char)) : Prop :=
  Store.Holds s.host.world.files s.host.cwd (Shortcuts.path s.config.dataDir) x

/-- The directory that a shell finds for an alias. -/
def aliasOf (s : Shell κ) (name : String) : Except IoError (Option String) :=
  Shortcuts.lookup s.host.world.files s.host.cwd s.config.dataDir name

/-- What the shell has printed did not go to the store of shortcuts. -/
def AliasesAside (s : Shell κ) : Prop := ∀ s₀ x, Printed s₀ s → s₀.Aliases x → s.Aliases x

theorem OnStreams.aliasesAside (h : s.OnStreams) : s.AliasesAside := fun s₀ x hprinted hx => by
  have hsame := (h.of_printed hprinted).2
  rwa [Aliases, hsame.files, hsame.cwd, hsame.config]

/-- What a shell comes to by setting aliases, each in the working directory of the moment. In between it may do
whatever it likes, and go wherever it likes, as long as the store of shortcuts is left alone; what it prints
does not go there either. -/
inductive Sets (again : Again κ) (s₀ : Shell κ) : List (String × String) → Shell κ → Prop where
  | start : Sets again s₀ [] s₀
  | set {sets : List (String × String)} {s s' : Shell κ} {name directory : String} {rest : List String}
      {background : Bool} :
      Sets again s₀ sets s → s.host.workingDirectory = .ok directory →
      s.runBuiltin again ("set" :: name :: rest) background .short = some (.done 0, s') → s'.AliasesAside →
      Sets again s₀ (sets ++ [(name, directory)]) s'
  | elsewhere {sets : List (String × String)} {s s' : Shell κ} :
      Sets again s₀ sets s → (∀ x, s.Aliases x → s'.Aliases x) → Sets again s₀ sets s'

/-- What is set without a complaint is an alias, and its record is in the store. -/
theorem setShortcut_done (h : s.setShortcut name = (.done 0, s'))
    (hdirectory : s.host.workingDirectory = .ok directory) :
    Shortcuts.isAlias name = true ∧ ∃ files,
      Store.addLine s.host.world.files s.host.cwd (Shortcuts.path s.config.dataDir)
        (Shortcuts.record name directory) = .ok files ∧
      s' = { s with host := s.host.withFiles files }.print
        (String.ofList (Shortcuts.record name directory) ++ " set") := by
  unfold setShortcut at h
  split at h
  · simp [refuse] at h
  · next halias =>
    refine ⟨by simpa using halias, ?_⟩
    rw [hdirectory] at h
    simp only [Shortcuts.set, bind, Except.bind] at h
    cases hadd : Store.addLine s.host.world.files s.host.cwd (Shortcuts.path s.config.dataDir)
        (Shortcuts.record name directory) with
    | error e => simp [hadd, failOn] at h
    | ok files =>
      simp only [hadd, Prod.mk.injEq, true_and] at h
      exact ⟨files, rfl, h.symm⟩

theorem Aliases.setShortcut (hx : s.Aliases x) (h : s.setShortcut name = (.done 0, s'))
    (hdirectory : s.host.workingDirectory = .ok directory) (haside : s'.AliasesAside) :
    ':' ∉ name.toList ∧ s'.Aliases (some (x.getD [] ++ (Shortcuts.record name directory ++ ['\n']))) := by
  obtain ⟨halias, files, hadd, rfl⟩ := setShortcut_done h hdirectory
  refine ⟨fun hcolon => by simp [Shortcuts.isAlias, hcolon] at halias, ?_⟩
  exact haside _ _ ((Printed.refl _).print _) (hx.addLine hadd).1

/-- The store holds the records of the aliases that were set, one behind the other. -/
theorem Sets.aliases (h : Sets again s₀ sets s) (hstart : s₀.Aliases none) :
    (∀ p ∈ sets, ':' ∉ p.1.toList) ∧ ∃ x, s.Aliases x ∧ x.getD [] = Shortcuts.toText sets := by
  induction h with
  | start => exact ⟨by simp, none, hstart, rfl⟩
  | @set sets s s' name directory rest background _ hdirectory hrun haside ih =>
    obtain ⟨hcolon, x, hx, htext⟩ := ih
    obtain ⟨hname, hx'⟩ := hx.setShortcut (Option.some.inj hrun) hdirectory haside
    refine ⟨?_, _, hx', ?_⟩
    · intro p hp
      rcases List.mem_append.1 hp with hp | hp
      · exact hcolon p hp
      · rwa [List.mem_singleton.1 hp]
    · rw [Option.getD_some, htext, Shortcuts.toText_concat]
  | elsewhere _ hkeeps ih =>
    obtain ⟨hcolon, x, hx, htext⟩ := ih
    exact ⟨hcolon, x, hkeeps x hx, htext⟩

theorem Sets.aliasOf (h : Sets again s₀ sets s) (hstart : s₀.Aliases none) (name : String) :
    s.aliasOf name = .ok (Shortcuts.find? (Shortcuts.toText sets) name) := by
  obtain ⟨-, x, hx, htext⟩ := h.aliases hstart
  rw [Shell.aliasOf, Shortcuts.lookup_eq hx, htext]

/-- Whoever has set some aliases had set the first of them before. -/
theorem Sets.exists_prefix (h : Sets again s₀ sets s) (hbefore : before <+: sets) : ∃ s', Sets again s₀ before s' := by
  induction h with
  | start => exact ⟨s₀, List.prefix_nil.1 hbefore ▸ .start⟩
  | set hsets hdirectory hrun haside ih =>
    rcases List.prefix_concat_iff.1 hbefore with rfl | hshorter
    · exact ⟨_, hsets.set hdirectory hrun haside⟩
    · exact ih hshorter
  | elsewhere _ _ ih => exact ih hbefore

/-- With a data directory that is found from everywhere, a shell may go everywhere. -/
theorem Sets.changeDirectory (h : Sets again s₀ sets s)
    (habsolute : (Shortcuts.path s.config.dataDir).toList.head? = some '/') {target : String} {rest : List String}
    {background : Bool} (hrun : s.runBuiltin again (target :: rest) background .cd = some (.done 0, s')) :
    Sets again s₀ sets s' := by
  refine h.elsewhere fun x hx => ?_
  simp only [runBuiltin, Shell.changeDirectory, Option.some.injEq] at hrun
  split at hrun
  · next host hhost =>
    cases hrun
    obtain ⟨cwd', rfl⟩ := Host.changeDirectory_eq_ok hhost
    exact hx.of_absolute habsolute
  · simp at hrun

/-- **The first directory of an alias counts, if all records are legible.** The store is not there at first,
and aliases are set in any working directories without a failure. Then every look-up is answered by the
lines of the store. At all moments the answer is the working directory that the alias was set in first, or none
if nobody has set it, if and only if every record is legible where it stands (`Shortcuts.Legible`). This is so
when no alias and no directory has a newline, and no directory ends in a carriage return. -/
theorem first_alias_wins_iff (hstart : s₀.Aliases none) (h : Sets again s₀ sets s) :
    (∀ name, s.aliasOf name = .ok (Shortcuts.find? (Shortcuts.toText sets) name)) ∧
    ((∀ before s', before <+: sets → Sets again s₀ before s' →
        ∀ name, s'.aliasOf name = .ok (before.lookup name)) ↔
      ∀ before p, before ++ [p] <+: sets → Shortcuts.Legible (before.map Prod.fst) p.1 p.2) ∧
    ((∀ p ∈ sets, '\n' ∉ p.1.toList ∧ '\n' ∉ p.2.toList ∧ p.2.toList.getLast? ≠ some '\r') →
      ∀ name, s.aliasOf name = .ok (sets.lookup name)) := by
  obtain ⟨hcolon, -⟩ := h.aliases hstart
  have hmoments : (∀ before s', before <+: sets → Sets again s₀ before s' →
      ∀ name, s'.aliasOf name = .ok (before.lookup name)) ↔ ∀ before, before <+: sets → Shortcuts.FirstWins before := by
    constructor
    · intro hanswers before hbefore name
      obtain ⟨s', hs'⟩ := h.exists_prefix hbefore
      exact Except.ok.inj ((hs'.aliasOf hstart name).symm.trans (hanswers before s' hbefore hs' name))
    · intro hwins before s' hbefore hs' name
      rw [hs'.aliasOf hstart, hwins before hbefore name]
  have hiff := hmoments.trans (Shortcuts.firstWins_iff hcolon)
  refine ⟨h.aliasOf hstart, hiff, fun hplain => hiff.2 (fun before p hbefore => ?_) sets s (List.prefix_refl _) h⟩
  have hp : p ∈ sets := hbefore.subset (List.mem_append_right _ List.mem_cons_self)
  obtain ⟨hname, hdirectory, hreturn⟩ := hplain p hp
  exact Shortcuts.legible_of_newline_not_mem (hcolon p hp) hname hdirectory hreturn

/-- A shell beside a directory with a newline in its name. -/
def besideNewline : Shell Unit :=
  start { name := "sh", dataDir := "/" } .shown
    (.start ⟨#[.directory 0 [("a\nb:c", 1)], .directory 0 []]⟩ FileTree.root FileTree.root []) ()

/-- The same shell, in that directory. -/
def insideNewline : Shell Unit := (besideNewline.changeDirectory ["a\nb:c"]).2

/-- A record in two lines: the alias has another directory then, and there is an alias that nobody has set. -/
theorem first_alias_wins_iff_newline :
    besideNewline.Aliases none ∧
    Sets (fun _ _ => none) besideNewline [("x", "/a\nb:c")] (insideNewline.setShortcut "x").2 ∧
    (insideNewline.setShortcut "x").2.aliasOf "x" = .ok (some "/a") ∧
    (insideNewline.setShortcut "x").2.aliasOf "b" = .ok (some "c") ∧
    ¬∀ before s', before <+: [("x", "/a\nb:c")] → Sets (fun _ _ => none) besideNewline before s' →
      ∀ name, s'.aliasOf name = .ok (before.lookup name) := by
  have hstart : besideNewline.Aliases none := ⟨by decide +kernel, by decide +kernel⟩
  have hcd : besideNewline.runBuiltin (fun _ _ => none) ["a\nb:c"] false .cd = some (.done 0, insideNewline) :=
    congrArg some (Prod.ext (by decide +kernel) rfl)
  have hdirectory : insideNewline.host.workingDirectory = .ok "/a\nb:c" := by decide +kernel
  have hset : insideNewline.runBuiltin (fun _ _ => none) ["set", "x"] false .short =
      some (.done 0, (insideNewline.setShortcut "x").2) :=
    congrArg some (Prod.ext (by decide +kernel) rfl)
  have hstreams : (insideNewline.setShortcut "x").2.OnStreams := by
    simp only [OnStreams, List.forall_mem_cons, List.not_mem_nil, false_imp_iff, implies_true, and_true]
    refine ⟨fun f hf => ?_, fun f hf => ?_⟩
    · obtain rfl : f = 1 := (Option.some.inj hf).symm
      exact ⟨.output, by decide +kernel, .inl rfl⟩
    · obtain rfl : f = 2 := (Option.some.inj hf).symm
      exact ⟨.error, by decide +kernel, .inr rfl⟩
  have hsets : Sets (fun _ _ => none) besideNewline [("x", "/a\nb:c")] (insideNewline.setShortcut "x").2 :=
    (Sets.start.changeDirectory (by decide +kernel) hcd).set hdirectory hset hstreams.aliasesAside
  obtain ⟨hanswers, hiff, -⟩ := first_alias_wins_iff hstart hsets
  refine ⟨hstart, hsets, ?_, ?_, fun hwins => ?_⟩
  · rw [hanswers]
    decide +kernel
  · rw [hanswers]
    decide +kernel
  · -- the only record stands in two lines
    have hlegible := hiff.1 hwins [] ("x", "/a\nb:c") (List.prefix_refl _)
    exact absurd hlegible.2.1 (by decide)

end Shell

end LineShell
