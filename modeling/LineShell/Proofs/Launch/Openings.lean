import LineShell.Proofs.Descriptor
import LineShell.Proofs.Files.Sound
import LineShell.Proofs.Launch.Steps

/-!
# The files that a launch opens

`Stage.Opens` says which files are opened for a stage before it is forked: the input of the first stage, the output of
the last one, and a pipe behind every other. This is all that a stage does to the world that the kernel is given
(`launchStage_forked`), and of a stage that is not ready nothing is left but an open file that nobody holds
(`launchStage_failed`). Only opening an output changes the tree. `launch_opens` says what follows for a whole pipeline,
whose inner redirects count for nothing (`launchFrom_congr`).
-/

namespace LineShell

variable {κ : Type u} {k : Kernel κ} {shellName : String}

/-! ## Opening a file -/

/-- The file of an output is node `i`: it is created if there is none, and emptied if it is not appended to. -/
def FileTree.OpensOutput (t : FileTree) (cwd : NodeId) (o : Output) (i : NodeId) (t' : FileTree) : Prop :=
  ∃ spot name, t.resolve cwd o.target = .ok spot ∧ spot.name = some name ∧
    match spot.node, o.mode with
    | none, _ => (i, t') = t.add spot.directory name (.file [] newFileMode)
    | some j, .truncate => i = j ∧ t' = t.setContent j []
    | some j, .append => i = j ∧ t' = t

theorem FileTree.openWrite_opens {t t' : FileTree} {cwd i : NodeId} {o : Output}
    (h : t.openWrite cwd o.target (o.mode = .truncate) = .ok (i, t')) : t.OpensOutput cwd o i t' := by
  unfold openWrite at h
  obtain ⟨spot, hspot, h⟩ := exists_of_bind h
  split at h
  · cases h
  rename_i name hname
  refine ⟨spot, name, hspot, hname, ?_⟩
  split at h
  · cases h
  split at h
  · rename_i hnode
    rw [hnode]
    split at h
    · exact (Except.ok.inj h).symm
    · cases h
  · rename_i j hnode
    rw [hnode]
    split at h
    · cases h
    · cases h
    · cases h
      cases o.mode <;> exact ⟨rfl, rfl⟩

/-- What happens to the tree when the file of an output is opened, if there is one. -/
def FileTree.TakesOutput (t : FileTree) (cwd : NodeId) (output : Option Output) (t' : FileTree) : Prop :=
  match output with
  | none => t' = t
  | some o => ∃ i, t.OpensOutput cwd o i t'

namespace World

/-- An input is opened, if there is one: at its beginning, and the tree is as it was. -/
def OpensInput (w : World) (cwd : NodeId) (input : Option String) (f : Option FileId) (w' : World) : Prop :=
  match input with
  | none => f = none ∧ w' = w
  | some path => ∃ i, w.files.locate cwd path = .ok i ∧ f = some w.opened.size ∧
      w' = { w with opened := w.opened.push (.node i .read 0) }

/-- An output is opened, if there is one. -/
def OpensOutput (w : World) (cwd : NodeId) (output : Option Output) (f : Option FileId) (w' : World) : Prop :=
  match output with
  | none => f = none ∧ w' = w
  | some o => ∃ i files, w.files.OpensOutput cwd o i files ∧ f = some w.opened.size ∧
      w' = { w with files, opened := w.opened.push (.node i (.write o.mode) 0) }

/-- Both ends of a new pipe are opened, unless the stage is the last one. -/
def OpensPipe (w : World) (last : Bool) (reader writer : Option FileId) (w' : World) : Prop :=
  match last with
  | true => reader = none ∧ writer = none ∧ w' = w
  | false => reader = some w.opened.size ∧ writer = some (w.opened.size + 1) ∧
      w' = { w with opened := (w.opened.push (.reader w.pipes.size)).push (.writer w.pipes.size)
                    pipes := w.pipes.push [] }

/-- At most one more file is open, which is read from; nothing else is different. -/
def Spared (w w' : World) : Prop := w' = w ∨ ∃ i, w' = { w with opened := w.opened.push (.node i .read 0) }

theorem Spared.files {w w' : World} (h : w.Spared w') : w'.files = w.files := by
  obtain rfl | ⟨_, rfl⟩ := h <;> rfl

theorem Spared.err {w w' : World} (h : w.Spared w') : w'.err = w.err := by
  obtain rfl | ⟨_, rfl⟩ := h <;> rfl

theorem Spared.file? {w w' : World} {f : FileId} {o : OpenFile} (h : w.Spared w') (hopen : w.file? f = some o) :
    w'.file? f = some o := by
  obtain rfl | ⟨_, rfl⟩ := h
  · exact hopen
  · have hlt := (Array.getElem?_eq_some_iff.1 hopen).1
    rwa [World.file?, Array.getElem?_push, if_neg (Nat.ne_of_lt hlt)]

theorem OpensInput.spared {w w' : World} {cwd : NodeId} {input : Option String} {f : Option FileId}
    (h : w.OpensInput cwd input f w') : w.Spared w' := by
  cases input with
  | none => exact .inl h.2
  | some path =>
    obtain ⟨i, -, -, rfl⟩ := h
    exact .inr ⟨i, rfl⟩

theorem OpensOutput.files {w w' : World} {cwd : NodeId} {output : Option Output} {f : Option FileId}
    (h : w.OpensOutput cwd output f w') : w.files.TakesOutput cwd output w'.files := by
  cases output with
  | none =>
    obtain ⟨-, rfl⟩ := h
    rfl
  | some o =>
    obtain ⟨i, files, hopens, -, rfl⟩ := h
    exact ⟨i, hopens⟩

theorem OpensPipe.files {w w' : World} {last : Bool} {reader writer : Option FileId}
    (h : w.OpensPipe last reader writer w') : w'.files = w.files := by
  cases last <;> rw [h.2.2]

theorem openPath_input {w w' : World} {cwd : NodeId} {path : String} {f : FileId}
    (h : w.openPath cwd path .read = .ok (f, w')) : w.OpensInput cwd (some path) (some f) w' := by
  obtain ⟨i, hlocate, hadd⟩ := exists_of_bind h
  cases hadd
  exact ⟨i, hlocate, rfl, rfl⟩

theorem openPath_output {w w' : World} {cwd : NodeId} {o : Output} {f : FileId}
    (h : w.openPath cwd o.target (.write o.mode) = .ok (f, w')) : w.OpensOutput cwd (some o) (some f) w' := by
  obtain ⟨⟨i, files⟩, hwrite, hadd⟩ := exists_of_bind h
  cases hadd
  exact ⟨i, files, FileTree.openWrite_opens hwrite, rfl, rfl⟩

end World

/-! ## Making a stage ready -/

/-- The redirects that a stage makes use of. -/
def Stage.usedInput (stage : Stage) (first : Bool) : Option String := if first then stage.input else none

def Stage.usedOutput (stage : Stage) (last : Bool) : Option Output := if last then stage.output else none

namespace Host

variable {kernel : κ} {h h' : Host} {stage : Stage} {first last : Bool} {d : Option Descriptor}
  {t : DescriptorTable} {news : List (Descriptor × FileId)}

theorem inputTarget_eq (stage : Stage) (first : Bool) :
    inputTarget stage first = (stage.usedInput first).map (·, .read) := by
  cases first <;> rfl

theorem outputTarget_eq (stage : Stage) (last : Bool) :
    outputTarget stage last = (stage.usedOutput last).map fun o => (o.target, .write o.mode) := by
  cases last <;> rfl

theorem openInput_ok (hopen : h.openTarget k kernel (inputTarget stage first) = .ok (d, h'))
    (ht : t.Adds news h.table) :
    ∃ new : Option (Descriptor × FileId), d = new.map (·.1) ∧ t.Adds (new.toList ++ news) h'.table ∧
      h.world.OpensInput h.cwd (stage.usedInput first) (new.map (·.2)) h'.world := by
  rw [inputTarget_eq] at hopen
  rcases openTarget_cases hopen with ⟨hnone, rfl, rfl⟩ | ⟨_, _, f, _, htarget, hpath, rfl, rfl⟩
  · rw [Option.map_eq_none_iff.1 hnone]
    exact ⟨none, rfl, ht, rfl, rfl⟩
  · obtain ⟨path, hused, heq⟩ := Option.map_eq_some_iff.1 htarget
    cases heq
    rw [hused]
    exact ⟨some (_, f), rfl, ht.allocate f, World.openPath_input hpath⟩

theorem openOutput_ok (hopen : h.openTarget k kernel (outputTarget stage last) = .ok (d, h'))
    (ht : t.Adds news h.table) :
    ∃ new : Option (Descriptor × FileId), d = new.map (·.1) ∧ t.Adds (new.toList ++ news) h'.table ∧
      h.world.OpensOutput h.cwd (stage.usedOutput last) (new.map (·.2)) h'.world := by
  rw [outputTarget_eq] at hopen
  rcases openTarget_cases hopen with ⟨hnone, rfl, rfl⟩ | ⟨_, _, f, _, htarget, hpath, rfl, rfl⟩
  · rw [Option.map_eq_none_iff.1 hnone]
    exact ⟨none, rfl, ht, rfl, rfl⟩
  · obtain ⟨o, hused, heq⟩ := Option.map_eq_some_iff.1 htarget
    cases heq
    rw [hused]
    exact ⟨some (_, f), rfl, ht.allocate f, World.openPath_output hpath⟩

/-- What a stage that is ready has opened. -/
theorem prepare_ok {launch : Launch} (hprepare : h.prepare k kernel stage first last = (.ok launch, h'))
    (ht : t.Adds news h.table) :
    ∃ (input output : Option (Descriptor × FileId)) (w : World),
      launch.input = input.map (·.1) ∧ launch.output = output.map (·.1) ∧
      h.world.OpensInput h.cwd (stage.usedInput first) (input.map (·.2)) w ∧
      w.OpensOutput h.cwd (stage.usedOutput last) (output.map (·.2)) h'.world ∧
      t.Adds (output.toList ++ (input.toList ++ news)) h'.table := by
  rcases prepare_cases k kernel h stage first last with ⟨_, hready⟩ | ⟨_, _, _, _, hready⟩ |
    ⟨_, _, h₁, _, _, hinput, houtput, hready⟩
  · cases hready.symm.trans hprepare
  · cases hready.symm.trans hprepare
  · cases hready.symm.trans hprepare
    obtain ⟨input, rfl, ht₁, hopens₁⟩ := openInput_ok hinput ht
    obtain ⟨output, rfl, ht₂, hopens₂⟩ := openOutput_ok houtput ht₁
    exact ⟨input, output, h₁.world, rfl, rfl, hopens₁, (openTarget_persists hinput).cwd ▸ hopens₂, ht₂⟩

/-- A stage that does not get ready leaves an open file behind at most, and no descriptor. -/
theorem prepare_error {cause : LaunchCause} (hprepare : h.prepare k kernel stage first last = (.error cause, h'))
    (ht : t.Adds news h.table) :
    h.world.Spared h'.world ∧ t.Adds news h'.table := by
  rcases prepare_cases k kernel h stage first last with ⟨_, hready⟩ | ⟨_, h₁, _, hinput, hready⟩ |
    ⟨_, _, _, _, _, _, _, hready⟩
  · cases hready.symm.trans hprepare
    exact ⟨.inl rfl, ht⟩
  · cases hready.symm.trans hprepare
    obtain ⟨input, rfl, ht₁, hopens⟩ := openInput_ok hinput ht
    refine ⟨hopens.spared, .closeAll input.toList news [] (by simpa using ht₁) fun d => ?_⟩
    rw [List.append_nil, Option.toList_map]
  · cases hready.symm.trans hprepare

end Host

/-! ## Launching a stage -/

/-- What is opened for a stage before it is forked. -/
def Stage.Opens (stage : Stage) (first last : Bool) (cwd : NodeId) (w : World)
    (input output reader writer : Option FileId) (w' : World) : Prop :=
  ∃ w₁ w₂, w.OpensInput cwd (stage.usedInput first) input w₁ ∧
    w₁.OpensOutput cwd (stage.usedOutput last) output w₂ ∧ w₂.OpensPipe last reader writer w'

/-- The two ends of the pipe behind a stage. -/
theorem Piped.opens {last : Bool} {h h' : Host} {reader writer : Option Descriptor} {t : DescriptorTable}
    {news : List (Descriptor × FileId)} (hpiped : Piped last h reader writer h') (ht : t.Adds news h.table) :
    ∃ r w : Option (Descriptor × FileId), reader = r.map (·.1) ∧ writer = w.map (·.1) ∧
      h.world.OpensPipe last (r.map (·.2)) (w.map (·.2)) h'.world ∧
      t.Adds (w.toList ++ (r.toList ++ news)) h'.table := by
  cases last with
  | true =>
    obtain ⟨rfl, rfl, rfl⟩ := hpiped
    exact ⟨none, none, rfl, rfl, ⟨rfl, rfl, rfl⟩, ht⟩
  | false =>
    obtain ⟨r, w, rfl, rfl, hpipe⟩ := hpiped
    cases hpipe
    have hwriter : h.world.makePipe.2.1 = h.world.opened.size + 1 := by simp [World.makePipe, World.add]
    exact ⟨some (_, h.world.makePipe.1), some (_, h.world.makePipe.2.1), rfl, rfl,
      ⟨rfl, congrArg some hwriter, rfl⟩, (ht.allocate _).allocate _⟩

/-- What the world of a forked child holds, which file it reads and writes, and which table the shell keeps: everything
that is opened for the stage is added to the table, and all of it but the reading end of the pipe is closed again. -/
theorem launchStage_forked {first last : Bool} {stage : Stage} {st next : Standing κ} {image : Image} {pid : Pid}
    {t : DescriptorTable} {news : List (Descriptor × FileId)} (ht : t.Adds news st.host.table)
    (hstep : launchStage k shellName first last stage st = .forked image pid next) :
    ∃ (input output reader writer : Option (Descriptor × FileId)) (w : World) (t' : DescriptorTable),
      stage.Opens first last st.host.cwd st.host.world (input.map (·.2)) (output.map (·.2)) (reader.map (·.2))
        (writer.map (·.2)) w ∧
      k.fork image (w, st.kernel) = (.ok pid, next.host.world, next.kernel) ∧
      t.Adds (writer.toList ++ (reader.toList ++ (output.toList ++ (input.toList ++ news)))) t' ∧
      image.table = t'.wire (reader.map (·.1)) (st.incoming.or (input.map (·.1)))
        ((writer.map (·.1)).or (output.map (·.1))) ∧
      next.incoming = reader.map (·.1) ∧
      next.host.table = (st.incoming.toList ++ (input.map (·.1)).toList ++ (output.map (·.1)).toList ++
        (writer.map (·.1)).toList).foldl DescriptorTable.close t' := by
  obtain ⟨launch, h₁, _, _, h₂, hprepare, hpiped, hforked⟩ := exists_forkStage hstep
  obtain ⟨input, output, w, hin, hout, hopensIn, hopensOut, hadds₁⟩ := Host.prepare_ok hprepare ht
  obtain ⟨reader, writer, rfl, rfl, hopensPipe, hadds⟩ := hpiped.opens hadds₁
  simp only [forkStage, hin, hout] at hforked
  split at hforked
  · cases hforked
  · rename_i hfork
    cases hforked
    exact ⟨input, output, reader, writer, h₂.world, h₂.table, ⟨w, h₁.world, hopensIn, hopensOut, hopensPipe⟩, hfork,
      hadds, rfl, rfl, rfl⟩

/-- All that the shell does to the world for a stage: it opens its files, and then the kernel makes the child. If it does
not come to that, no file has changed. -/
def StageResult.Opens (k : Kernel κ) (stage : Stage) (first last : Bool) (st : Standing κ) : StageResult κ → Prop
  | .forked image pid next => ∃ input output reader writer w,
      stage.Opens first last st.host.cwd st.host.world input output reader writer w ∧
      k.fork image (w, st.kernel) = (.ok pid, next.host.world, next.kernel)
  | .failed cause h kernel =>
      (st.host.world.Spared h.world ∧ kernel = st.kernel) ∨
      ∃ launch h₁ image e input output reader writer w,
        st.host.prepare k st.kernel stage first last = (.ok launch, h₁) ∧ cause = .io (.system e) ∧
        stage.Opens first last st.host.cwd st.host.world input output reader writer w ∧
        k.fork image (w, st.kernel) = (.error e, h.world, kernel)

theorem launchStage_opens (k : Kernel κ) (shellName : String) (first last : Bool) (stage : Stage) (st : Standing κ) :
    (launchStage k shellName first last stage st).Opens k stage first last st := by
  cases hstep : launchStage k shellName first last stage st with
  | forked image pid next =>
    obtain ⟨input, output, reader, writer, w, _, hopens, hfork, -⟩ := launchStage_forked (.refl _) hstep
    exact ⟨_, _, _, _, w, hopens, hfork⟩
  | failed cause h kernel =>
    rcases launchStage_cases k shellName first last stage st with ⟨_, _, hprepare, hcase⟩ |
      ⟨launch, h₁, _, hprepare, hlast, -, hcase⟩ | ⟨launch, h₁, _, _, h₂, hprepare, hpiped, hcase⟩
    · cases hcase.symm.trans hstep
      exact .inl ⟨(Host.prepare_error hprepare (.refl _)).1, rfl⟩
    · cases hcase.symm.trans hstep
      obtain ⟨input, output, w, -, -, hopensIn, hopensOut, -⟩ := Host.prepare_ok hprepare (.refl _)
      -- there is no output in front of a pipe
      subst hlast
      obtain ⟨-, hworld⟩ := hopensOut
      rw [← hworld] at hopensIn
      exact .inl ⟨hopensIn.spared, rfl⟩
    · obtain ⟨input, output, w, hin, hout, hopensIn, hopensOut, hadds₁⟩ := Host.prepare_ok hprepare (.refl _)
      obtain ⟨reader, writer, rfl, rfl, hopensPipe, hadds⟩ := hpiped.opens hadds₁
      rw [hcase] at hstep
      simp only [forkStage] at hstep
      split at hstep
      · rename_i hfork
        cases hstep
        exact .inr ⟨launch, h₁, _, _, _, _, _, _, h₂.world, hprepare, rfl,
          ⟨w, h₁.world, hopensIn, hopensOut, hopensPipe⟩, hfork⟩
      · cases hstep

/-- Only opening an output changes the tree. -/
theorem Stage.Opens.files {stage : Stage} {first last : Bool} {cwd : NodeId} {w w' : World}
    {input output reader writer : Option FileId} (h : stage.Opens first last cwd w input output reader writer w') :
    w.files.TakesOutput cwd (stage.usedOutput last) w'.files := by
  obtain ⟨w₁, w₂, hinput, houtput, hpipe⟩ := h
  have hfiles := houtput.files
  rwa [← hpipe.files, hinput.spared.files] at hfiles

/-! ## Launching a pipeline -/

/-- A stage is launched by its name, its arguments and the redirects that it makes use of. -/
theorem launchStage_congr {stage stage' : Stage} {first last : Bool} (hname : stage'.name = stage.name)
    (harguments : stage'.arguments = stage.arguments) (hinput : stage'.usedInput first = stage.usedInput first)
    (houtput : stage'.usedOutput last = stage.usedOutput last) (st : Standing κ) :
    launchStage k shellName first last stage' st = launchStage k shellName first last stage st := by
  have hprepare : st.host.prepare k st.kernel stage' first last = st.host.prepare k st.kernel stage first last := by
    simp only [Host.prepare, Host.inputTarget_eq, Host.outputTarget_eq, hname, harguments, hinput, houtput]
  simp only [launchStage, hprepare, forkStage, hname, harguments]

/-- The redirects behind a pipe or in front of one count for nothing. -/
theorem launchFrom_congr {stages stages' : List Stage} {first : Bool}
    (hsame : stages'.map (fun s => (s.name, s.arguments)) = stages.map fun s => (s.name, s.arguments))
    (hinput : first = true → stages'.head?.bind (·.input) = stages.head?.bind (·.input))
    (houtput : stages'.getLast?.bind (·.output) = stages.getLast?.bind (·.output)) (st : Standing κ) :
    launchFrom k shellName first stages' st = launchFrom k shellName first stages st := by
  induction stages generalizing stages' first st with
  | nil => rw [List.map_eq_nil_iff.1 hsame]
  | cons stage later ih =>
    obtain ⟨stage', later', rfl, hhead, hlater⟩ := List.map_eq_cons_iff.1 hsame
    obtain ⟨hname, harguments⟩ := Prod.mk.inj hhead
    have hlength : later'.isEmpty = later.isEmpty := by
      rw [← List.isEmpty_map, hlater, List.isEmpty_map]
    have hused : stage'.usedInput first = stage.usedInput first := by
      cases first with
      | false => rfl
      | true => exact hinput rfl
    have hstep : launchStage k shellName first later.isEmpty stage' st =
        launchStage k shellName first later.isEmpty stage st := by
      refine launchStage_congr hname harguments hused ?_ st
      cases later with
      | nil =>
        obtain rfl := List.map_eq_nil_iff.1 hlater
        exact houtput
      | cons _ _ => rfl
    have houtput' : later'.getLast?.bind (·.output) = later.getLast?.bind (·.output) := by
      cases later with
      | nil => rw [List.map_eq_nil_iff.1 hlater]
      | cons _ _ =>
        obtain ⟨_, _, rfl, -, -⟩ := List.map_eq_cons_iff.1 hlater
        simpa only [List.getLast?_cons_cons] using houtput
    have hrest : ∀ next, launchFrom k shellName false later' next = launchFrom k shellName false later next :=
      fun next => ih hlater (fun h => absurd h Bool.false_ne_true) houtput' next
    simp only [launchFrom, hlength, hstep, hname, hrest]

/-- What a step leaves of the tree, where making a child does nothing to it. -/
theorem StageResult.Opens.files (hk : ∀ image system, (k.fork image system).2.1.files = system.1.files)
    {first last : Bool} {stage : Stage} {st next : Standing κ} {image : Image} {pid : Pid}
    (h : (StageResult.forked image pid next).Opens k stage first last st) :
    st.host.world.files.TakesOutput st.host.cwd (stage.usedOutput last) next.host.world.files := by
  obtain ⟨_, _, _, _, w, hopens, hfork⟩ := h
  have hanswer := hk image (w, st.kernel)
  rw [hfork] at hanswer
  rw [show next.host.world.files = w.files from hanswer]
  exact hopens.files

/-- The stages in front of the last one leave the tree as it was. -/
theorem Launches.files (hk : ∀ image system, (k.fork image system).2.1.files = system.1.files) {stages : List Stage}
    {start st : Standing κ} {i : Nat} {forked : List Forked}
    (hreach : Launches k shellName stages start i st forked) (hlt : i < stages.length) :
    st.host.world.files = start.host.world.files := by
  induction hreach with
  | start => rfl
  | @step i st _ stage image pid next _ _ hstep ih =>
    have hopens := launchStage_opens k shellName (i = 0) (i + 1 = stages.length) stage st
    rw [hstep, decide_eq_false (p := i + 1 = stages.length) (by omega)] at hopens
    exact (hopens.files hk).trans (ih (by omega))

theorem getLast?_of_getElem? {α : Type} {l : List α} {i : Nat} {a : α} (h : l[i]? = some a) (hlast : i + 1 = l.length) :
    l.getLast? = some a := by
  rw [List.getLast?_eq_getElem?, ← hlast, Nat.add_sub_cancel, h]

/-- What a whole launch does to the tree, where making a child does nothing to it. -/
theorem launchFrom_files (hk : ∀ image system, (k.fork image system).2.1.files = system.1.files) (shellName : String)
    (stages : List Stage) (start : Standing κ) {r : Launched κ} (hr : launchFrom k shellName true stages start = r) :
    match r.failure with
    | none => start.host.world.files.TakesOutput start.host.cwd (stages.getLast?.bind (·.output)) r.host.world.files
    | some e => r.host.world.files = start.host.world.files ∨
        ∃ image w kernel errno, k.fork image (w, kernel) = (.error errno, r.host.world, r.kernel) ∧
          e.cause = .io (.system errno) ∧ r.children.length + 1 = stages.length ∧
          start.host.world.files.TakesOutput start.host.cwd (stages.getLast?.bind (·.output)) r.host.world.files := by
  obtain ⟨i, st, forked, hreach, hchildren, hends⟩ := exists_launches k shellName stages start
  rw [hr] at hchildren hends
  cases hfailure : r.failure with
  | none =>
    rw [hfailure] at hends
    obtain ⟨hi, hhost, -⟩ := hends
    rw [hhost]
    cases hreach with
    | start =>
      rw [List.length_eq_zero_iff.1 hi.symm]
      rfl
    | @step i st₀ forked stage image pid _ hreach hstage hstep =>
      have hopens := launchStage_opens k shellName (i = 0) (i + 1 = stages.length) stage st₀
      rw [hstep, decide_eq_true hi] at hopens
      have hfiles := hopens.files hk
      rw [hreach.files hk (by omega), hreach.persists.cwd] at hfiles
      rw [getLast?_of_getElem? hstage hi]
      exact hfiles
  | some e =>
    rw [hfailure] at hends
    obtain ⟨stage, hstage, -, hstep⟩ := hends
    have hlt := (List.getElem?_eq_some_iff.1 hstage).1
    have hopens := launchStage_opens k shellName (i = 0) (i + 1 = stages.length) stage st
    rw [hstep] at hopens
    rcases hopens with ⟨hworld, -⟩ | ⟨_, _, image, errno, _, _, _, _, w, -, hcause, hopens, hfork⟩
    · exact .inl (hworld.files.trans (hreach.files hk hlt))
    · have hanswer := hk image (w, st.kernel)
      rw [hfork] at hanswer
      have hfiles := hopens.files
      rw [← show r.host.world.files = w.files from hanswer, hreach.files hk hlt, hreach.persists.cwd] at hfiles
      by_cases hlast : i + 1 = stages.length
      · rw [decide_eq_true hlast] at hfiles
        refine .inr ⟨image, w, st.kernel, errno, hfork, hcause, ?_, ?_⟩
        · rw [hchildren, List.length_map, hreach.length_forked, hlast]
        · rw [getLast?_of_getElem? hstage hlast]
          exact hfiles
      · rw [decide_eq_false hlast] at hfiles
        exact .inl hfiles

/-- **A failed launch leaves files alone.** A stage that cannot be made ready has left nothing behind but a file that
was opened for reading; one that is ready has done no more than open its files, and of these only the output of the last
stage changes the tree: it is created where there is none, and emptied if it is not appended to.

A pipeline is launched stage by stage, to its end or to the first stage that fails. Whatever the kernel does to the world,
the shell does nothing to it between two forks but open what is used of the next stage; so the input of a stage other
than the first and the output of one other than the last might as well not be there. Where making a child does nothing
to the tree, a launch that fails leaves the tree that it found, unless the last stage was ready and could not be forked;
and one that succeeds has opened the output of the last stage. -/
theorem launch_opens (k : Kernel κ) (shellName : String) :
    (∀ (kernel : κ) (h h' : Host) (stage : Stage) (first last : Bool) (result : Except LaunchCause Launch),
      h.prepare k kernel stage first last = (result, h') →
        match result with
        | .error _ => h.world.Spared h'.world
        | .ok _ => ∃ input output w, h.world.OpensInput h.cwd (stage.usedInput first) input w ∧
            w.OpensOutput h.cwd (stage.usedOutput last) output h'.world) ∧
    ∀ (stages : List Stage) (h : Host) (kernel : κ) (r : Launched κ),
      launchFrom k shellName true stages { host := h, kernel } = r →
        (∃ i st forked, Launches k shellName stages { host := h, kernel } i st forked ∧
          r.children = forked.map (·.child) ∧ Ends k shellName stages i st r.failure r.host r.kernel) ∧
        (∀ i st forked stage, Launches k shellName stages { host := h, kernel } i st forked → stages[i]? = some stage →
          st.host.cwd = h.cwd ∧ (launchStage k shellName (i = 0) (i + 1 = stages.length) stage st).Opens k stage (i = 0)
            (i + 1 = stages.length) st) ∧
        (∀ stages' : List Stage,
          stages'.map (fun s => (s.name, s.arguments)) = stages.map (fun s => (s.name, s.arguments)) →
          stages'.head?.bind (·.input) = stages.head?.bind (·.input) →
          stages'.getLast?.bind (·.output) = stages.getLast?.bind (·.output) →
          launchFrom k shellName true stages' { host := h, kernel } = r) ∧
        ((∀ image system, (k.fork image system).2.1.files = system.1.files) →
          match r.failure with
          | none => h.world.files.TakesOutput h.cwd (stages.getLast?.bind (·.output)) r.host.world.files
          | some e => r.host.world.files = h.world.files ∨
              ∃ image w kernel errno, k.fork image (w, kernel) = (.error errno, r.host.world, r.kernel) ∧
                e.cause = .io (.system errno) ∧ r.children.length + 1 = stages.length ∧
                h.world.files.TakesOutput h.cwd (stages.getLast?.bind (·.output)) r.host.world.files) := by
  refine ⟨fun kernel h h' stage first last result hprepare => ?_, fun stages h kernel r hr => ⟨?_, ?_, ?_, ?_⟩⟩
  · cases result with
    | error cause => exact (Host.prepare_error hprepare (.refl _)).1
    | ok launch =>
      obtain ⟨_, _, w, -, -, hinput, houtput, -⟩ := Host.prepare_ok hprepare (.refl _)
      exact ⟨_, _, w, hinput, houtput⟩
  · rw [← hr]
    exact exists_launches k shellName stages { host := h, kernel }
  · intro i st forked stage hreach _
    exact ⟨hreach.persists.cwd, launchStage_opens k shellName _ _ stage st⟩
  · intro stages' hsame hinput houtput
    rw [← hr]
    exact launchFrom_congr hsame (fun _ => hinput) houtput _
  · intro hk
    exact launchFrom_files hk shellName stages _ hr

/-- A host with a program and two files. -/
def Host.withTwoFiles : Host :=
  .start
    { nodes := #[.directory FileTree.root [("x", 1), ("in", 2), ("out", 3)], .program "x",
        .file [104, 105] FileTree.newFileMode, .file [104, 111] FileTree.newFileMode] }
    FileTree.root FileTree.root [("PATH", "/")]

/-- An input that is missing, a program that is missing, and then a launch that succeeds: it empties the last output,
and neither looks for the input nor empties the output that a pipe takes the place of. -/
theorem launch_opens_files :
    (∃ r, launchFrom (Machine.kernel fun _ => none) "sh" true
        [{ name := "x", input := some "missing", output := some ⟨.truncate, "out"⟩ }]
        { host := .withTwoFiles, kernel := {} } = r ∧
      r.failure = some ⟨"x", .io (.system .noEntry)⟩ ∧ r.host.world.files = Host.withTwoFiles.world.files) ∧
    (∃ r, launchFrom (Machine.kernel fun _ => none) "sh" true
        [{ name := "x", output := some ⟨.truncate, "in"⟩ }, { name := "y", output := some ⟨.truncate, "out"⟩ }]
        { host := .withTwoFiles, kernel := {} } = r ∧
      r.failure = some ⟨"y", .notFound⟩ ∧ r.host.world.files = Host.withTwoFiles.world.files) ∧
    ∃ r, launchFrom (Machine.kernel fun _ => none) "sh" true
        [{ name := "x", input := some "in", output := some ⟨.truncate, "in"⟩ },
          { name := "x", input := some "missing", output := some ⟨.truncate, "out"⟩ }]
        { host := .withTwoFiles, kernel := {} } = r ∧
      r.failure = none ∧ r.host.world.files = Host.withTwoFiles.world.files.setContent 3 [] := by
  have hfork : ∀ image system,
      ((Machine.kernel fun _ => none).fork image system).2.1.files = system.1.files := fun _ _ => rfl
  have hfiles := fun stages r hr =>
    ((launch_opens (Machine.kernel fun _ => none) "sh").2 stages .withTwoFiles {} r hr).2.2.2 hfork
  -- no fork is denied here
  have hfailed : ∀ stages r e, launchFrom (Machine.kernel fun _ => none) "sh" true stages
      { host := .withTwoFiles, kernel := {} } = r → r.failure = some e →
        r.host.world.files = Host.withTwoFiles.world.files := by
    intro stages r e hr hfailure
    have hkept := hfiles stages r hr
    rw [hfailure] at hkept
    rcases hkept with hkept | ⟨_, _, _, _, hdenied, -⟩
    · exact hkept
    · cases hdenied
  refine ⟨⟨_, rfl, rfl, hfailed _ _ _ rfl rfl⟩, ⟨_, rfl, rfl, hfailed _ _ _ rfl rfl⟩, _, rfl, rfl, ?_⟩
  obtain ⟨_, spot, _, hspot, -, hemptied⟩ := hfiles
    [{ name := "x", input := some "in", output := some ⟨.truncate, "in"⟩ },
      { name := "x", input := some "missing", output := some ⟨.truncate, "out"⟩ }] _ rfl
  cases hspot
  exact hemptied.2

end LineShell
