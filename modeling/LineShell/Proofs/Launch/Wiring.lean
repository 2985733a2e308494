import LineShell.Proofs.Launch.Openings

/-!
# The descriptors of a launch

Whatever the shell opens for a launch is close-on-exec and has a number of its own, so that its
table is at every moment the one it began with and the files of `DescriptorTable.Adds`. Between two
iterations that is the reading end for the next stage (`launchStage_wired`), and after a failure
nothing (`launchStage_failed`). `launch_wiring` puts them together for all stages.
-/

namespace LineShell

variable {κ : Type u} {k : Kernel κ} {kernel : κ} {shellName : String} {t : DescriptorTable}
  {news : List (Descriptor × FileId)}

/-! ## The descriptors of a child -/

/-- The shell has its three standard descriptors, and other programs get them too. -/
structure Standard (t : DescriptorTable) (stdin stdout stderr : FileId) : Prop where
  input : t.slot? Descriptor.input = some ⟨stdin, false⟩
  output : t.slot? Descriptor.output = some ⟨stdout, false⟩
  error : t.slot? Descriptor.error = some ⟨stderr, false⟩

theorem slot?_elim_duplicate {new : Option (Descriptor × FileId)} (target : Descriptor)
    (hnew : ∀ n ∈ new, t.slot? n.1 = some ⟨n.2, true⟩) (hne : ∀ n ∈ new, n.1 ≠ target) (x : Descriptor) :
    ((new.map (·.1)).elim t fun d => t.duplicate d target).slot? x =
      if x = target then new.elim (t.slot? target) fun n => some ⟨n.2, false⟩ else t.slot? x := by
  cases new with
  | none => by_cases hx : x = target <;> simp [hx]
  | some n => simp [DescriptorTable.slot?_duplicate (hnew n rfl) (hne n rfl)]

theorem slot?_elim_close (unused : Option (Descriptor × FileId)) (x : Descriptor) :
    ((unused.map (·.1)).elim t t.close).slot? x = if unused.map (·.1) = some x then none else t.slot? x := by
  cases unused with
  | none => simp
  | some n => simp [DescriptorTable.slot?_close, eq_comm]

/-- A child gets the files that it is given, or the streams of the shell, and keeps nothing else of
what the shell has opened since. -/
theorem slot?_wire {stdin stdout stderr : FileId} {t' : DescriptorTable} (ht : Standard t stdin stdout stderr)
    (hadds : t.Adds news t') (unused input output : Option (Descriptor × FileId))
    (hunused : ∀ new ∈ unused, new ∈ news) (hinput : ∀ new ∈ input, new ∈ news)
    (houtput : ∀ new ∈ output, new ∈ news)
    (hui : ∀ u ∈ unused, ∀ i ∈ input, u.1 ≠ i.1) (huo : ∀ u ∈ unused, ∀ o ∈ output, u.1 ≠ o.1)
    (d : Descriptor) :
    (t'.wire (unused.map (·.1)) (input.map (·.1)) (output.map (·.1))).afterExec.slot? d =
      if d = Descriptor.input then some ⟨(input.map (·.2)).getD stdin, false⟩
      else if d = Descriptor.output then some ⟨(output.map (·.2)).getD stdout, false⟩
      else t.afterExec.slot? d := by
  have hne0 : ∀ new ∈ news, new.1 ≠ Descriptor.input := fun new h => hadds.ne_of_used h (by simp [ht.input])
  have hne1 : ∀ new ∈ news, new.1 ≠ Descriptor.output := fun new h => hadds.ne_of_used h (by simp [ht.output])
  -- the unused end is closed
  have hkept : ∀ x, (∀ u ∈ unused, u.1 ≠ x) →
      ((unused.map (·.1)).elim t' t'.close).slot? x = t'.slot? x := by
    intro x hx
    rw [slot?_elim_close, if_neg]
    cases unused with
    | none => simp
    | some u => simpa using hx u rfl
  -- the input is in place
  have hin := slot?_elim_duplicate (t := (unused.map (·.1)).elim t' t'.close) Descriptor.input
    (fun i hi => by rw [hkept _ fun u hu => hui u hu i hi, hadds.slot?_new (hinput i hi)])
    (fun i hi => hne0 i (hinput i hi))
  -- and then the output
  have hout := slot?_elim_duplicate (t := (input.map (·.1)).elim ((unused.map (·.1)).elim t' t'.close)
      fun d => ((unused.map (·.1)).elim t' t'.close).duplicate d Descriptor.input) Descriptor.output
    (fun o ho => by
      rw [hin, if_neg (hne0 o (houtput o ho)), hkept _ fun u hu => huo u hu o ho,
        hadds.slot?_new (houtput o ho)])
    (fun o ho => hne1 o (houtput o ho))
  rw [DescriptorTable.slot?_afterExec]
  simp only [DescriptorTable.wire]
  rw [hout]
  by_cases hd1 : d = Descriptor.output
  · have hd0 : Descriptor.output ≠ Descriptor.input := by decide
    subst hd1
    rw [if_pos rfl, if_neg hd0, if_pos rfl, hin, if_neg hd0, hkept _ fun u hu => hne1 u (hunused u hu),
      hadds.slot?_old ht.output]
    cases output <;> rfl
  · rw [if_neg hd1, if_neg hd1, hin]
    by_cases hd0 : d = Descriptor.input
    · subst hd0
      rw [if_pos rfl, if_pos rfl, hkept _ fun u hu => hne0 u (hunused u hu), hadds.slot?_old ht.input]
      cases input <;> rfl
    · rw [if_neg hd0, if_neg hd0, ← hadds.afterExec, DescriptorTable.slot?_afterExec, slot?_elim_close]
      split
      · rename_i hclosed
        obtain ⟨u, hu, rfl⟩ := Option.map_eq_some_iff.1 hclosed
        rw [hadds.slot?_new (hunused u hu)]
        rfl
      · rfl

/-! ## One stage -/

/-- All that the shell holds between two iterations is the reading end for the next stage. -/
def Standing.Holds (t : DescriptorTable) (incoming : Option (Descriptor × FileId)) (st : Standing κ) : Prop :=
  st.incoming = incoming.map (·.1) ∧ t.Adds incoming.toList st.host.table

/-- The file that the next stage is to read. -/
def Standing.incomingFile (st : Standing κ) : Option FileId := st.incoming.bind st.host.table.file?

theorem Standing.Holds.incomingFile {incoming : Option (Descriptor × FileId)} {st : Standing κ}
    (hst : st.Holds t incoming) : st.incomingFile = incoming.map (·.2) := by
  obtain ⟨hincoming, hadds⟩ := hst
  rw [Standing.incomingFile, hincoming]
  cases incoming with
  | none => rfl
  | some new => simp [DescriptorTable.file?, hadds.slot?_new (d := new.1) (f := new.2) (by simp)]

/-- How a child is wired. The shell opens the redirect files and the pipe of the stage and then asks for the child. As
input the child has the pipe that was left for it, or its redirect file, or the input of the shell; as output the new
pipe, or its redirect file, or the output of the shell; and nothing that other programs would not get. The reading end of
the new pipe is left for the next stage. -/
def Wired (k : Kernel κ) (t : DescriptorTable) (stdin stdout : FileId) (stage : Stage) (first last : Bool)
    (st : Standing κ) (image : Image) (pid : Pid) (next : Standing κ) : Prop :=
  ∃ input output reader writer w,
    stage.Opens first last st.host.cwd st.host.world input output reader writer w ∧
    k.fork image (w, st.kernel) = (.ok pid, next.host.world, next.kernel) ∧
    next.incomingFile = reader ∧
    ∀ d, image.table.afterExec.slot? d =
      if d = Descriptor.input then some ⟨(st.incomingFile.or input).getD stdin, false⟩
      else if d = Descriptor.output then some ⟨(writer.or output).getD stdout, false⟩
      else t.afterExec.slot? d

theorem mem_or {α : Type} {a b : Option α} {x : α} (h : x ∈ a.or b) : x ∈ a ∨ x ∈ b := by
  cases a with
  | none => exact Or.inr h
  | some _ => exact Or.inl h

/-- A child is wired as it should be, and of all that was opened only the reading end is left. -/
theorem launchStage_wired {incoming : Option (Descriptor × FileId)} {first last : Bool} {stage : Stage}
    {st next : Standing κ} {image : Image} {pid : Pid} (hst : st.Holds t incoming)
    (hstep : launchStage k shellName first last stage st = .forked image pid next) :
    ∃ outgoing : Option (Descriptor × FileId), next.Holds t outgoing ∧ outgoing.isSome = !last ∧
      ∀ stdin stdout stderr, Standard t stdin stdout stderr →
        Wired k t stdin stdout stage first last st image pid next := by
  obtain ⟨input, output, reader, writer, w, t', hopens, hfork, hadds, htable, hincoming, hclosed⟩ :=
    launchStage_forked hst.2 hstep
  have hnext : next.Holds t reader := by
    refine ⟨hincoming, ?_⟩
    rw [hclosed, hst.1]
    refine hadds.closeAll _ _ _ fun d => ?_
    simp only [List.mem_append, List.map_append, Option.toList_map]
    tauto
  have hsome : reader.isSome = !last := by
    obtain ⟨_, _, -, -, hpipe⟩ := hopens
    rw [← Option.isSome_map (f := (·.2))]
    cases last <;> rw [hpipe.1] <;> rfl
  refine ⟨reader, hnext, hsome, fun stdin stdout stderr ht =>
    ⟨_, _, _, _, w, hopens, hfork, hnext.incomingFile, fun d => ?_⟩⟩
  -- the reading end is another descriptor than all the others
  have hnodup := hadds.nodup
  simp only [List.map_append, List.append_assoc, List.nodup_append, List.mem_append] at hnodup
  obtain ⟨-, ⟨-, -, hreader⟩, hwriter⟩ := hnodup
  have hkey : ∀ {o : Option (Descriptor × FileId)} {new : Descriptor × FileId}, new ∈ o →
      new.1 ∈ o.toList.map (·.1) := fun h => List.mem_map_of_mem (Option.mem_toList.2 h)
  have hwire := slot?_wire ht hadds reader (incoming.or input) (writer.or output)
    (fun new h => by simp [Option.mem_toList.2 h])
    (fun new h => by rcases mem_or h with h | h <;> simp [Option.mem_toList.2 h])
    (fun new h => by rcases mem_or h with h | h <;> simp [Option.mem_toList.2 h])
    (fun u hu i hi => by
      rcases mem_or hi with hi | hi
      · exact hreader _ (hkey hu) _ (Or.inr (Or.inr (Or.inl (hkey hi))))
      · exact hreader _ (hkey hu) _ (Or.inr (Or.inl (hkey hi))))
    (fun u hu o ho => by
      rcases mem_or ho with ho | ho
      · exact (hwriter _ (hkey ho) _ (Or.inl (hkey hu))).symm
      · exact hreader _ (hkey hu) _ (Or.inl (hkey ho)))
    d
  rw [htable, hst.1, hst.incomingFile]
  simpa only [Option.map_or] using hwire

/-- After a failure nothing is left of all that was opened. -/
theorem launchStage_failed {incoming : Option (Descriptor × FileId)} {first last : Bool} {stage : Stage}
    {st : Standing κ} {cause : LaunchCause} {h : Host} {kernel : κ} (hst : st.Holds t incoming)
    (hstep : launchStage k shellName first last stage st = .failed cause h kernel) : h.table = t := by
  rcases launchStage_cases k shellName first last stage st with ⟨_, h₁, hprepare, hcase⟩ |
    ⟨launch, h₁, _, hprepare, -, -, hcase⟩ | ⟨launch, h₁, reader, writer, h₂, hprepare, hpiped, hcase⟩
  · have hadds := (Host.prepare_error hprepare hst.2).2
    cases hcase.symm.trans hstep
    rw [hst.1]
    exact hadds.closeEvery fun d => by rw [Option.toList_map]
  · obtain ⟨input, output, _, hin, hout, -, -, hadds⟩ := Host.prepare_ok hprepare hst.2
    cases hcase.symm.trans hstep
    rw [hin, hout, hst.1]
    refine hadds.closeEvery fun d => ?_
    simp only [List.mem_append, List.map_append, Option.toList_map]
    tauto
  · obtain ⟨input, output, _, hin, hout, -, -, hadds₁⟩ := Host.prepare_ok hprepare hst.2
    obtain ⟨r, e, rfl, rfl, -, hadds⟩ := hpiped.opens hadds₁
    rw [hcase] at hstep
    simp only [forkStage, hin, hout, hst.1] at hstep
    split at hstep
    · cases hstep
      refine hadds.closeEvery fun d => ?_
      simp only [List.mem_append, List.map_append, Option.toList_map]
      tauto
    · cases hstep

/-! ## All stages -/

/-- Between two iterations the shell holds the reading end for the next stage, if there are stages
on both sides, and nothing else. -/
theorem Launches.holds {stages : List Stage} {h : Host} {i : Nat} {st : Standing κ} {forked : List Forked}
    (hreach : Launches k shellName stages { host := h, kernel } i st forked) :
    ∃ incoming, st.Holds h.table incoming ∧ (incoming.isSome ↔ 0 < i ∧ i < stages.length) := by
  induction hreach with
  | start => exact ⟨none, ⟨rfl, .refl _⟩, by simp⟩
  | @step i st forked stage image pid next _ hstage hstep ih =>
    obtain ⟨incoming, hst, -⟩ := ih
    obtain ⟨outgoing, hnext, hsome, -⟩ := launchStage_wired hst hstep
    have hlt := (List.getElem?_eq_some_iff.1 hstage).1
    refine ⟨outgoing, hnext, ?_⟩
    rw [hsome, Bool.not_eq_true', decide_eq_false_iff_not]
    omega

/-- A launch leaves the table of the shell as it was. -/
theorem launchFrom_table (k : Kernel κ) (shellName : String) (stages : List Stage) (h : Host) (kernel : κ) :
    (launchFrom k shellName true stages { host := h, kernel }).host.table = h.table := by
  obtain ⟨i, st, forked, hreach, -, hends⟩ := exists_launches k shellName stages { host := h, kernel }
  obtain ⟨incoming, hst, hsome⟩ := hreach.holds
  unfold Ends at hends
  split at hends
  · obtain ⟨rfl, hhost, -⟩ := hends
    have hnone : incoming = none := by simpa using hsome
    subst hnone
    rw [hhost, hst.1]
    exact hst.2.eq
  · obtain ⟨stage, -, -, hstep⟩ := hends
    exact launchStage_failed hst hstep

/-- Every child of a launch is wired to its neighbours, its redirect files and the streams of the
shell, between two iterations the shell holds at most the reading end for the next stage, and in the
end, whether it failed or not, its table is what it was. -/
theorem launch_wiring (k : Kernel κ) (shellName : String) (stages : List Stage) (h : Host) (kernel : κ)
    {stdin stdout stderr : FileId} (ht : Standard h.table stdin stdout stderr) :
    (∀ i st forked, Launches k shellName stages { host := h, kernel } i st forked →
      st.host.cwd = h.cwd ∧
      (∃ incoming, st.Holds h.table incoming ∧ (incoming.isSome ↔ 0 < i ∧ i < stages.length)) ∧
      ∀ stage image pid next, stages[i]? = some stage →
        launchStage k shellName (i = 0) (i + 1 = stages.length) stage st = .forked image pid next →
        Wired k h.table stdin stdout stage (i = 0) (i + 1 = stages.length) st image pid next) ∧
    (∃ i st forked, Launches k shellName stages { host := h, kernel } i st forked ∧
      (launchFrom k shellName true stages { host := h, kernel }).children = forked.map (·.child) ∧
      Ends k shellName stages i st (launchFrom k shellName true stages { host := h, kernel }).failure
        (launchFrom k shellName true stages { host := h, kernel }).host
        (launchFrom k shellName true stages { host := h, kernel }).kernel) ∧
    (launchFrom k shellName true stages { host := h, kernel }).host.table = h.table := by
  refine ⟨fun i st forked hreach => ?_, exists_launches k shellName stages { host := h, kernel },
    launchFrom_table k shellName stages h kernel⟩
  obtain ⟨incoming, hst, hsome⟩ := hreach.holds
  refine ⟨hreach.persists.cwd, ⟨incoming, hst, hsome⟩, fun stage image pid next _ hstep => ?_⟩
  obtain ⟨outgoing, -, -, hwired⟩ := launchStage_wired hst hstep
  exact hwired stdin stdout stderr ht

/-- A stage that reads one of two files, and one that writes the other. -/
def Stage.reading : Stage := { name := "x", input := some "in" }

def Stage.writing : Stage := { name := "x", output := some ⟨.truncate, "out"⟩ }

/-- Two children, a file at each end and a pipe in the middle: the first child has files 3 and 5, the second one files 4
and 6, and the shell has what it had. -/
theorem launch_wiring_two :
    Standard Host.withTwoFiles.table 0 1 2 ∧
    ∃ (image₁ image₂ : Image) (pid₁ pid₂ : Pid) (st₁ st₂ : Standing Machine),
      Launches (Machine.kernel fun _ => none) "sh" [.reading, .writing] { host := .withTwoFiles, kernel := {} } 2 st₂
        [⟨image₁, { pid := pid₁, stage := "x" }⟩, ⟨image₂, { pid := pid₂, stage := "x" }⟩] ∧
      Wired (Machine.kernel fun _ => none) Host.withTwoFiles.table 0 1 .reading true false
        { host := .withTwoFiles, kernel := {} } image₁ pid₁ st₁ ∧
      Wired (Machine.kernel fun _ => none) Host.withTwoFiles.table 0 1 .writing false true st₁ image₂ pid₂ st₂ ∧
      (image₁.table.afterExec.file? Descriptor.input, image₁.table.afterExec.file? Descriptor.output) = (some 3, some 5) ∧
      (image₂.table.afterExec.file? Descriptor.input, image₂.table.afterExec.file? Descriptor.output) = (some 4, some 6) ∧
      [3, 4, 5, 6].map st₂.host.world.file? =
        [some (.node 2 .read 0), some (.reader 0), some (.writer 0), some (.node 3 (.write .truncate) 0)] ∧
      (launchFrom (Machine.kernel fun _ => none) "sh" true [.reading, .writing]
        { host := .withTwoFiles, kernel := {} }).host.table = Host.withTwoFiles.table := by
  have hstandard : Standard Host.withTwoFiles.table 0 1 2 := ⟨rfl, rfl, rfl⟩
  obtain ⟨hwired, -, htable⟩ :=
    launch_wiring (Machine.kernel fun _ => none) "sh" [.reading, .writing] .withTwoFiles {} hstandard
  have hfirst : Launches (Machine.kernel fun _ => none) "sh" [.reading, .writing]
      { host := .withTwoFiles, kernel := {} } 1 _ _ := .step .start rfl rfl
  exact ⟨hstandard, _, _, _, _, _, _, .step hfirst rfl rfl, (hwired 0 _ _ .start).2.2 _ _ _ _ rfl rfl,
    (hwired 1 _ _ hfirst).2.2 _ _ _ _ rfl rfl, by decide, by decide, by decide, htable⟩

end LineShell
