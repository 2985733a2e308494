import LineShell.Shell.Launch
import LineShell.System.Machine

/-!
# The stages of a launch, one after the other

`launchStage_cases` says everything that launching one stage can come to. `Launches` is the relation
between the start of a launch and what it has come to when some stages are forked;
`exists_launches` says that a launch follows it to the first stage that fails, or to the end.
-/

namespace LineShell

variable {κ : Type u} {k : Kernel κ} {shellName : String}

/-! ## One stage -/

namespace Host

variable {kernel : κ} {h h' : Host} {stage : Stage} {first last : Bool}

/-- A redirect file gets a descriptor of its own, if there is one. -/
theorem openTarget_cases {target : Option (String × OpenMode)} {d : Option Descriptor}
    (hopen : h.openTarget k kernel target = .ok (d, h')) :
    (target = none ∧ d = none ∧ h' = h) ∨
    (∃ path mode f world, target = some (path, mode) ∧ h.world.openPath h.cwd path mode = .ok (f, world) ∧
      d = some h.table.firstFree ∧ h' = { h with world, table := (h.table.allocate ⟨f, true⟩).2 }) := by
  cases target with
  | none =>
    cases hopen
    exact .inl ⟨rfl, rfl, rfl⟩
  | some target =>
    obtain ⟨path, mode⟩ := target
    simp only [openTarget, openFile] at hopen
    split at hopen
    · cases hopen
    split at hopen
    · cases hopen
    split at hopen
    · cases hopen
    rename_i f world hpath
    cases hopen
    exact .inr ⟨path, mode, f, world, rfl, hpath, rfl, rfl⟩

/-- A stage fails before anything is open, or with its input open, which is closed again; or it is ready. -/
theorem prepare_cases (k : Kernel κ) (kernel : κ) (h : Host) (stage : Stage) (first last : Bool) :
    (∃ cause, h.prepare k kernel stage first last = (.error cause, h)) ∨
    (∃ input h₁ e, h.openTarget k kernel (inputTarget stage first) = .ok (input, h₁) ∧
      h.prepare k kernel stage first last = (.error (.io e), h₁.closeAll input.toList)) ∨
    (∃ path input h₁ output h₂, h.openTarget k kernel (inputTarget stage first) = .ok (input, h₁) ∧
      h₁.openTarget k kernel (outputTarget stage last) = .ok (output, h₂) ∧
      h.prepare k kernel stage first last = (.ok { path, input, output }, h₂)) := by
  unfold prepare
  cases Search.resolve h.world.files h.cwd h.searchPath stage.name with
  | none => exact .inl ⟨_, rfl⟩
  | some path =>
    dsimp only
    split
    · exact .inl ⟨_, rfl⟩
    cases hinput : h.openTarget k kernel (inputTarget stage first) with
    | error e => exact .inl ⟨_, rfl⟩
    | ok opened =>
      obtain ⟨input, h₁⟩ := opened
      cases houtput : h₁.openTarget k kernel (outputTarget stage last) with
      | error e => exact .inr (.inl ⟨input, h₁, e, rfl, by simp only [houtput]⟩)
      | ok opened =>
        obtain ⟨output, h₂⟩ := opened
        exact .inr (.inr ⟨path, input, h₁, output, h₂, rfl, houtput, by simp only [houtput]⟩)

end Host

/-- What holds the pipe behind a stage: there is none behind the last. -/
def Piped (last : Bool) (h : Host) (reader writer : Option Descriptor) (h' : Host) : Prop :=
  match last with
  | true => reader = none ∧ writer = none ∧ h' = h
  | false => ∃ r w, reader = some r ∧ writer = some w ∧ h.makePipe = (r, w, h')

/-- A stage is not ready, or there is no pipe for it, or it is forked with everything it needs. -/
theorem launchStage_cases (k : Kernel κ) (shellName : String) (first last : Bool) (stage : Stage)
    (st : Standing κ) :
    (∃ cause h, st.host.prepare k st.kernel stage first last = (.error cause, h) ∧
      launchStage k shellName first last stage st = .failed cause (h.closeAll st.incoming.toList) st.kernel) ∨
    (∃ launch h e, st.host.prepare k st.kernel stage first last = (.ok launch, h) ∧ last = false ∧
      k.pipeFault (h.world, st.kernel) = some e ∧
      launchStage k shellName first last stage st =
        .failed (.io (.system e))
          (h.closeAll (st.incoming.toList ++ launch.input.toList ++ launch.output.toList)) st.kernel) ∨
    (∃ launch h reader writer h', st.host.prepare k st.kernel stage first last = (.ok launch, h) ∧
      Piped last h reader writer h' ∧
      launchStage k shellName first last stage st =
        forkStage k shellName stage launch st.incoming reader writer h' st.kernel) := by
  unfold launchStage
  cases hprepare : st.host.prepare k st.kernel stage first last with | mk result h =>
  cases result with
  | error cause => exact .inl ⟨cause, h, rfl, rfl⟩
  | ok launch =>
    cases last with
    | true => exact .inr (.inr ⟨launch, h, none, none, h, rfl, ⟨rfl, rfl, rfl⟩, rfl⟩)
    | false =>
      simp only [Bool.false_eq_true, if_false]
      cases hfault : k.pipeFault (h.world, st.kernel) with
      | some e => exact .inr (.inl ⟨launch, h, e, rfl, trivial, hfault, rfl⟩)
      | none => exact .inr (.inr ⟨launch, h, _, _, _, rfl, ⟨_, _, rfl, rfl, rfl⟩, rfl⟩)

/-- A stage that was forked had been ready, and there was a pipe for it if it needs one. -/
theorem exists_forkStage {first last : Bool} {stage : Stage} {st next : Standing κ} {image : Image} {pid : Pid}
    (hstep : launchStage k shellName first last stage st = .forked image pid next) :
    ∃ launch h reader writer h', st.host.prepare k st.kernel stage first last = (.ok launch, h) ∧
      Piped last h reader writer h' ∧
      forkStage k shellName stage launch st.incoming reader writer h' st.kernel = .forked image pid next := by
  rcases launchStage_cases k shellName first last stage st with ⟨_, _, -, hcase⟩ | ⟨_, _, _, -, -, -, hcase⟩ |
    ⟨launch, h, reader, writer, h', hprepare, hpiped, hcase⟩
  · cases hcase.symm.trans hstep
  · cases hcase.symm.trans hstep
  · exact ⟨launch, h, reader, writer, h', hprepare, hpiped, hcase.symm.trans hstep⟩

/-- A child is given the name and the arguments of its stage. -/
theorem launchStage_arguments {first last : Bool} {stage : Stage} {st next : Standing κ} {image : Image} {pid : Pid}
    (hstep : launchStage k shellName first last stage st = .forked image pid next) :
    image.arguments = stage.name :: stage.arguments := by
  obtain ⟨launch, _, _, _, _, -, -, hfork⟩ := exists_forkStage hstep
  simp only [forkStage] at hfork
  split at hfork
  · cases hfork
  · cases hfork
    rfl

/-- The host that a step leaves behind. -/
def StageResult.host : StageResult κ → Host
  | .forked _ _ next => next.host
  | .failed _ host _ => host

/-! ## What a launch leaves alone -/

namespace Host

variable {kernel : κ} {h h' h'' : Host}

/-- A host is what it was, but for the world and its own descriptors. -/
def Persists (h h' : Host) : Prop := h' = { h with world := h'.world, table := h'.table }

theorem Persists.trans (hpersists : h.Persists h') (hpersists' : h'.Persists h'') : h.Persists h'' := by
  rw [Persists, hpersists', hpersists]

theorem Persists.cwd (hpersists : h.Persists h') : h'.cwd = h.cwd := by rw [hpersists]

theorem openTarget_persists {target : Option (String × OpenMode)} {d : Option Descriptor}
    (hopen : h.openTarget k kernel target = .ok (d, h')) : h.Persists h' := by
  rcases openTarget_cases hopen with ⟨-, -, rfl⟩ | ⟨_, _, _, _, -, -, -, rfl⟩ <;> rfl

theorem prepare_persists (k : Kernel κ) (kernel : κ) (h : Host) (stage : Stage) (first last : Bool) :
    h.Persists (h.prepare k kernel stage first last).2 := by
  rcases prepare_cases k kernel h stage first last with ⟨_, hready⟩ | ⟨_, h₁, _, hinput, hready⟩ |
    ⟨_, _, _, _, _, hinput, houtput, hready⟩
  · rw [hready]
    rfl
  · have hclosed : h₁.Persists (h.prepare k kernel stage first last).2 := by
      rw [hready]
      rfl
    exact (openTarget_persists hinput).trans hclosed
  · rw [hready]
    exact (openTarget_persists hinput).trans (openTarget_persists houtput)

end Host

theorem Piped.persists {last : Bool} {h h' : Host} {reader writer : Option Descriptor}
    (hpiped : Piped last h reader writer h') : h.Persists h' := by
  cases last with
  | true =>
    obtain ⟨-, -, rfl⟩ := hpiped
    rfl
  | false =>
    obtain ⟨r, w, -, -, hpipe⟩ := hpiped
    cases hpipe
    rfl

theorem forkStage_persists (k : Kernel κ) (shellName : String) (stage : Stage) (launch : Launch)
    (incoming reader writer : Option Descriptor) (h : Host) (kernel : κ) :
    h.Persists (forkStage k shellName stage launch incoming reader writer h kernel).host := by
  simp only [forkStage]
  obtain ⟨answer, world, kernel'⟩ := k.fork _ (h.world, kernel)
  cases answer <;> rfl

theorem launchStage_persists (k : Kernel κ) (shellName : String) (first last : Bool) (stage : Stage) (st : Standing κ) :
    st.host.Persists (launchStage k shellName first last stage st).host := by
  have hready := Host.prepare_persists k st.kernel st.host stage first last
  rcases launchStage_cases k shellName first last stage st with ⟨_, _, hprepare, h⟩ |
    ⟨_, _, _, hprepare, -, -, h⟩ | ⟨launch, _, reader, writer, h₂, hprepare, hpiped, h⟩
  · rw [hprepare] at hready
    rw [h]
    exact hready.trans rfl
  · rw [hprepare] at hready
    rw [h]
    exact hready.trans rfl
  · rw [hprepare] at hready
    rw [h]
    exact (hready.trans hpiped.persists).trans (forkStage_persists k shellName stage launch _ reader writer h₂ st.kernel)

/-! ## Some stages -/

/-- A child and the image that it was forked with. -/
structure Forked where
  image : Image
  child : Child
  deriving Repr, DecidableEq

/-- From the start, the first `i` stages have been forked one after the other, and the launch stands
between two iterations. -/
inductive Launches (k : Kernel κ) (shellName : String) (stages : List Stage) (start : Standing κ) :
    Nat → Standing κ → List Forked → Prop
  | start : Launches k shellName stages start 0 start []
  | step {i : Nat} {st : Standing κ} {forked : List Forked} {stage : Stage} {image : Image} {pid : Pid}
      {next : Standing κ} :
      Launches k shellName stages start i st forked → stages[i]? = some stage →
      launchStage k shellName (i = 0) (i + 1 = stages.length) stage st = .forked image pid next →
      Launches k shellName stages start (i + 1) next
        (forked ++ [{ image, child := { pid, stage := stage.name } }])

namespace Launches

variable {stages : List Stage} {start st : Standing κ} {i : Nat} {forked : List Forked}

theorem le_length (h : Launches k shellName stages start i st forked) : i ≤ stages.length := by
  cases h with
  | start => omega
  | step _ hstage _ => exact (List.getElem?_eq_some_iff.1 hstage).1

theorem length_forked (h : Launches k shellName stages start i st forked) : forked.length = i := by
  induction h with
  | start => rfl
  | step _ _ _ ih => rw [List.length_append, ih, List.length_singleton]

/-- Every stage so far has been forked once, in its order, with its name and its arguments. -/
theorem names (h : Launches k shellName stages start i st forked) :
    forked.map (fun f => (f.child.stage, f.image.arguments)) =
      (stages.take i).map fun s => (s.name, s.name :: s.arguments) := by
  induction h with
  | start => rfl
  | step _ hstage hstep ih =>
    have harguments := launchStage_arguments hstep
    simp [List.take_add_one, ih, hstage, harguments]

/-- Nothing is known about the children yet. -/
theorem alive (h : Launches k shellName stages start i st forked) :
    ∀ f ∈ forked, f.child.status = .alive := by
  induction h with
  | start => simp
  | step _ _ _ ih => simpa [or_imp, forall_and] using ih

theorem persists (h : Launches k shellName stages start i st forked) : start.host.Persists st.host := by
  induction h with
  | start => rfl
  | @step i st _ stage _ _ _ _ _ hstep ih =>
    have hpersists := launchStage_persists k shellName (i = 0) (i + 1 = stages.length) stage st
    rw [hstep] at hpersists
    exact ih.trans hpersists

/-- A launch that has forked some stages stands in one way. -/
theorem unique {st' : Standing κ} {forked' : List Forked} (h : Launches k shellName stages start i st forked)
    (h' : Launches k shellName stages start i st' forked') : st' = st ∧ forked' = forked := by
  induction h generalizing st' forked' with
  | start =>
    cases h'
    exact ⟨rfl, rfl⟩
  | step _ hstage hstep ih =>
    cases h' with
    | step hreach' hstage' hstep' =>
      obtain ⟨rfl, rfl⟩ := ih hreach'
      cases hstage.symm.trans hstage'
      cases hstep.symm.trans hstep'
      exact ⟨rfl, rfl⟩

/-- Every stage that a launch has passed was forked. -/
theorem exists_forked {j : Nat} (h : Launches k shellName stages start i st forked) (hlt : j < i) :
    ∃ st forked stage image pid next, Launches k shellName stages start j st forked ∧ stages[j]? = some stage ∧
      launchStage k shellName (j = 0) (j + 1 = stages.length) stage st = .forked image pid next := by
  induction h with
  | start => omega
  | @step i st forked stage image pid next hreach hstage hstep ih =>
    rcases Nat.lt_succ_iff_lt_or_eq.1 hlt with hlt | rfl
    · exact ih hlt
    · exact ⟨st, forked, stage, image, pid, next, hreach, hstage, hstep⟩

/-- The stages that are not forked yet count for nothing, except that there are any. -/
theorem congr {stages' : List Stage} {i' : Nat} (h : Launches k shellName stages start i st forked)
    (hi : i ≤ i') (htake : stages'.take i' = stages.take i')
    (hlast : stages'.length = i' ↔ stages.length = i')
    (hle : i' ≤ stages.length) : Launches k shellName stages' start i st forked := by
  have hlen := congrArg List.length htake
  simp only [List.length_take] at hlen
  induction h with
  | start => exact .start
  | @step i st forked stage image pid next _ hstage hstep ih =>
    refine .step (ih (by omega)) ?_ ?_
    · rw [← hstage, ← List.getElem?_take_of_lt (show i < i' by omega), htake,
        List.getElem?_take_of_lt (by omega)]
    · have hend : (i + 1 = stages'.length) = (i + 1 = stages.length) := by
        apply propext
        omega
      simpa only [hend] using hstep

end Launches

/-! ## A whole launch -/

/-- How a launch ends that has come as far as `st`: behind the last stage, or at one that fails. -/
def Ends (k : Kernel κ) (shellName : String) (stages : List Stage) (i : Nat) (st : Standing κ)
    (failure : Option LaunchError) (host : Host) (kernel : κ) : Prop :=
  match failure with
  | none => i = stages.length ∧ host = st.host.closeAll st.incoming.toList ∧ kernel = st.kernel
  | some e => ∃ stage, stages[i]? = some stage ∧ e.stage = stage.name ∧
      launchStage k shellName (i = 0) (i + 1 = stages.length) stage st = .failed e.cause host kernel

/-- A launch from one stage on is the launch of that stage and of those behind it. -/
theorem launchFrom_drop_eq {stages : List Stage} {i : Nat} {stage : Stage} (st : Standing κ)
    (hstage : stages[i]? = some stage) :
    launchFrom k shellName (i = 0) (stages.drop i) st =
      match launchStage k shellName (i = 0) (i + 1 = stages.length) stage st with
      | .failed cause host kernel => ⟨[], some ⟨stage.name, cause⟩, host, kernel⟩
      | .forked _ pid next =>
        let r := launchFrom k shellName (i + 1 = 0) (stages.drop (i + 1)) next
        { r with children := { pid, stage := stage.name } :: r.children } := by
  obtain ⟨hlt, rfl⟩ := List.getElem?_eq_some_iff.1 hstage
  have hlast : (stages.drop (i + 1)).isEmpty = decide (i + 1 = stages.length) := by
    rw [Bool.eq_iff_iff, List.isEmpty_iff_length_eq_zero, List.length_drop, decide_eq_true_iff]
    omega
  rw [List.drop_eq_getElem_cons hlt, launchFrom, hlast]
  rfl

/-- A launch that has come as far as `st` goes on from there. -/
theorem Launches.launchFrom_eq {stages : List Stage} {start st : Standing κ} {i : Nat} {forked : List Forked}
    (h : Launches k shellName stages start i st forked) :
    launchFrom k shellName true stages start =
      let r := launchFrom k shellName (i = 0) (stages.drop i) st
      { r with children := forked.map (·.child) ++ r.children } := by
  induction h with
  | start => rfl
  | step _ hstage hstep ih =>
    rw [ih, launchFrom_drop_eq _ hstage, hstep]
    simp

/-- A launch goes on to the end, or to the first stage that fails. -/
theorem launchFrom_drop {stages : List Stage} {start st : Standing κ} {i : Nat} {forked : List Forked}
    (h : Launches k shellName stages start i st forked) :
    ∃ j st' more, Launches k shellName stages start j st' (forked ++ more) ∧
      (launchFrom k shellName (i = 0) (stages.drop i) st).children = more.map (·.child) ∧
      Ends k shellName stages j st' (launchFrom k shellName (i = 0) (stages.drop i) st).failure
        (launchFrom k shellName (i = 0) (stages.drop i) st).host
        (launchFrom k shellName (i = 0) (stages.drop i) st).kernel := by
  -- along the stages that are left
  generalize hrest : stages.drop i = rest
  induction rest generalizing i st forked with
  | nil =>
    have hi : i = stages.length := by
      have := List.drop_eq_nil_iff.1 hrest
      have := h.le_length
      omega
    exact ⟨i, st, [], by simpa using h, rfl, hi, rfl, rfl⟩
  | cons stage later ih =>
    have hstage : stages[i]? = some stage := by
      have := congrArg List.head? hrest
      simpa using this
    have hlater : stages.drop (i + 1) = later := by
      rw [← List.tail_drop, hrest, List.tail_cons]
    rw [← hrest, launchFrom_drop_eq st hstage]
    cases hstep : launchStage k shellName (i = 0) (i + 1 = stages.length) stage st with
    | failed cause host kernel => exact ⟨i, st, [], by simpa using h, rfl, stage, hstage, rfl, hstep⟩
    | forked image pid next =>
      obtain ⟨j, st', more, hreach, hchildren, hends⟩ := ih (h.step hstage hstep) hlater
      rw [← hlater] at hchildren hends
      refine ⟨j, st', { image, child := { pid, stage := stage.name } } :: more, ?_, ?_, hends⟩
      · simpa using hreach
      · simpa using hchildren

theorem exists_launches (k : Kernel κ) (shellName : String) (stages : List Stage) (start : Standing κ) :
    ∃ i st forked, Launches k shellName stages start i st forked ∧
      (launchFrom k shellName true stages start).children = forked.map (·.child) ∧
      Ends k shellName stages i st (launchFrom k shellName true stages start).failure
        (launchFrom k shellName true stages start).host
        (launchFrom k shellName true stages start).kernel := by
  obtain ⟨j, st, more, hreach, hends⟩ :=
    launchFrom_drop (show Launches k shellName stages start 0 start [] from .start)
  exact ⟨j, st, more, by simpa using hreach, by simpa using hends⟩

theorem launchFrom_persists (k : Kernel κ) (shellName : String) (first : Bool) (stages : List Stage) (st : Standing κ) :
    st.host.Persists (launchFrom k shellName first stages st).host := by
  induction stages generalizing first st with
  | nil => rfl
  | cons stage later ih =>
    have hstep := launchStage_persists k shellName first later.isEmpty stage st
    rw [launchFrom]
    split
    · rename_i heq
      rwa [heq] at hstep
    · rename_i heq
      rw [heq] at hstep
      exact hstep.trans (ih false _)

/-- A host with one program, which is found under its name. -/
def Host.withProgram : Host :=
  .start { nodes := #[.directory FileTree.root [("x", 1)], .program "x"] } FileTree.root FileTree.root
    [("PATH", "/")]

example : (launchFrom (Machine.kernel fun _ => none) "sh" true [{ name := "x" }, { name := "y" }]
    { host := .withProgram, kernel := {} }).failure = some ⟨"y", .notFound⟩ := by decide

end LineShell
