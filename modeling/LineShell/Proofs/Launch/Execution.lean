import LineShell.Proofs.Launch.Recording
import LineShell.Proofs.Launch.Wiring

/-!
# What executing a pipeline comes to

Where pipes and forks succeed, a launch can only fail because a stage is not ready (`exists_stop`).
`execute_pipeline` says what follows for the whole execution: which stages are forked, which bytes
are emitted, what is waited for, which job is left running, and with which outcome; and that the
stages behind one that fails count for nothing.
-/

namespace LineShell

variable {κ : Type u} {k : Kernel κ} {shellName : String}

/-! ## The end of a launch -/

/-- A launch stops behind the last stage, or at one that cannot be made ready. -/
def Stops (k : Kernel κ) (stages : List Stage) (i : Nat) (st : Standing κ)
    (failure : Option (Stage × LaunchCause)) : Prop :=
  match failure with
  | none => i = stages.length
  | some (stage, cause) => stages[i]? = some stage ∧
      (st.host.prepare k st.kernel stage (i = 0) (i + 1 = stages.length)).1 = .error cause

/-- What the launch of a host comes to that has forked some stages and stops. -/
def Launched.ofStop (h : Host) (world : World) (kernel : κ) (forked : List Forked)
    (failure : Option (Stage × LaunchCause)) : Launched κ where
  children := forked.map (·.child)
  failure := failure.map fun f => ⟨f.1.name, f.2⟩
  host := { h with world }
  kernel := kernel

theorem launchStage_of_unready {first last : Bool} {stage : Stage} {st : Standing κ} {cause : LaunchCause}
    (hprepare : (st.host.prepare k st.kernel stage first last).1 = .error cause) :
    launchStage k shellName first last stage st =
      .failed cause ((st.host.prepare k st.kernel stage first last).2.closeAll st.incoming.toList) st.kernel := by
  unfold launchStage
  cases hready : st.host.prepare k st.kernel stage first last with | mk result h =>
  rw [hready] at hprepare
  obtain rfl : result = .error cause := hprepare
  rfl

/-- Where pipes and forks succeed, a stage fails only because it is not ready. -/
theorem unready_of_launchStage_failed (hpipe : ∀ system, k.pipeFault system = none)
    (hfork : ∀ image system, ∃ pid, (k.fork image system).1 = .ok pid) {first last : Bool} {stage : Stage}
    {st : Standing κ} {cause : LaunchCause} {h : Host} {kernel : κ}
    (hstep : launchStage k shellName first last stage st = .failed cause h kernel) :
    (st.host.prepare k st.kernel stage first last).1 = .error cause := by
  rcases launchStage_cases k shellName first last stage st with ⟨cause', h₁, hprepare, hcase⟩ |
    ⟨_, _, _, _, _, hfault, _⟩ | ⟨launch, h₁, _, _, h₂, _, _, hcase⟩
  · cases hcase.symm.trans hstep
    rw [hprepare]
  · rw [hpipe] at hfault
    cases hfault
  · rw [hcase] at hstep
    simp only [forkStage] at hstep
    split at hstep
    · rename_i heq
      obtain ⟨pid, hpid⟩ := hfork _ _
      rw [heq] at hpid
      cases hpid
    · cases hstep

/-- A launch forks stages until it stops; of the host only the world is different then, and of the
world at the end only an open file that nobody holds. -/
theorem exists_stop (hpipe : ∀ system, k.pipeFault system = none)
    (hfork : ∀ image system, ∃ pid, (k.fork image system).1 = .ok pid) (shellName : String)
    (stages : List Stage) (h : Host) (kernel : κ) :
    ∃ i st forked failure world, Launches k shellName stages { host := h, kernel } i st forked ∧
      Stops k stages i st failure ∧ st.host.world.Spared world ∧
      launchFrom k shellName true stages { host := h, kernel } = .ofStop h world st.kernel forked failure := by
  obtain ⟨i, st, forked, hreach, hchildren, hends⟩ := exists_launches k shellName stages { host := h, kernel }
  have hpersists : h.Persists _ := launchFrom_persists k shellName true stages { host := h, kernel }
  have htable := launchFrom_table k shellName stages h kernel
  generalize launchFrom k shellName true stages { host := h, kernel } = r at hchildren hends hpersists htable
  obtain ⟨children, failure, host, kernel'⟩ := r
  obtain rfl : children = forked.map (·.child) := hchildren
  have hhost : host = { h with world := host.world } :=
    Eq.trans hpersists (by rw [show host.table = h.table from htable])
  cases failure with
  | none =>
    obtain ⟨hi, hclosed, rfl⟩ := hends
    refine ⟨i, st, forked, none, host.world, hreach, hi, ?_, ?_⟩
    · rw [show host = _ from hclosed]
      exact .inl rfl
    · rw [hhost]
      rfl
  | some e =>
    obtain ⟨stage, hstage, hname, hstep⟩ := hends
    have hunready := unready_of_launchStage_failed hpipe hfork hstep
    have hopens := launchStage_opens k shellName (i = 0) (i + 1 = stages.length) stage st
    rw [hstep] at hopens
    rcases hopens with ⟨hworld, rfl⟩ | ⟨_, _, _, _, _, _, _, _, _, hready, -⟩
    · refine ⟨i, st, forked, some (stage, e.cause), host.world, hreach, ⟨hstage, hunready⟩, hworld, ?_⟩
      rw [hhost]
      simp only [Launched.ofStop, Option.map_some, ← hname]
    · rw [hready] at hunready
      cases hunready

/-- A launch that stops at a stage does so whatever stages there are behind it. -/
theorem launchFrom_of_unready {stages : List Stage} {start st : Standing κ} {i : Nat} {forked : List Forked}
    {stage : Stage} {cause : LaunchCause} (hreach : Launches k shellName stages start i st forked)
    (hstop : Stops k stages i st (some (stage, cause))) :
    launchFrom k shellName true stages start = ⟨forked.map (·.child), some ⟨stage.name, cause⟩,
      (st.host.prepare k st.kernel stage (i = 0) (i + 1 = stages.length)).2.closeAll st.incoming.toList,
      st.kernel⟩ := by
  obtain ⟨hstage, hprepare⟩ := hstop
  rw [hreach.launchFrom_eq, launchFrom_drop_eq st hstage, launchStage_of_unready hprepare]
  simp

namespace Stops

variable {stages : List Stage} {start st st' : Standing κ} {i i' : Nat} {forked forked' : List Forked}
  {failure failure' : Option (Stage × LaunchCause)} {stage : Stage} {cause : LaunchCause}

/-- A launch does not get past the place where it stops. -/
theorem le (hstop : Stops k stages i st failure) (hreach : Launches k shellName stages start i st forked)
    (hreach' : Launches k shellName stages start i' st' forked') : i' ≤ i := by
  by_contra hlt
  obtain ⟨st₁, _, stage, image, pid, next, hreach₁, hstage, hstep⟩ := hreach'.exists_forked (Nat.lt_of_not_le hlt)
  obtain ⟨rfl, -⟩ := hreach.unique hreach₁
  cases failure with
  | none => exact absurd hstop (Nat.ne_of_lt (List.getElem?_eq_some_iff.1 hstage).1)
  | some f =>
    obtain ⟨hstage', hprepare⟩ := hstop
    cases hstage.symm.trans hstage'
    cases (launchStage_of_unready hprepare).symm.trans hstep

theorem eq_of_some (hstop : Stops k stages i st (some (stage, cause))) (hstop' : Stops k stages i st failure) :
    failure = some (stage, cause) := by
  obtain ⟨hstage, hprepare⟩ := hstop
  cases failure with
  | none => exact absurd hstop' (Nat.ne_of_lt (List.getElem?_eq_some_iff.1 hstage).1)
  | some f =>
    obtain ⟨hstage', hprepare'⟩ := hstop'
    obtain rfl := Option.some.inj (hstage.symm.trans hstage')
    obtain rfl := Except.error.inj (hprepare.symm.trans hprepare')
    rfl

/-- A launch that stops at a stage stops nowhere else, and for no other reason. -/
theorem unique (hreach : Launches k shellName stages start i st forked)
    (hstop : Stops k stages i st (some (stage, cause))) (hreach' : Launches k shellName stages start i' st' forked')
    (hstop' : Stops k stages i' st' failure) :
    i' = i ∧ st' = st ∧ forked' = forked ∧ failure = some (stage, cause) := by
  obtain rfl : i' = i := Nat.le_antisymm (hstop.le hreach hreach') (hstop'.le hreach' hreach)
  obtain ⟨rfl, rfl⟩ := hreach.unique hreach'
  exact ⟨rfl, rfl, rfl, hstop.eq_of_some hstop'⟩

end Stops

namespace Shell

variable {s s' : Shell κ} {p p' : Pipeline}

/-! ## Diagnostics -/

/-- The shell emits some bytes as a diagnostic. They are kept behind what was kept before, or go to
its standard error: where that is a stream of the shell they are what comes next there, and where
the descriptor leads elsewhere they are written, or lost. Nothing else is different. -/
def Emits (s : Shell κ) (bytes : Bytes) (s' : Shell κ) : Prop :=
  match s.diagnostics with
  | .kept text => s' = { s with diagnostics := .kept (text ++ bytes) }
  | .shown => ∃ world, s' = { s with host := { s.host with world } } ∧
      match (s.host.table.file? Descriptor.error).bind s.host.world.file? with
      | some .error => world = { s.host.world with err := s.host.world.err ++ bytes }
      | some .output => world = { s.host.world with out := s.host.world.out ++ bytes }
      | _ => world = s.host.world ∨
          ∃ f, s.host.table.file? Descriptor.error = some f ∧ s.host.world.write f bytes = .ok world

theorem emit_emits (s : Shell κ) (text : String) : s.Emits (Utf8.ofString text) (s.emit text) := by
  unfold Emits emit
  cases s.diagnostics with
  | kept kept => rfl
  | shown =>
    simp only [Host.write]
    cases hfile : s.host.table.file? Descriptor.error with
    | none => exact ⟨_, rfl, .inl rfl⟩
    | some f =>
      dsimp only [Option.bind_some]
      cases hwrite : s.host.world.write f (Utf8.ofString text) with
      | ok world =>
        refine ⟨world, rfl, ?_⟩
        split
        · rename_i hopen
          simpa [World.write, hopen, eq_comm] using hwrite
        · rename_i hopen
          simpa [World.write, hopen, eq_comm] using hwrite
        · exact .inr ⟨f, rfl, hwrite⟩
      | error e =>
        refine ⟨s.host.world, rfl, ?_⟩
        split
        · rename_i hopen
          simp [World.write, hopen] at hwrite
        · rename_i hopen
          simp [World.write, hopen] at hwrite
        · exact .inl rfl

/-- The line that reports a failure. -/
def diagnostic (s : Shell κ) (stage : Stage) (cause : LaunchCause) : String :=
  "-" ++ s.config.name ++ ": " ++ stage.name ++ ": " ++ cause.message ++ "\n"

/-- The shell emits one diagnostic for a failure, and none if there is none. -/
def Reports (s : Shell κ) (failure : Option (Stage × LaunchCause)) (s' : Shell κ) : Prop :=
  match failure with
  | none => s' = s
  | some (stage, cause) => s.Emits (Utf8.ofString (s.diagnostic stage cause)) s'

theorem Emits.rest {bytes : Bytes} (h : s.Emits bytes s') :
    s'.jobs = s.jobs ∧ s'.kernel = s.kernel ∧ s'.host.table = s.host.table := by
  unfold Emits at h
  cases hdiagnostics : s.diagnostics with
  | kept text =>
    rw [hdiagnostics] at h
    obtain rfl := h
    exact ⟨rfl, rfl, rfl⟩
  | shown =>
    rw [hdiagnostics] at h
    obtain ⟨_, rfl, -⟩ := h
    exact ⟨rfl, rfl, rfl⟩

theorem Reports.rest {failure : Option (Stage × LaunchCause)} (h : s.Reports failure s') :
    s'.jobs = s.jobs ∧ s'.kernel = s.kernel ∧ s'.host.table = s.host.table := by
  cases failure with
  | none =>
    obtain rfl := h
    exact ⟨rfl, rfl, rfl⟩
  | some f => exact Emits.rest h

theorem withLaunched_reports (s : Shell κ) (h : Host) (world : World) (kernel : κ) (forked : List Forked)
    (failure : Option (Stage × LaunchCause)) :
    Reports { s with host := { h with world }, kernel } failure
      (s.withLaunched (.ofStop h world kernel forked failure)) := by
  cases failure with
  | none => rfl
  | some f =>
    have hline : (withLaunched s (.ofStop h world kernel forked (some f))) =
        emit { s with host := { h with world }, kernel } (s.diagnostic f.1 f.2) := by
      simp [withLaunched, Launched.ofStop, diagnostic, report, LaunchError.message, String.append_assoc]
    rw [hline]
    exact emit_emits _ _

/-! ## The whole execution -/

/-- The status that stands for a failure, if there is one. -/
def stoppedStatus (failure : Option (Stage × LaunchCause)) : Option UInt8 :=
  failure.map fun f => if f.2 = .notFound then 127 else 1

theorem depthBound_eq_succ (s : Shell κ) : ∃ depth, s.depthBound = depth + 1 := by
  unfold depthBound
  split <;> exact ⟨_, rfl⟩

theorem execute_eq_runStages (k : Kernel κ) (s : Shell κ) (hname : p.head.name.toList ≠ [])
    (hbuiltin : Builtin.ofName? p.head.name = none) : s.execute k p = some (s.runStages k p) := by
  obtain ⟨depth, hdepth⟩ := s.depthBound_eq_succ
  rw [execute, hdepth, executeWithin, if_neg (by simpa using hname), hbuiltin]

theorem ofStop_status (h : Host) (world : World) (kernel : κ) (forked : List Forked)
    (failure : Option (Stage × LaunchCause)) :
    (Launched.ofStop h world kernel forked failure).failure.map (·.status) = stoppedStatus failure := by
  simp [Launched.ofStop, stoppedStatus, LaunchError.status, Function.comp_def, statusNotFound]

/-- What is launched in the background becomes a job, if there is anything. -/
theorem conclude_background (k : Kernel κ) (s : Shell κ) (h : Host) (world : World) (kernel : κ)
    (forked : List Forked) (failure : Option (Stage × LaunchCause)) (hany : forked = [] → failure.isSome) :
    s.conclude k true (.ofStop h world kernel forked failure) =
      ((stoppedStatus failure).elim .detached .done,
        { s.withLaunched (.ofStop h world kernel forked failure) with
          jobs := ⟨s.jobs.jobs ++ if forked = [] then [] else [⟨forked.map (·.child)⟩]⟩ }) := by
  have hjobs : (s.withLaunched (.ofStop h world kernel forked failure)).jobs = s.jobs :=
    (s.withLaunched_reports h world kernel forked failure).rest.1
  simp only [conclude, ofStop_status]
  cases forked with
  | nil =>
    obtain ⟨f, rfl⟩ := Option.isSome_iff_exists.1 (hany rfl)
    simp [Launched.ofStop, Job.isEmpty, stoppedStatus, ← hjobs]
  | cons f fs => simp [Launched.ofStop, Job.isEmpty, JobSet.push, ← hjobs]

/-- What is launched in the foreground is waited for. -/
theorem conclude_foreground (s : Shell (κ × List Event)) (h : Host) (world : World) (kernel : κ × List Event)
    (forked : List Forked) (failure : Option (Stage × LaunchCause)) (hany : forked = [] → failure.isSome)
    (halive : ∀ f ∈ forked, f.child.status = .alive) :
    ∃ (rounds : List Round) (world' : World) (kernel' : κ),
      rounds.map (·.pid) = forked.map (·.child.pid) ∧ (∀ r ∈ rounds, r.Settles) ∧
      k.InRounds h.table rounds
        ((s.withLaunched (.ofStop h world kernel forked failure)).host.world, kernel.1) (world', kernel') ∧
      s.conclude k.recording false (.ofStop h world kernel forked failure) =
        (.done ((stoppedStatus failure).getD ((rounds.getLast?.map (·.status.code)).getD 0)),
          { s.withLaunched (.ofStop h world kernel forked failure) with
            host := { (s.withLaunched (.ofStop h world kernel forked failure)).host with world := world' }
            kernel := (kernel', kernel.2 ++ rounds.flatMap (·.events h.table)) }) := by
  obtain ⟨-, hkernel, htable⟩ := (s.withLaunched_reports h world kernel forked failure).rest
  simp only [conclude, ofStop_status]
  generalize s.withLaunched (.ofStop h world kernel forked failure) = s' at hkernel htable
  simp only at hkernel htable
  subst hkernel
  rw [← htable]
  cases forked with
  | nil =>
    obtain ⟨f, rfl⟩ := Option.isSome_iff_exists.1 (hany rfl)
    refine ⟨[], s'.host.world, s'.kernel.1, rfl, by simp, rfl, ?_⟩
    simp [Launched.ofStop, Job.isEmpty, stoppedStatus]
  | cons f fs =>
    obtain ⟨rounds, hpids, hsettles, hcode, hrounds, hrecord⟩ :=
      Job.wait_record k s'.host.table ⟨(f :: fs).map (·.child)⟩ (by simpa using halive) s'.system
    generalize hwait : Job.wait (k.recording.waiter s'.host.table) ⟨(f :: fs).map (·.child)⟩ s'.system = r
      at hcode hrounds hrecord
    obtain ⟨job, world', kernel', record⟩ := r
    refine ⟨rounds, world', kernel', by simpa [Job.pids, Function.comp_def] using hpids, hsettles, hrounds, ?_⟩
    simp only at hcode hrecord
    simp only [Launched.ofStop, hwait, hcode, hrecord]
    rfl

/-- Stages behind one that fails count for nothing, except that there are any. -/
theorem execute_congr {i : Nat} {st : Standing κ} {forked : List Forked} {stage : Stage} {cause : LaunchCause}
    (hreach : Launches k s.config.name p.stages { host := s.host, kernel := s.kernel } i st forked)
    (hstop : Stops k p.stages i st (some (stage, cause)))
    (hbackground : p'.isBackground = p.isBackground)
    (htake : p'.stages.take (i + 1) = p.stages.take (i + 1))
    (hlast : p'.stages.length = i + 1 ↔ p.stages.length = i + 1) :
    s.runStages k p' = s.runStages k p := by
  have hlt := (List.getElem?_eq_some_iff.1 hstop.1).1
  have hreach' := hreach.congr (Nat.le_succ i) htake hlast hlt
  have hend : (i + 1 = p'.stages.length) = (i + 1 = p.stages.length) := by
    apply propext
    omega
  have hstop' : Stops k p'.stages i st (some (stage, cause)) := by
    refine ⟨?_, by simpa only [hend] using hstop.2⟩
    rw [← hstop.1, ← List.getElem?_take_of_lt (Nat.lt_succ_self i), htake,
      List.getElem?_take_of_lt (Nat.lt_succ_self i)]
  simp only [runStages, hbackground, launchFrom_of_unready hreach hstop, launchFrom_of_unready hreach' hstop', hend]

/-- Executing a pipeline that is no builtin, where pipes and forks succeed. The first `i` stages are
forked, each with its name and its arguments, where the next one is the first that cannot be made ready, or there is
no next one. For a failure one diagnostic is emitted, and otherwise none; the stages behind it count for nothing. In
the background the children become the last of the jobs, if there are any, and nothing is waited for. In the
foreground every child is waited for, one after the other, and the jobs stay as they are. -/
theorem execute_pipeline (k : Kernel κ) (s : Shell (κ × List Event)) (p : Pipeline)
    (hname : p.head.name.toList ≠ []) (hbuiltin : Builtin.ofName? p.head.name = none)
    (hpipe : ∀ system, k.pipeFault system = none)
    (hfork : ∀ image system, ∃ pid, (k.fork image system).1 = .ok pid) :
    ∃ (i : Nat) (st : Standing (κ × List Event)) (forked : List Forked)
      (failure : Option (Stage × LaunchCause)) (world : World) (s' : Shell (κ × List Event)),
      Launches k.recording s.config.name p.stages { host := s.host, kernel := s.kernel } i st forked ∧
      Stops k.recording p.stages i st failure ∧
      forked.map (fun f => (f.child.stage, f.image.arguments)) =
        (p.stages.take i).map (fun stage => (stage.name, stage.name :: stage.arguments)) ∧
      st.kernel.2 = s.kernel.2 ++ forked.map (fun f => .fork f.image (.ok f.child.pid)) ∧
      st.host.world.Spared world ∧
      Reports { s with host := { s.host with world }, kernel := st.kernel } failure s' ∧
      (p.isBackground = true → s.execute k.recording p =
        some ((stoppedStatus failure).elim .detached .done,
          { s' with jobs := ⟨s.jobs.jobs ++ if i = 0 then [] else [⟨forked.map (·.child)⟩]⟩ })) ∧
      (p.isBackground = false → ∃ (rounds : List Round) (world' : World) (kernel' : κ),
        rounds.map (·.pid) = forked.map (·.child.pid) ∧ (∀ r ∈ rounds, r.Settles) ∧
        k.InRounds s.host.table rounds (s'.host.world, st.kernel.1) (world', kernel') ∧
        s.execute k.recording p =
          some (.done ((stoppedStatus failure).getD ((rounds.getLast?.map (·.status.code)).getD 0)),
            { s' with
              host := { s'.host with world := world' }
              kernel := (kernel', st.kernel.2 ++ rounds.flatMap (·.events s.host.table)) })) ∧
      (failure.isSome → ∀ p' : Pipeline, p'.isBackground = p.isBackground →
        p'.stages.take (i + 1) = p.stages.take (i + 1) →
        (p'.stages.length = i + 1 ↔ p.stages.length = i + 1) →
        s.execute k.recording p' = s.execute k.recording p) := by
  obtain ⟨i, st, forked, failure, world, hreach, hstop, hworld, hlaunch⟩ :=
    exists_stop (k := k.recording) (fun _ => hpipe _) (fun _ _ => hfork _ _) s.config.name p.stages s.host s.kernel
  have hexecute := execute_eq_runStages k.recording s hname hbuiltin
  have hrun : s.runStages k.recording p =
      s.conclude k.recording p.isBackground (.ofStop s.host world st.kernel forked failure) := by
    simp only [runStages, hlaunch]
  have hzero : forked = [] ↔ i = 0 := by rw [← hreach.length_forked, List.length_eq_zero_iff]
  have hany : forked = [] → failure.isSome := by
    intro hnil
    cases failure with
    | some f => rfl
    | none =>
      have : 0 = p.stages.length := (hzero.1 hnil).symm.trans hstop
      simp [Pipeline.stages] at this
  refine ⟨i, st, forked, failure, world, _, hreach, hstop, hreach.names, hreach.record, hworld,
    s.withLaunched_reports s.host world st.kernel forked failure, fun hback => ?_, fun hfore => ?_, ?_⟩
  · rw [hexecute, hrun, hback, conclude_background _ s s.host world st.kernel forked failure hany]
    simp only [hzero]
  · obtain ⟨rounds, world', kernel', hpids, hsettles, hrounds, hconclude⟩ :=
      conclude_foreground (k := k) s s.host world st.kernel forked failure hany hreach.alive
    exact ⟨rounds, world', kernel', hpids, hsettles, hrounds, by rw [hexecute, hrun, hfore, hconclude]⟩
  · intro hsome p' hbackground htake hlast
    obtain ⟨⟨stage, cause⟩, rfl⟩ := Option.isSome_iff_exists.1 hsome
    have hhead : p'.head = p.head := by
      simp only [Pipeline.stages, List.take_succ_cons, List.cons.injEq] at htake
      exact htake.1
    rw [hexecute, execute_eq_runStages k.recording s (hhead ▸ hname) (hhead ▸ hbuiltin),
      execute_congr hreach hstop hbackground htake hlast]

/-- A pipeline of two stages, the second of which is unknown. -/
def unknownSecond (background : Bool) : Pipeline := ⟨{ name := "x" }, [{ name := "y", background }]⟩

theorem exists_stop_unknown (background : Bool) : ∃ st forked,
    Launches (Machine.kernel fun _ => none).recording "sh" (unknownSecond background).stages
      { host := .withProgram, kernel := ({}, []) } 1 st forked ∧
    Stops (Machine.kernel fun _ => none).recording (unknownSecond background).stages 1 st
      (some ({ name := "y", background }, .notFound)) ∧
    forked.map (·.child) = [{ pid := 1000, stage := "x" }] ∧ st.host.world.err = [] ∧
    st.host.world.file? 2 = some .error := by
  cases background with
  | false =>
    have hreach : Launches (Machine.kernel fun _ => none).recording "sh" (unknownSecond false).stages
        { host := .withProgram, kernel := ({}, []) } 1 _ _ := .step .start rfl rfl
    exact ⟨_, _, hreach, ⟨rfl, rfl⟩, rfl, rfl, rfl⟩
  | true =>
    have hreach : Launches (Machine.kernel fun _ => none).recording "sh" (unknownSecond true).stages
        { host := .withProgram, kernel := ({}, []) } 1 _ _ := .step .start rfl rfl
    exact ⟨_, _, hreach, ⟨rfl, rfl⟩, rfl, rfl, rfl⟩

/-- The first stage is forked, in the foreground and in the background, and one diagnostic is emitted: behind what was
kept, or to the standard error of the shell. In the background the child becomes a job. -/
theorem execute_pipeline_unknown :
    (∃ s', (start { name := "sh", dataDir := "/" } (.kept [33]) .withProgram (({}, []) : Machine × List Event)).execute
        (Machine.kernel fun _ => none).recording (unknownSecond false) = some (.done 127, s') ∧
      s'.diagnostics = .kept (33 :: Utf8.ofString "-sh: y: command not found\n") ∧ s'.jobs.jobs = []) ∧
    ∃ s', (start { name := "sh", dataDir := "/" } .shown .withProgram (({}, []) : Machine × List Event)).execute
        (Machine.kernel fun _ => none).recording (unknownSecond true) = some (.done 127, s') ∧
      s'.host.world.err = Utf8.ofString "-sh: y: command not found\n" ∧
      s'.jobs.jobs = [⟨[{ pid := 1000, stage := "x" }]⟩] := by
  refine ⟨?_, ?_⟩
  · obtain ⟨st₁, forked₁, hreach, hstop, -, -, -⟩ := exists_stop_unknown false
    obtain ⟨i, st, forked, failure, world, s', hreach', hstop', -, -, -, hreports, -, hforeground, -⟩ :=
      execute_pipeline (Machine.kernel fun _ => none)
        (start { name := "sh", dataDir := "/" } (.kept [33]) .withProgram ({}, [])) (unknownSecond false)
        (by decide) (by decide) (fun _ => rfl) (fun _ _ => ⟨_, rfl⟩)
    obtain ⟨rfl, rfl, rfl, rfl⟩ := Stops.unique hreach hstop hreach' hstop'
    obtain ⟨rounds, world', kernel', -, -, -, hexecute⟩ := hforeground rfl
    obtain rfl := hreports
    exact ⟨_, hexecute, congrArg (fun line => Diagnostics.kept ([33] ++ Utf8.ofString line)) rfl, rfl⟩
  · obtain ⟨st₁, forked₁, hreach, hstop, hchildren, herr, hopen⟩ := exists_stop_unknown true
    obtain ⟨i, st, forked, failure, world, s', hreach', hstop', -, -, hworld, hreports, hbackground, -, -⟩ :=
      execute_pipeline (Machine.kernel fun _ => none)
        (start { name := "sh", dataDir := "/" } .shown .withProgram ({}, [])) (unknownSecond true)
        (by decide) (by decide) (fun _ => rfl) (fun _ _ => ⟨_, rfl⟩)
    obtain ⟨rfl, rfl, rfl, rfl⟩ := Stops.unique hreach hstop hreach' hstop'
    obtain ⟨world', rfl, hwritten⟩ := hreports
    have hstream : (Host.withProgram.table.file? Descriptor.error).bind world.file? = some .error :=
      hworld.file? hopen
    have hline : world' = { world with err := world.err ++ Utf8.ofString "-sh: y: command not found\n" } := by
      simp only [start, hstream] at hwritten
      exact hwritten
    refine ⟨_, hbackground rfl, ?_, ?_⟩
    · rw [hline, hworld.err, herr]
      rfl
    · simp only [hchildren]
      rfl

end Shell

end LineShell
