import LineShell.Proofs.Job.Mirror
import LineShell.Proofs.Launch.Steps
import LineShell.Shell.Execute

/-!
# What is asked of the kernel

`Kernel.recording` is a kernel that keeps a record of all forks and waits with their answers, and
otherwise does what another does: forgetting the record, a shell runs on it as on that one
(`runStages_recording`). `Launches.record` and `Job.wait_record` say what the launch of stages and
the wait for a job add to the record.
-/

namespace LineShell

variable {κ : Type u} {k : Kernel κ} {shellName : String} {table : DescriptorTable}

/-- A question that the shell asked, and the answer. -/
inductive Event where
  | fork (image : Image) (answer : Except Errno Pid)
  | wait (table : DescriptorTable) (pid : Pid) (mode : WaitMode) (answer : WaitAnswer)

/-- A kernel that keeps a record of forks and waits. -/
def Kernel.recording (k : Kernel κ) : Kernel (κ × List Event) where
  openFault path mode s := k.openFault path mode (s.1, s.2.1)
  pipeFault s := k.pipeFault (s.1, s.2.1)
  fork image s :=
    let (answer, world, kernel) := k.fork image (s.1, s.2.1)
    (answer, world, kernel, s.2.2 ++ [.fork image answer])
  wait table pid mode s :=
    let (answer, world, kernel) := k.wait table pid mode (s.1, s.2.1)
    (answer, world, kernel, s.2.2 ++ [.wait table pid mode answer])
  patience table s := k.patience table (s.1, s.2.1)
  patience_lt table pid mode s := k.patience_lt table pid mode (s.1, s.2.1)

/-! ## Forks -/

theorem Kernel.recording_fork (image : Image) (w : World) (s : κ × List Event) :
    k.recording.fork image (w, s) = ((k.fork image (w, s.1)).1, (k.fork image (w, s.1)).2.1,
      (k.fork image (w, s.1)).2.2, s.2 ++ [.fork image (k.fork image (w, s.1)).1]) := rfl

theorem forkStage_record {stage : Stage} {launch : Launch} {incoming reader writer : Option Descriptor}
    {h : Host} {kernel : κ × List Event} {image : Image} {pid : Pid} {next : Standing (κ × List Event)}
    (hfork : forkStage k.recording shellName stage launch incoming reader writer h kernel =
      .forked image pid next) :
    next.kernel.2 = kernel.2 ++ [.fork image (.ok pid)] := by
  simp only [forkStage, Kernel.recording_fork] at hfork
  split at hfork
  · cases hfork
  · rename_i heq
    cases hfork
    simp only [Prod.mk.injEq] at heq
    rw [← heq.2.2, heq.1]

/-- A launch asks for nothing but the forks of its stages. -/
theorem Launches.record {stages : List Stage} {start st : Standing (κ × List Event)} {i : Nat}
    {forked : List Forked} (h : Launches k.recording shellName stages start i st forked) :
    st.kernel.2 = start.kernel.2 ++ forked.map fun f => .fork f.image (.ok f.child.pid) := by
  induction h with
  | start => simp
  | @step i st forked stage image pid next _ hstage hstep ih =>
    obtain ⟨_, _, _, _, _, -, -, hfork⟩ := exists_forkStage hstep
    rw [forkStage_record hfork, ih]
    simp

/-! ## Waits -/

/-- A blocking wait for a child: the answers that did not end it, and the one that did. -/
structure Round where
  pid : Pid
  unsettled : List WaitAnswer
  last : WaitAnswer

/-- To wait for a child again and again gives these answers, in a system that changes meanwhile. -/
def Kernel.Answers (k : Kernel κ) (table : DescriptorTable) (pid : Pid) :
    List WaitAnswer → World × κ → World × κ → Prop
  | [], s, s' => s' = s
  | a :: as, s, s' => ∃ s₁, k.wait table pid .block s = (a, s₁) ∧ k.Answers table pid as s₁ s'

/-- One child is waited for after the other. -/
def Kernel.InRounds (k : Kernel κ) (table : DescriptorTable) : List Round → World × κ → World × κ → Prop
  | [], s, s' => s' = s
  | r :: rounds, s, s' =>
    ∃ s₁, k.Answers table r.pid (r.unsettled ++ [r.last]) s s₁ ∧ k.InRounds table rounds s₁ s'

namespace Round

def Settles (r : Round) : Prop :=
  (∀ answer ∈ r.unsettled, answer.settles .block = false) ∧ r.last.settles .block = true

/-- What a wait adds to the record. -/
def events (table : DescriptorTable) (r : Round) : List Event :=
  (r.unsettled ++ [r.last]).map (.wait table r.pid .block)

/-- What is known about the child afterwards; if there is none, it counts as one that has exited. -/
def status (r : Round) : WaitStatus :=
  match r.last with
  | .ok status => status
  | .error _ => .exited 0

end Round

theorem Kernel.recording_wait (pid : Pid) (mode : WaitMode) (s : World × κ × List Event) :
    (k.recording.waiter table).wait pid mode s =
      ((k.wait table pid mode (s.1, s.2.1)).1, (k.wait table pid mode (s.1, s.2.1)).2.1,
        (k.wait table pid mode (s.1, s.2.1)).2.2,
        s.2.2 ++ [.wait table pid mode (k.wait table pid mode (s.1, s.2.1)).1]) := rfl

theorem Child.settle_record (k : Kernel κ) (table : DescriptorTable) (c : Child) (s : World × κ × List Event) :
    ∃ r : Round, r.pid = c.pid ∧ r.Settles ∧
      (c.settle (k.recording.waiter table) .block s).1.status = r.status ∧
      k.Answers table c.pid (r.unsettled ++ [r.last]) (s.1, s.2.1)
        ((c.settle (k.recording.waiter table) .block s).2.1,
          (c.settle (k.recording.waiter table) .block s).2.2.1) ∧
      (c.settle (k.recording.waiter table) .block s).2.2.2 = s.2.2 ++ r.events table := by
  -- along the answers, which run out of patience
  induction c, s using Child.settle.induct (k.recording.waiter table) .block with
  | case1 c s hunsettled ih =>
    obtain ⟨r, hpid, ⟨hall, hlast⟩, hstatus, hanswers, hrecord⟩ := ih
    have hpid' : r.pid = c.pid := by
      rw [hpid]
      split <;> rfl
    rw [← hpid, hpid'] at hanswers
    rw [Child.settle, dif_pos hunsettled]
    refine ⟨{ r with unsettled := (k.wait table c.pid .block (s.1, s.2.1)).1 :: r.unsettled }, hpid',
      ⟨List.forall_mem_cons.2 ⟨hunsettled, hall⟩, hlast⟩, hstatus, ⟨_, rfl, hanswers⟩, ?_⟩
    rw [hrecord]
    simp [Round.events, Kernel.recording_wait, hpid']
  | case2 c s hsettled =>
    rw [Child.settle, dif_neg hsettled]
    refine ⟨⟨c.pid, [], (k.wait table c.pid .block (s.1, s.2.1)).1⟩, rfl, ⟨by simp, ?_⟩, ?_,
      ⟨_, rfl, rfl⟩, ?_⟩
    · exact eq_true_of_ne_false hsettled
    · cases hanswer : (k.wait table c.pid .block (s.1, s.2.1)).1 <;>
        simp [Round.status, Kernel.recording_wait, hanswer]
    · simp [Round.events, Kernel.recording_wait]

/-- Children that nothing is known about are waited for one after the other. -/
theorem Job.pollEach_record (k : Kernel κ) (table : DescriptorTable) (cs : List Child)
    (halive : ∀ c ∈ cs, c.status = .alive)
    (s : World × κ × List Event) :
    ∃ rounds : List Round, rounds.map (·.pid) = cs.map (·.pid) ∧ (∀ r ∈ rounds, r.Settles) ∧
      (pollEach (k.recording.waiter table) .block cs s).1.map (·.status) = rounds.map (·.status) ∧
      k.InRounds table rounds (s.1, s.2.1)
        ((pollEach (k.recording.waiter table) .block cs s).2.1,
          (pollEach (k.recording.waiter table) .block cs s).2.2.1) ∧
      (pollEach (k.recording.waiter table) .block cs s).2.2.2 =
        s.2.2 ++ rounds.flatMap (·.events table) := by
  induction cs generalizing s with
  | nil => exact ⟨[], rfl, by simp, rfl, rfl, by simp [pollEach]⟩
  | cons c cs ih =>
    have hpoll : c.poll (k.recording.waiter table) .block s = c.settle (k.recording.waiter table) .block s := by
      simp [Child.poll, halive c List.mem_cons_self, WaitStatus.state]
    obtain ⟨r, hpid, hsettles, hstatus, hanswers, hrecord⟩ := c.settle_record k table s
    obtain ⟨rounds, hpids, hall, hstatuses, hrounds, hrecords⟩ :=
      ih (fun c hc => halive c (List.mem_cons_of_mem _ hc)) (c.settle (k.recording.waiter table) .block s).2
    refine ⟨r :: rounds, by simp [hpid, hpids], List.forall_mem_cons.2 ⟨hsettles, hall⟩, ?_, ?_, ?_⟩
    · simp [pollEach, hpoll, hstatus, hstatuses]
    · simp only [pollEach, hpoll]
      exact ⟨_, hpid ▸ hanswers, hrounds⟩
    · simp [pollEach, hpoll, hrecords, hrecord]

theorem Job.code_eq (j : Job) :
    j.code = ((j.children.map (·.status)).getLast?.map (·.code)).getD 0 := by
  unfold Job.code
  rw [List.getLast?_map]
  cases j.children.getLast? <;> rfl

/-- Waiting for a job asks for nothing but waits for its processes, in their order. -/
theorem Job.wait_record (k : Kernel κ) (table : DescriptorTable) (j : Job)
    (halive : ∀ c ∈ j.children, c.status = .alive)
    (s : World × κ × List Event) :
    ∃ rounds : List Round, rounds.map (·.pid) = j.pids ∧ (∀ r ∈ rounds, r.Settles) ∧
      (j.wait (k.recording.waiter table) s).1.code =
        (rounds.getLast?.map (·.status.code)).getD 0 ∧
      k.InRounds table rounds (s.1, s.2.1)
        ((j.wait (k.recording.waiter table) s).2.1, (j.wait (k.recording.waiter table) s).2.2.1) ∧
      (j.wait (k.recording.waiter table) s).2.2.2 = s.2.2 ++ rounds.flatMap (·.events table) := by
  obtain ⟨rounds, hpids, hsettles, hstatuses, hrounds, hrecord⟩ :=
    Job.pollEach_record k table j.children halive s
  refine ⟨rounds, hpids, hsettles, ?_, hrounds, hrecord⟩
  rw [Job.code_eq]
  simp only [Job.wait, hstatuses, List.getLast?_map, Option.map_map]
  rfl

/-! ## Forgetting the record -/

section Forget

variable (k)

def Standing.forget (st : Standing (κ × List Event)) : Standing κ := ⟨st.incoming, st.host, st.kernel.1⟩

def StageResult.forget : StageResult (κ × List Event) → StageResult κ
  | .forked image pid next => .forked image pid next.forget
  | .failed cause host kernel => .failed cause host kernel.1

def Launched.forget (r : Launched (κ × List Event)) : Launched κ :=
  ⟨r.children, r.failure, r.host, r.kernel.1⟩

def Shell.forget (s : Shell (κ × List Event)) : Shell κ :=
  ⟨s.config, s.editor, s.jobs, s.diagnostics, s.host, s.kernel.1⟩

theorem forkStage_recording (stage : Stage) (launch : Launch) (incoming reader writer : Option Descriptor)
    (h : Host) (kernel : κ × List Event) :
    (forkStage k.recording shellName stage launch incoming reader writer h kernel).forget =
      forkStage k shellName stage launch incoming reader writer h kernel.1 := by
  simp only [forkStage, Kernel.recording_fork]
  generalize k.fork _ (h.world, kernel.1) = answer
  obtain ⟨answer, world, kernel'⟩ := answer
  cases answer <;> rfl

theorem launchStage_recording (first last : Bool) (stage : Stage) (st : Standing (κ × List Event)) :
    (launchStage k.recording shellName first last stage st).forget =
      launchStage k shellName first last stage st.forget := by
  have hprepare : st.host.prepare k.recording st.kernel stage first last =
    st.forget.host.prepare k st.forget.kernel stage first last := rfl
  have hpipe : ∀ w, k.recording.pipeFault (w, st.kernel) = k.pipeFault (w, st.forget.kernel) := fun _ => rfl
  unfold launchStage
  rw [hprepare]
  split
  · rfl
  · split
    · exact forkStage_recording k stage _ st.incoming none none _ st.kernel
    · rw [hpipe]
      split
      · rfl
      · exact forkStage_recording k stage _ st.incoming _ _ _ st.kernel

theorem launchFrom_recording (shellName : String) (first : Bool) (stages : List Stage)
    (st : Standing (κ × List Event)) :
    (launchFrom k.recording shellName first stages st).forget =
      launchFrom k shellName first stages st.forget := by
  induction stages generalizing first st with
  | nil => rfl
  | cons stage later ih =>
    rw [launchFrom, launchFrom, ← launchStage_recording k]
    cases launchStage k.recording shellName first later.isEmpty stage st with
    | failed cause host kernel => rfl
    | forked image pid next =>
      simp only [StageResult.forget]
      rw [← ih]
      rfl

/-- Forgetting the record, the same is answered. -/
theorem Kernel.mirrors_recording (table : DescriptorTable) :
    (k.waiter table).Mirrors (k.recording.waiter table) (fun s => (s.1, s.2.1)) id := fun _ _ _ => rfl

theorem Job.pollEach_recording (table : DescriptorTable) (mode : WaitMode) (cs : List Child)
    (s : World × κ × List Event) :
    pollEach (k.waiter table) mode cs (s.1, s.2.1) =
      ((pollEach (k.recording.waiter table) mode cs s).1, (pollEach (k.recording.waiter table) mode cs s).2.1,
        (pollEach (k.recording.waiter table) mode cs s).2.2.1) := by
  have hmirror := pollEach_mirror (k.mirrors_recording table) mode cs s
  rwa [Child.renamed_id, List.map_id, List.map_id] at hmirror

theorem Shell.withLaunched_forget (s : Shell (κ × List Event)) (r : Launched (κ × List Event)) :
    s.forget.withLaunched r.forget = (s.withLaunched r).forget := by
  obtain ⟨config, editor, jobs, diagnostics, host, kernel⟩ := s
  obtain ⟨children, failure, host', kernel'⟩ := r
  cases failure with
  | none => rfl
  | some e => cases diagnostics <;> rfl

/-- A shell runs on a kernel that keeps a record as it runs on the kernel itself. -/
theorem Shell.runStages_recording (s : Shell (κ × List Event)) (p : Pipeline) :
    s.forget.runStages k p = ((s.runStages k.recording p).1, (s.runStages k.recording p).2.forget) := by
  have hlaunch := launchFrom_recording k s.config.name true p.stages ⟨none, s.host, s.kernel⟩
  simp only [runStages]
  rw [show launchFrom k s.forget.config.name true p.stages { host := s.forget.host, kernel := s.forget.kernel } =
    _ from hlaunch.symm]
  generalize launchFrom k.recording s.config.name true p.stages { host := s.host, kernel := s.kernel } = r
  simp only [conclude, withLaunched_forget]
  generalize s.withLaunched r = s'
  rw [show r.forget.children = r.children from rfl, show r.forget.failure = r.failure from rfl]
  split
  · rfl
  · split
    · rfl
    · have hwait := Job.pollEach_recording k s'.host.table .block r.children s'.system
      simp only [Job.wait]
      rw [show s'.forget.system = (s'.system.1, s'.system.2.1) from rfl,
        show s'.forget.host.table = s'.host.table from rfl, hwait]
      rfl

end Forget

end LineShell
