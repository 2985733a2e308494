import LineShell.Proofs.Shell.Nesting
import LineShell.Proofs.Shell.Children

/-!
# Sweeping a range

A sweep executes one ping for each host of its range, in ascending order, whatever the pings before it came to
(`pingEach_inTurn`). In the foreground it comes to what its last ping comes to; in the background every ping that
was forked is a job of its own (`InTurn.jobs`). `sweep_covers` puts this together.
-/

namespace LineShell

namespace SweepRange

variable {r : SweepRange} {host : Nat}

theorem mem_hosts : host ∈ r.hosts ↔ r.first ≤ host ∧ host ≤ r.last := by
  rw [hosts, List.mem_range'_1]
  omega

theorem pairwise_hosts (r : SweepRange) : r.hosts.Pairwise (· < ·) :=
  List.pairwise_lt_range'

end SweepRange

namespace Event

/-- The number of the child, if one was forked. -/
def forked? : Event → Option Pid
  | .fork _ (.ok pid) => some pid
  | _ => none

/-- The shell asked for a child, and did not wait for one. -/
def IsFork : Event → Prop
  | .fork _ _ => True
  | .wait .. => False

end Event

variable {κ : Type u} {k : Kernel κ}

/-- The launch of one stage asks for one fork at most, and for nothing else; it leaves the child that was forked, if
there is one. -/
theorem launchFrom_single (k : Kernel κ) (shellName : String) (stage : Stage) (st : Standing (κ × List Event)) :
    ∃ (events : List Event) (child : Option Pid),
      (launchFrom k.recording shellName true [stage] st).kernel.2 = st.kernel.2 ++ events ∧
      (∀ e ∈ events, e.IsFork) ∧ events.filterMap Event.forked? = child.toList ∧
      (launchFrom k.recording shellName true [stage] st).children =
        child.toList.map fun pid => { pid, stage := stage.name } := by
  rcases launchStage_cases k.recording shellName true true stage st with ⟨cause, _, -, hstep⟩ |
    ⟨_, _, _, -, hlast, -, -⟩ | ⟨launch, _, reader, writer, h, -, -, hstep⟩
  · refine ⟨[], none, ?_, by simp, rfl, ?_⟩ <;> simp [launchFrom, hstep]
  · cases hlast
  · simp only [launchFrom, List.isEmpty_nil, hstep, forkStage, Kernel.recording_fork]
    generalize k.fork _ (h.world, st.kernel.1) = answer
    obtain ⟨answer, world, kernel⟩ := answer
    cases answer with
    | error e => exact ⟨[.fork _ (.error e)], none, rfl, by simp [Event.IsFork], rfl, rfl⟩
    | ok pid => exact ⟨[.fork _ (.ok pid)], some pid, rfl, by simp [Event.IsFork], rfl, rfl⟩

namespace Shell

variable {s : Shell κ} {p : Pipeline} {depth : Nat} {subnet : String}

/-! ## One ping -/

/-- The pipeline that probes one host. -/
def ping (subnet : String) (background : Bool) (host : Nat) : Pipeline :=
  .single { pingStage subnet host with background }

/-- What is no builtin is launched, however deep the execution may go. -/
theorem executeWithin_stages (hname : p.head.name.toList ≠ []) (hbuiltin : Builtin.ofName? p.head.name = none)
    (hdepth : 0 < depth) : executeWithin k depth p s = some (s.runStages k p) := by
  obtain ⟨depth, rfl⟩ := Nat.exists_eq_succ_of_ne_zero (Nat.ne_of_gt hdepth)
  rw [executeWithin, if_neg (by simpa using hname), hbuiltin]

theorem executeWithin_ping (k : Kernel κ) (s : Shell κ) (subnet : String) (background : Bool) (host : Nat)
    (hdepth : 0 < depth) : executeWithin k depth (ping subnet background host) s =
      some (s.runStages k (ping subnet background host)) := by
  have hname : (ping subnet background host).head.name = "ping" := rfl
  exact executeWithin_stages (by rw [hname]; decide) (by rw [hname]; decide) hdepth

/-- What a launch comes to is a status, or a job that was left running. -/
theorem runStages_ne_exit (k : Kernel κ) (s : Shell κ) (p : Pipeline) : (s.runStages k p).1 ≠ .exit := by
  unfold runStages conclude
  generalize launchFrom k s.config.name true p.stages _ = launched
  dsimp only
  split
  · exact Outcome.noConfusion
  · split
    · cases launched.failure <;> exact Outcome.noConfusion
    · exact Outcome.noConfusion

/-- In the foreground it is a status. -/
theorem exists_status (k : Kernel κ) (s : Shell κ) (hforeground : p.isBackground = false) :
    ∃ status, (s.runStages k p).1 = .done status := by
  unfold runStages conclude
  rw [hforeground]
  dsimp only
  split
  · exact ⟨_, rfl⟩
  · exact ⟨_, rfl⟩

/-- In the background every child that one stage has forked is a job of its own. -/
theorem jobs_single (k : Kernel κ) (s : Shell (κ × List Event)) (stage : Stage)
    (hbackground : stage.background = true) :
    ∃ events, (s.runStages k.recording (.single stage)).2.kernel.2 = s.kernel.2 ++ events ∧
      (∀ e ∈ events, e.IsFork) ∧
      (s.runStages k.recording (.single stage)).2.jobs.jobs =
        s.jobs.jobs ++ (events.filterMap Event.forked?).map fun pid => ⟨[{ pid, stage := stage.name }]⟩ := by
  obtain ⟨events, child, hrecord, hforks, hforked, hchildren⟩ := launchFrom_single k s.config.name stage
    { host := s.host, kernel := s.kernel }
  have hrun : s.runStages k.recording (.single stage) = s.conclude k.recording true
      (launchFrom k.recording s.config.name true [stage] { host := s.host, kernel := s.kernel }) := by
    rw [runStages, show (Pipeline.single stage).isBackground = true from hbackground]
    rfl
  rw [hrun]
  generalize launchFrom k.recording s.config.name true [stage] _ = launched at hrecord hchildren
  obtain ⟨hjobs, hkernel⟩ := withLaunched_keeps s launched
  refine ⟨events, ?_, hforks, ?_⟩
  · unfold conclude
    dsimp only
    split <;> simp [hkernel, hrecord]
  · rw [hforked]
    cases child with
    | none => simp [conclude, hchildren, Job.isEmpty, hjobs]
    | some pid => simp [conclude, hchildren, Job.isEmpty, hjobs, JobSet.push]

/-! ## All pings -/

/-- The pipelines are executed one after the other, whatever each of them comes to. -/
inductive InTurn (k : Kernel κ) : List Pipeline → Shell κ → List Outcome → Shell κ → Prop where
  | nil (s : Shell κ) : InTurn k [] s [] s
  | cons {p : Pipeline} {ps : List Pipeline} {s s' s'' : Shell κ} {o : Outcome} {os : List Outcome} :
      s.execute k p = some (o, s') → InTurn k ps s' os s'' → InTurn k (p :: ps) s (o :: os) s''

/-- A sweep goes on to its last host. -/
theorem pingEach_inTurn (k : Kernel κ) (subnet : String) (background : Bool) (hdepth : 0 < depth) (hosts : List Nat)
    (status : UInt8) (s : Shell κ) :
    ∃ outcomes s', InTurn k (hosts.map (ping subnet background)) s outcomes s' ∧
      pingEach (executeWithin k depth) subnet background hosts status s =
        some (if background then .detached else outcomes.getLastD (.done status), s') ∧
      (background = false → ∀ o ∈ outcomes, ∃ status, o = .done status) := by
  induction hosts generalizing status s with
  | nil => exact ⟨[], s, .nil s, by cases background <;> rfl, fun _ => by simp⟩
  | cons host hosts ih =>
    have hping := executeWithin_ping k s subnet background host hdepth
    have hexecute : s.execute k (ping subnet background host) = some (s.runStages k (ping subnet background host)) :=
      executeWithin_ping k s subnet background host (Nat.lt_of_lt_of_le (by decide) s.depthBound_ge)
    have hexit := runStages_ne_exit k s (ping subnet background host)
    have hstatus := exists_status (p := ping subnet background host) k s
    generalize s.runStages k (ping subnet background host) = r at hping hexecute hexit hstatus
    obtain ⟨o, s'⟩ := r
    rw [pingEach, show executeWithin k depth (.single { pingStage subnet host with background }) s = _ from hping]
    cases o with
    | done status' =>
      obtain ⟨outcomes, s'', hturn, hrest, hall⟩ := ih status' s'
      refine ⟨.done status' :: outcomes, s'', .cons hexecute hturn, ?_, fun hforeground => ?_⟩
      · rw [List.getLastD_cons]
        exact hrest
      · exact List.forall_mem_cons.2 ⟨⟨_, rfl⟩, hall hforeground⟩
    | detached =>
      obtain rfl : background = true := by
        by_contra hforeground
        obtain ⟨status, hdone⟩ := hstatus (Bool.eq_false_iff.2 hforeground)
        cases hdone
      obtain ⟨outcomes, s'', hturn, hrest, -⟩ := ih status s'
      exact ⟨.detached :: outcomes, s'', .cons hexecute hturn, hrest, fun hforeground => absurd hforeground (by decide)⟩
    | exit => exact absurd rfl hexit

/-- Behind pings in the background the jobs are those from before, and one for each ping that was forked. -/
theorem InTurn.jobs {hosts : List Nat} {s s' : Shell (κ × List Event)} {outcomes : List Outcome}
    (h : InTurn k.recording (hosts.map (ping subnet true)) s outcomes s') :
    ∃ events, s'.kernel.2 = s.kernel.2 ++ events ∧ (∀ e ∈ events, e.IsFork) ∧
      s'.jobs.jobs = s.jobs.jobs ++ (events.filterMap Event.forked?).map fun pid => ⟨[{ pid, stage := "ping" }]⟩ := by
  induction hosts generalizing s outcomes with
  | nil =>
    cases h
    exact ⟨[], by simp, by simp, by simp⟩
  | cons host hosts ih =>
    rw [List.map_cons] at h
    cases h with
    | @cons _ _ _ s₁ _ _ _ hexecute hrest =>
      rw [execute, executeWithin_ping _ s subnet true host (Nat.lt_of_lt_of_le (by decide) s.depthBound_ge)] at hexecute
      obtain ⟨events, hrecord, hforks, hjobs⟩ :=
        jobs_single k s { pingStage subnet host with background := true } rfl
      rw [show s.runStages k.recording (.single { pingStage subnet host with background := true }) = _ from
        Option.some.inj hexecute] at hrecord hjobs
      obtain ⟨events', hrecord', hforks', hjobs'⟩ := ih hrest
      refine ⟨events ++ events', ?_, List.forall_mem_append.2 ⟨hforks, hforks'⟩, ?_⟩
      · rw [hrecord', hrecord, List.append_assoc]
      · rw [hjobs', hjobs, List.filterMap_append, List.map_append, List.append_assoc]
        rfl

/-- **A sweep covers its range.** If there is a `ping`, one is executed for each host from the first to the last, in
ascending order, once each, whatever the pings before it came to; there are none if the ends are the wrong way round.
In the foreground every ping comes to a status, and the sweep to that of the last one, or to success if there is none.
In the background it goes on while they run: nothing is waited for, and each ping that was forked is one more job. -/
theorem sweep_covers {s : Shell (κ × List Event)} {first last : String} {range : SweepRange}
    (hname : p.head.name = Builtin.pingsweep.name) (harguments : p.head.arguments = [subnet, first, last])
    (hrange : SweepRange.read? first last = some range)
    (hping : (Search.resolve s.host.world.files s.host.cwd s.host.searchPath "ping").isSome) :
    ∃ (hosts : List Nat) (outcomes : List Outcome) (s' : Shell (κ × List Event)),
      hosts.Pairwise (· < ·) ∧ (∀ host, host ∈ hosts ↔ range.first ≤ host ∧ host ≤ range.last) ∧
      InTurn k.recording (hosts.map fun host => .single {
          name := "ping", arguments := ["-c", "1", subnet ++ "." ++ toString host], background := p.isBackground })
        (s.print ("Scanning on subnet " ++ subnet ++ " from " ++ first ++ " to " ++ last)) outcomes s' ∧
      s.execute k.recording p =
        some (if p.isBackground then .detached else outcomes.getLastD (.done 0), s') ∧
      (p.isBackground = false → ∀ o ∈ outcomes, ∃ status, o = .done status) ∧
      (p.isBackground = true → ∃ events, s'.kernel.2 = s.kernel.2 ++ events ∧ (∀ e ∈ events, e.IsFork) ∧
        s'.jobs.jobs = s.jobs.jobs ++
          (events.filterMap Event.forked?).map fun pid => ⟨[{ pid, stage := "ping" }]⟩) := by
  have hb : Builtin.ofName? p.head.name = some .pingsweep := by
    rw [hname]
    rfl
  obtain ⟨depth, hdepth⟩ := Nat.exists_eq_add_of_le' s.depthBound_ge
  obtain ⟨outcomes, s', hturn, hrun, hall⟩ := pingEach_inTurn k.recording subnet p.isBackground
    (Nat.zero_lt_succ (depth + 2)) range.hosts 0
    (s.print ("Scanning on subnet " ++ subnet ++ " from " ++ first ++ " to " ++ last))
  refine ⟨range.hosts, outcomes, s', range.pairwise_hosts, fun host => SweepRange.mem_hosts, hturn, ?_, hall,
    fun hbackground => ?_⟩
  · have hnone : (Search.resolve s.host.world.files s.host.cwd s.host.searchPath "ping").isNone = false := by
      rw [← Option.not_isSome, hping]
      rfl
    rw [execute, hdepth, executeWithin_builtin hb, harguments, runBuiltin, pingSweep, hrange]
    simp only [hnone, Bool.false_eq_true, if_false]
    exact hrun
  · rw [hbackground] at hturn
    exact hturn.jobs

/-- A shell that finds `ping`. -/
def pingShell : Shell (Machine × List Event) :=
  .start { name := "sh", dataDir := "/" } .shown
    (.start { nodes := #[.directory FileTree.root [("ping", 1)], .program "ping"] } FileTree.root FileTree.root
      [("PATH", "/")]) ({}, [])

/-- Three hosts are swept in the background, with ends that are written with a sign and a zero: three pings are forked,
and each of them is a job. -/
theorem sweep_covers_three :
    SweepRange.read? "+3" "05" = some ⟨3, 5⟩ ∧
    (Search.resolve pingShell.host.world.files pingShell.host.cwd pingShell.host.searchPath "ping").isSome ∧
    ∃ (hosts : List Nat) (s' : Shell (Machine × List Event)) (events : List Event),
      hosts.Pairwise (· < ·) ∧ (∀ host, host ∈ hosts ↔ 3 ≤ host ∧ host ≤ 5) ∧
      pingShell.execute (Machine.kernel fun _ => none).recording
          (.single { name := "pingsweep", arguments := ["10.0.0", "+3", "05"], background := true }) =
        some (.detached, s') ∧
      s'.kernel.2 = events ∧ events.filterMap Event.forked? = [1000, 1001, 1002] ∧
      s'.jobs.jobs = [⟨[{ pid := 1000, stage := "ping" }]⟩, ⟨[{ pid := 1001, stage := "ping" }]⟩,
        ⟨[{ pid := 1002, stage := "ping" }]⟩] := by
  have hrange : SweepRange.read? "+3" "05" = some ⟨3, 5⟩ := by decide +kernel
  have hping : (Search.resolve pingShell.host.world.files pingShell.host.cwd pingShell.host.searchPath
      "ping").isSome := by decide +kernel
  have hforked : (pingShell.execute (Machine.kernel fun _ => none).recording
      (.single { name := "pingsweep", arguments := ["10.0.0", "+3", "05"], background := true })).map
        (fun swept => swept.2.kernel.2.filterMap Event.forked?) = some [1000, 1001, 1002] := by decide +kernel
  obtain ⟨hosts, outcomes, s', hrises, hcovers, -, hexecute, -, hjobs⟩ := sweep_covers
    (k := Machine.kernel fun _ => none) (s := pingShell)
    (p := .single { name := "pingsweep", arguments := ["10.0.0", "+3", "05"], background := true })
    rfl rfl hrange hping
  obtain ⟨events, hrecord, -, hgrown⟩ := hjobs rfl
  have hevents : events.filterMap Event.forked? = [1000, 1001, 1002] := by
    rw [hexecute, Option.map_some, hrecord] at hforked
    exact Option.some.inj hforked
  rw [hevents] at hgrown
  exact ⟨hrange, hping, hosts, s', events, hrises, hcovers, hexecute, hrecord, hevents, hgrown⟩

end Shell

end LineShell
