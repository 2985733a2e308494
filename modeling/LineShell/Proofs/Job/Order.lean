import LineShell.Proofs.Job.Answers
import Mathlib.Data.List.Nodup

/-!
# The order in which children end

A job is waited for one child after the other, whatever the order in which they end. It makes no
difference: a job that has been waited for holds the ending of each child, whenever each of them ended, and
however often somebody looked at the job before or was interrupted (`Job.wait_ends_as_assigned`). The
invariant is that a child is known to have ended as it did, or nobody has collected it yet (`Child.Awaited`).
-/

namespace LineShell

universe u

variable {σ : Type u}

/-- How a child ends. -/
abbrev Fate := { status : WaitStatus // status.state = .terminated }

/-- A waiter that tells the truth about the children that are due, which nobody has collected yet. As long
as its patience lasts it may be interrupted, or say that a child has not ended; the child is still due then.
In the end it reports the child's own ending. The other children are still due in any case. -/
structure Waiter.Reports (w : Waiter σ) (final : Pid → Fate) (due : σ → Pid → Prop) : Prop where
  answer : ∀ pid mode s, due s pid →
    (w.wait pid mode s).1 = .ok (final pid).1 ∨
      due (w.wait pid mode s).2 pid ∧
        ((w.wait pid mode s).1 = .error .interrupted ∨
          ∃ status, (w.wait pid mode s).1 = .ok status ∧ status.state = .active)
  others : ∀ pid mode s other, other ≠ pid → due s other → due (w.wait pid mode s).2 other

variable {w : Waiter σ} {final : Pid → Fate} {due : σ → Pid → Prop}

namespace Child

/-- A child with its own ending. -/
def settled (final : Pid → Fate) (c : Child) : Child := { c with status := (final c.pid).1 }

/-- A child that is known to have ended as it did, or that is due. -/
def Awaited (final : Pid → Fate) (due : σ → Pid → Prop) (s : σ) (c : Child) : Prop :=
  c.status = (final c.pid).1 ∨ c.status.state = .active ∧ due s c.pid

theorem settled_of_status_eq {c : Child} (h : c.status = (final c.pid).1) : c.settled final = c := by
  rw [settled, ← h]

/-- By one answer a child that is due is known to have ended, or is still due. -/
theorem told_reports (hw : w.Reports final due) (mode : WaitMode) {c : Child} {s : σ}
    (hactive : c.status.state = .active) (hdue : due s c.pid) :
    c.told (w.wait c.pid mode s).1 = c.settled final ∨
      (c.told (w.wait c.pid mode s).1).status.state = .active ∧ due (w.wait c.pid mode s).2 c.pid ∧
        (c.told (w.wait c.pid mode s).1).settled final = c.settled final := by
  rcases hw.answer c.pid mode s hdue with hanswer | ⟨hstill, hanswer | ⟨status, hanswer, hstatus⟩⟩
  · rw [hanswer]
    exact .inl rfl
  · rw [hanswer]
    exact .inr ⟨by simpa [told] using hactive, hstill, by simp [told]⟩
  · rw [hanswer]
    exact .inr ⟨hstatus, hstill, rfl⟩

/-- What a look at a child, or a wait for it, makes of it. -/
structure Advances (final : Pid → Fate) (due : σ → Pid → Prop) (mode : WaitMode) (c : Child) (s : σ)
    (c' : Child) (s' : σ) : Prop where
  settled : c'.settled final = c.settled final
  awaited : c'.Awaited final due s'
  ended : mode = .block → c'.status = (final c'.pid).1
  others : ∀ pid, pid ≠ c.pid → due s pid → due s' pid

theorem Advances.pid_eq {mode : WaitMode} {c c' : Child} {s s' : σ} (h : c.Advances final due mode s c' s') :
    c'.pid = c.pid := by
  simpa [Child.settled] using congrArg Child.pid h.settled

theorem settle_advances (hw : w.Reports final due) (mode : WaitMode) (c : Child) (s : σ)
    (hactive : c.status.state = .active) (hdue : due s c.pid) :
    c.Advances final due mode s (c.settle w mode s).1 (c.settle w mode s).2 := by
  -- along the answers, which run out of patience
  induction hpatience : w.patience s using Nat.strongRecOn generalizing c s with
  | ind n ih =>
    subst hpatience
    have hothers := hw.others c.pid mode s
    rw [settle_eq]
    rcases told_reports hw mode hactive hdue with htold | ⟨htold, hstill, hsettled⟩
    · have hended : (c.told (w.wait c.pid mode s).1).status.state = .terminated := htold ▸ (final c.pid).2
      rw [if_neg fun hunsettled => by simp [state_told_of_unsettled hactive hunsettled] at hended, htold]
      exact ⟨rfl, .inl rfl, fun _ => rfl, hothers⟩
    · have hpid := told_pid c (w.wait c.pid mode s).1
      split
      · next hunsettled =>
        have hrest := ih _ (w.patience_lt c.pid mode s hunsettled) _ _ htold (by rwa [hpid]) rfl
        refine ⟨hrest.settled.trans hsettled, hrest.awaited, hrest.ended, fun pid hne hpending => ?_⟩
        exact hrest.others pid (by rwa [hpid]) (hothers pid hne hpending)
      · next hsettles =>
        refine ⟨hsettled, .inr ⟨htold, by rwa [hpid]⟩, ?_, hothers⟩
        rintro rfl
        rw [Bool.not_eq_false, ← state_told hactive, htold] at hsettles
        cases hsettles

theorem poll_advances (hw : w.Reports final due) (mode : WaitMode) (c : Child) (s : σ)
    (h : c.Awaited final due s) : c.Advances final due mode s (c.poll w mode s).1 (c.poll w mode s).2 := by
  unfold Child.poll
  cases hstate : c.status.state with
  | terminated =>
    rcases h with hended | ⟨hactive, -⟩
    · exact ⟨rfl, .inl hended, fun _ => hended, fun _ _ => id⟩
    · simp [hstate] at hactive
  | active =>
    rcases h with hended | ⟨-, hdue⟩
    · rw [hended, (final c.pid).2] at hstate
      cases hstate
    · exact settle_advances hw mode c s hstate hdue

end Child

namespace Job

/-- A job of which every child has its own ending. -/
def settled (final : Pid → Fate) (j : Job) : Job := ⟨j.children.map (Child.settled final)⟩

/-- One child after the other: what is asked for one of them leaves the others due. -/
theorem pollEach_advances (hw : w.Reports final due) (mode : WaitMode) (cs : List Child) (s : σ)
    (hpids : (cs.map Child.pid).Nodup) (h : ∀ c ∈ cs, c.Awaited final due s) :
    (pollEach w mode cs s).1.map (Child.settled final) = cs.map (Child.settled final) ∧
      (∀ c ∈ (pollEach w mode cs s).1, c.Awaited final due (pollEach w mode cs s).2) ∧
      (mode = .block → ∀ c ∈ (pollEach w mode cs s).1, c.status = (final c.pid).1) ∧
      ∀ pid, pid ∉ cs.map Child.pid → due s pid → due (pollEach w mode cs s).2 pid := by
  induction cs generalizing s with
  | nil => exact ⟨rfl, by simp [pollEach], by simp [pollEach], fun _ _ => id⟩
  | cons c cs ih =>
    obtain ⟨hc, hcs⟩ := List.forall_mem_cons.1 h
    obtain ⟨hpid, hpids⟩ := List.nodup_cons.1 hpids
    have hfirst := Child.poll_advances hw mode c s hc
    obtain ⟨hsettled, hawaited, hended, hothers⟩ := ih (c.poll w mode s).2 hpids fun c' hc' =>
      (hcs c' hc').imp_right fun ⟨hactive, hdue⟩ =>
        ⟨hactive, hfirst.others _ (fun heq => hpid (heq ▸ List.mem_map_of_mem hc')) hdue⟩
    refine ⟨congrArg₂ List.cons hfirst.settled hsettled, List.forall_mem_cons.2 ⟨?_, hawaited⟩, fun hmode =>
      List.forall_mem_cons.2 ⟨hfirst.ended hmode, hended hmode⟩, fun pid hne hdue => ?_⟩
    · exact hfirst.awaited.imp_right fun ⟨hactive, hdue⟩ => ⟨hactive, hothers _ (hfirst.pid_eq ▸ hpid) hdue⟩
    · rw [List.map_cons, List.mem_cons, not_or] at hne
      exact hothers pid hne.2 (hfirst.others pid hne.1 hdue)

/-- What a job and the world come to when somebody looks at the job from time to time. In between anything
may happen but that somebody else collects its children. -/
inductive Polled (w : Waiter σ) (due : σ → Pid → Prop) (j₀ : Job) (s₀ : σ) : Job → σ → Prop where
  | start : Polled w due j₀ s₀ j₀ s₀
  | poll {j : Job} {s : σ} : Polled w due j₀ s₀ j s → Polled w due j₀ s₀ (j.poll w s).1 (j.poll w s).2
  | elsewhere {j : Job} {s s' : σ} :
      Polled w due j₀ s₀ j s → (∀ pid, due s pid → due s' pid) → Polled w due j₀ s₀ j s'

variable {j₀ j : Job} {s₀ s : σ}

theorem pids_of_settled_eq (h : j.settled final = j₀.settled final) : j.pids = j₀.pids := by
  have hpids := congrArg Job.pids h
  simpa [pids, settled, Child.settled, Function.comp_def] using hpids

/-- A job that somebody looks at from time to time is still to come to the same end. -/
theorem Polled.awaited (h : Polled w due j₀ s₀ j s) (hw : w.Reports final due) (hpids : j₀.pids.Nodup)
    (hstart : ∀ c ∈ j₀.children, c.Awaited final due s₀) :
    j.settled final = j₀.settled final ∧ ∀ c ∈ j.children, c.Awaited final due s := by
  induction h with
  | start => exact ⟨rfl, hstart⟩
  | @poll j s _ ih =>
    obtain ⟨hsettled, hawaited⟩ := ih
    have hj : j.pids.Nodup := pids_of_settled_eq hsettled ▸ hpids
    obtain ⟨hsettled', hawaited', -⟩ := pollEach_advances hw .look j.children s hj hawaited
    exact ⟨(congrArg Job.mk hsettled').trans hsettled, hawaited'⟩
  | elsewhere _ hdue ih =>
    obtain ⟨hsettled, hawaited⟩ := ih
    exact ⟨hsettled, fun c hc => (hawaited c hc).imp_right fun ⟨hactive, h⟩ => ⟨hactive, hdue _ h⟩⟩

/-- Who waits for a job in the end finds every child with its own ending. -/
theorem Polled.wait_eq_settled (h : Polled w due j₀ s₀ j s) (hw : w.Reports final due) (hpids : j₀.pids.Nodup)
    (hstart : ∀ c ∈ j₀.children, c.status.state = .active ∧ due s₀ c.pid) :
    (j.wait w s).1 = j₀.settled final := by
  obtain ⟨hsettled, hawaited⟩ := h.awaited hw hpids fun c hc => .inr (hstart c hc)
  have hj : j.pids.Nodup := pids_of_settled_eq hsettled ▸ hpids
  obtain ⟨hsettled', -, hended, -⟩ := pollEach_advances hw .block j.children s hj hawaited
  have hwait : (j.wait w s).1.settled final = (j.wait w s).1 :=
    congrArg Job.mk ((List.map_congr_left fun c hc => Child.settled_of_status_eq (hended rfl c hc)).trans
      (List.map_id _))
  rw [← hwait, ← hsettled]
  exact congrArg Job.mk hsettled'

/-- **The order in which children end makes no difference.** Take any job whose children have numbers of
their own and are due, let them end when they do, look at the job as often as you like, be interrupted as
often as you like, and then wait for it: every child has ended, with the status it was to end with. The
status of the last one is the job's, and in any other run in which the children come to the same ends, the
job comes to the same end as well. -/
theorem wait_ends_as_assigned (hw : w.Reports final due) (hpids : j₀.pids.Nodup)
    (hstart : ∀ c ∈ j₀.children, c.status.state = .active ∧ due s₀ c.pid) (hpolled : Polled w due j₀ s₀ j s) :
    (j.wait w s).1 = j₀.settled final ∧ (j.wait w s).1.state = .terminated ∧
    (∀ c ∈ (j.wait w s).1.children, c.status = (final c.pid).1 ∧ c.status.state = .terminated) ∧
    (j.wait w s).1.code = (j₀.children.getLast?.map fun c => (final c.pid).1.code).getD 0 ∧
    ∀ {τ : Type u} {w' : Waiter τ} {due' : τ → Pid → Prop} {j' : Job} {t₀ t : τ}, w'.Reports final due' →
      (∀ c ∈ j₀.children, due' t₀ c.pid) → Polled w' due' j₀ t₀ j' t → (j'.wait w' t).1 = (j.wait w s).1 := by
  have hended := hpolled.wait_eq_settled hw hpids hstart
  have hchildren : ∀ c ∈ (j₀.settled final).children, c.status = (final c.pid).1 ∧ c.status.state = .terminated := by
    intro c hc
    obtain ⟨c₀, -, rfl⟩ := List.mem_map.1 hc
    exact ⟨rfl, (final c₀.pid).2⟩
  refine ⟨hended, ?_, hended ▸ hchildren, ?_, fun hw' hdue' hpolled' => ?_⟩
  · rw [hended]
    simpa [state] using fun c hc => (hchildren c hc).2
  · rw [hended, code, settled, List.getLast?_map]
    cases j₀.children.getLast? <;> rfl
  · rw [hended]
    exact hpolled'.wait_eq_settled hw' hpids fun c hc => ⟨(hstart c hc).1, hdue' c hc⟩

end Job

/-! ## Schedules -/

/-- What happens to children, and to whoever waits for them. -/
inductive Happening where
  | ends (pid : Pid)
  | interrupts

/-- When children end: what is still to happen, one thing at a time, who has ended, and who was collected.
When nothing is to happen any more, all have ended. -/
structure Schedule where
  coming : List Happening
  ended : List Pid := []
  collected : List Pid := []

namespace Schedule

/-- Lets happen what is to happen, one thing if nobody wants to block, else until there is an answer. -/
def await (final : Pid → Fate) (pid : Pid) (mode : WaitMode) :
    List Happening → List Pid → List Pid → WaitAnswer × Schedule
  | [], ended, collected => (.ok (final pid).1, ⟨[], ended, pid :: collected⟩)
  | .interrupts :: coming, ended, collected => (.error .interrupted, ⟨coming, ended, collected⟩)
  | .ends other :: coming, ended, collected =>
    if pid = other then (.ok (final pid).1, ⟨coming, other :: ended, pid :: collected⟩)
    else
      match mode with
      | .look => (.ok .alive, ⟨coming, other :: ended, collected⟩)
      | .block => await final pid .block coming (other :: ended) collected

theorem await_spec (final : Pid → Fate) (pid : Pid) (mode : WaitMode) (coming : List Happening)
    (ended collected : List Pid) :
    ((await final pid mode coming ended collected).1 = .ok (final pid).1 ∧
      (await final pid mode coming ended collected).2.collected = pid :: collected) ∨
    ((await final pid mode coming ended collected).2.collected = collected ∧
      ((await final pid mode coming ended collected).1 = .error .interrupted ∨
        mode = .look ∧ (await final pid mode coming ended collected).1 = .ok .alive) ∧
      (await final pid mode coming ended collected).2.coming.length < coming.length) := by
  fun_induction await final pid mode coming ended collected with
  | case1 ended collected => exact .inl ⟨rfl, rfl⟩
  | case2 coming ended collected => exact .inr ⟨rfl, .inl rfl, by simp⟩
  | case3 other coming ended collected => exact .inl ⟨rfl, rfl⟩
  | case4 other coming ended collected hne => exact .inr ⟨rfl, .inr ⟨rfl, rfl⟩, by simp⟩
  | case5 other coming ended collected hne ih =>
    rcases ih with hended | ⟨hcollected, hanswer, hshorter⟩
    · exact .inl hended
    · exact .inr ⟨hcollected, hanswer, Nat.lt_succ_of_lt hshorter⟩

end Schedule

/-- Answers by a schedule. -/
def Waiter.scheduled (final : Pid → Fate) : Waiter Schedule where
  wait pid mode s :=
    if pid ∈ s.collected then (.error .noChild, s)
    else if pid ∈ s.ended then (.ok (final pid).1, { s with collected := pid :: s.collected })
    else Schedule.await final pid mode s.coming s.ended s.collected
  patience s := s.coming.length
  patience_lt pid mode s := by
    have hfinal := (final pid).2
    split
    · intro hunsettled
      cases hunsettled
    · split
      · simp [WaitAnswer.settles, hfinal]
      · intro hunsettled
        rcases Schedule.await_spec final pid mode s.coming s.ended s.collected with
          ⟨hanswer, -⟩ | ⟨-, -, hshorter⟩
        · simp [hanswer, WaitAnswer.settles, hfinal] at hunsettled
        · exact hshorter

namespace Schedule

/-- Whatever the schedule, what is said by it is true. -/
theorem reports (final : Pid → Fate) :
    (Waiter.scheduled final).Reports final fun s pid => pid ∉ s.collected where
  answer pid mode s hdue := by
    simp only [Waiter.scheduled, if_neg hdue]
    split
    · exact .inl rfl
    · rcases await_spec final pid mode s.coming s.ended s.collected with
        ⟨hanswer, -⟩ | ⟨hcollected, hanswer, -⟩
      · exact .inl hanswer
      · exact .inr ⟨by rwa [hcollected], hanswer.imp_right fun ⟨_, h⟩ => ⟨_, h, rfl⟩⟩
  others pid mode s other hne hdue := by
    simp only [Waiter.scheduled]
    split
    · exact hdue
    · split
      · simpa [hne] using hdue
      · rcases await_spec final pid mode s.coming s.ended s.collected with ⟨-, hcollected⟩ | ⟨hcollected, -⟩
        · simpa [hcollected, hne] using hdue
        · rwa [hcollected]

end Schedule

namespace Job

/-- The ends of two children: the first one exits, the second one is killed. -/
def twoEnds (pid : Pid) : Fate := if pid = 7 then ⟨.exited 3, rfl⟩ else ⟨.signaled 9 false, rfl⟩

/-- The second child ends first. Somebody looks at the job before that and is interrupted, and waits then;
a job that nobody looked at, and whose children have ended long since, comes to the same end. -/
theorem wait_ends_as_assigned_reversed :
    let j₀ : Job := ⟨[{ pid := 7, stage := "a" }, { pid := 8, stage := "b" }]⟩
    let s₀ : Schedule := { coming := [.interrupts, .ends 8, .interrupts, .ends 7] }
    let w := Waiter.scheduled twoEnds
    w.Reports twoEnds (fun s pid => pid ∉ s.collected) ∧ j₀.pids.Nodup ∧
    (∀ c ∈ j₀.children, c.status.state = .active ∧ c.pid ∉ s₀.collected) ∧
    Polled w (fun s pid => pid ∉ s.collected) j₀ s₀ (j₀.poll w s₀).1 (j₀.poll w s₀).2 ∧
    ((j₀.poll w s₀).1.wait w (j₀.poll w s₀).2).1 =
      ⟨[{ pid := 7, stage := "a", status := .exited 3 },
        { pid := 8, stage := "b", status := .signaled 9 false }]⟩ ∧
    ((j₀.poll w s₀).1.wait w (j₀.poll w s₀).2).1.code = 137 ∧
    (j₀.wait w { coming := [] }).1 = ((j₀.poll w s₀).1.wait w (j₀.poll w s₀).2).1 := by
  intro j₀ s₀ w
  have hreports := Schedule.reports twoEnds
  have hpids : j₀.pids.Nodup := by decide
  have hstart : ∀ c ∈ j₀.children, c.status.state = .active ∧ c.pid ∉ s₀.collected := by decide
  have hpolled : Polled w (fun s pid => pid ∉ s.collected) j₀ s₀ (j₀.poll w s₀).1 (j₀.poll w s₀).2 :=
    .poll .start
  obtain ⟨hended, -, -, hcode, hother⟩ := wait_ends_as_assigned hreports hpids hstart hpolled
  exact ⟨hreports, hpids, hstart, hpolled, hended, hcode, (hother hreports (by decide) .start)⟩

end Job

end LineShell
