import LineShell.Proofs.Shell.Frame
import LineShell.System.Machine

/-!
# What a running program cannot do to open files

No call closes or replaces a file that is open, or moves back the place where one is read; so nothing
that a machine runs does (`kernel_advances`).
-/

namespace LineShell.Machine

variable {w : World} {m : Machine}

/-- What has become of a call keeps what is open. -/
def Progress.Advances {ρ : Type} (w : World) : Progress ρ → Prop
  | .answer _ w' _ => w.Advances w'
  | .wait => True
  | .goOn _ w' => w.Advances w'
  | .finish _ => True

theorem reply_advances {ρ : Type} (w : World) (m : Machine) (r : ρ) : (reply w m r).Advances w := .refl w

theorem read_advances (shellTable : DescriptorTable) (w : World) (m : Machine) (t : Task) (d : Descriptor)
    (count : Nat) : (read shellTable w m t d count).Advances w := by
  unfold read
  split
  · exact .refl w
  · split
    · exact .refl w
    · rename_i hread
      split
      · split
        · exact trivial
        · exact .refl w
      · exact World.Advances.read hread

theorem write_advances (shellTable : DescriptorTable) (w : World) (m : Machine) (t : Task) (d : Descriptor)
    (bytes : Bytes) : (write shellTable w m t d bytes).Advances w := by
  unfold write
  split
  · exact .refl w
  · split
    · split
      · exact trivial
      · dsimp only
        split
        · exact trivial
        · split
          · exact .refl w
          · rename_i hwrite
            split
            · exact World.Advances.write hwrite
            · exact World.Advances.write hwrite
    · split
      · exact .refl w
      · rename_i hwrite
        exact World.Advances.write hwrite

theorem await_advances (w : World) (m : Machine) (t : Task) (pid : Option Pid) :
    (await w m t pid).Advances w := by
  unfold await
  dsimp only
  split
  · exact .refl w
  · split
    · exact .refl w
    · exact trivial

theorem signal_advances (w : World) (m : Machine) (t : Task) (pid : Pid) (n : Nat) :
    (signal w m t pid n).Advances w := by
  unfold signal
  split
  · exact .refl w
  · split
    · exact .refl w
    · split
      · exact .refl w
      · split
        · exact trivial
        · split <;> exact .refl w

/-- No call takes back what is open. -/
theorem perform_advances (shellTable : DescriptorTable) (w : World) (m : Machine) (t : Task) {ρ : Type}
    (c : Call ρ) : (perform shellTable w m t c).Advances w := by
  cases c with
  | read d count => exact read_advances shellTable w m t d count
  | write d bytes => exact write_advances shellTable w m t d bytes
  | openFile path mode =>
    simp only [perform]
    split
    · exact reply_advances w _ _
    · split
      · exact reply_advances w _ _
      · rename_i hopen
        exact World.Advances.openPath hopen
  | close d => exact reply_advances w _ _
  | size d => exact reply_advances w _ _
  | duplicate source target =>
    simp only [perform]
    split <;> exact reply_advances w _ _
  | makePipe => exact World.Advances.makePipe w
  | table => exact reply_advances w _ _
  | restore table => exact reply_advances w _ _
  | exec path arguments environment => exact trivial
  | wait pid => exact await_advances w m t pid
  | kill pid n => exact signal_advances w m t pid n
  | sleep duration => exact reply_advances w _ _
  | changeDirectory path =>
    simp only [perform]
    split <;> exact reply_advances w _ _
  | files f => exact World.Advances.of_opened rfl
  | self => exact reply_advances w _ _

theorem step_advances (programs : ProgramTable) (shellTable : DescriptorTable) (w : World) (m : Machine)
    (t : Task) : w.Advances (step programs shellTable w m t).2.1 := by
  unfold step
  dsimp only
  split
  · exact .refl w
  · split <;> exact .refl w
  · exact .refl w
  · exact .refl w
  · exact .refl w
  · split
    · exact .refl w
    · split <;> exact .refl w
  · exact .refl w
  · rename_i c next _ _ _
    have hcall := perform_advances shellTable w m t c
    split
    · rename_i heq
      rw [heq] at hcall
      exact hcall
    · exact .refl w
    · rename_i heq
      rw [heq] at hcall
      exact hcall
    · exact .refl w

/-! ## Running -/

theorem turn_advances (programs : ProgramTable) (shellTable : DescriptorTable) (pid : Pid) (n : Nat) (w : World)
    (m : Machine) : w.Advances (turn programs shellTable pid n w m).2.1 := by
  induction n generalizing w m with
  | zero => exact .refl w
  | succ n ih =>
    unfold turn
    split
    · exact .refl w
    · rename_i t _
      have hstep := step_advances programs shellTable w m t
      split
      · rename_i heq
        rw [heq] at hstep
        exact hstep
      · rename_i heq
        rw [heq] at hstep
        exact hstep.trans (ih _ _)

theorem turns_advances (programs : ProgramTable) (shellTable : DescriptorTable) (w : World) (m : Machine) :
    w.Advances (turns programs shellTable w m).2.1 := by
  unfold turns
  suffices h : ∀ (ts : List Task) (moved : Bool) (w : World) (m : Machine),
      w.Advances (ts.foldl (fun (acc : Bool × World × Machine) t =>
        let r := turn programs shellTable t.pid turnLength acc.2.1 acc.2.2
        (acc.1 || r.1, r.2)) (moved, w, m)).2.1 from h m.tasks false w m
  intro ts
  induction ts with
  | nil => exact fun _ w _ => .refl w
  | cons t ts ih => exact fun moved w m => (turn_advances programs shellTable t.pid turnLength w m).trans (ih _ _ _)

theorem settle_advances (programs : ProgramTable) (shellTable : DescriptorTable) (n : Nat) (w : World)
    (m : Machine) : w.Advances (settle programs shellTable n w m).1 := by
  induction n generalizing w m with
  | zero => exact .refl w
  | succ n ih =>
    have hturns := turns_advances programs shellTable w m
    unfold settle
    split
    · rename_i heq
      rw [heq] at hturns
      exact hturns
    · rename_i heq
      rw [heq] at hturns
      exact hturns.trans (ih _ _)

theorem runUntilEnd_advances (programs : ProgramTable) (shellTable : DescriptorTable) (pid : Pid) (n : Nat)
    (w : World) (m : Machine) : w.Advances (runUntilEnd programs shellTable pid n w m).1 := by
  induction n generalizing w m with
  | zero => exact .refl w
  | succ n ih =>
    have hturns := turns_advances programs shellTable w m
    unfold runUntilEnd
    split
    · exact .refl w
    · split
      · rename_i heq
        rw [heq] at hturns
        exact hturns.trans (ih _ _)
      · rename_i heq
        rw [heq] at hturns
        split
        · exact hturns.trans (ih _ _)
        · exact hturns

theorem waitFor_advances (programs : ProgramTable) (shellTable : DescriptorTable) (pid : Pid) (mode : WaitMode)
    (s : World × Machine) : s.1.Advances (waitFor programs shellTable pid mode s).2.1 := by
  unfold waitFor
  split
  · exact .refl s.1
  · split
    · exact runUntilEnd_advances programs shellTable pid waitTurns s.1 s.2
    · have hsettle := settle_advances programs shellTable lookTurns s.1 s.2
      dsimp only
      split <;> exact hsettle

/-- Whatever programs a machine runs, they keep the open files of the shell. -/
theorem kernel_advances (programs : ProgramTable) : (kernel programs).Advances where
  fork _ system := .refl system.1
  wait := waitFor_advances programs

end LineShell.Machine
