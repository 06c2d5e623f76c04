import CcmakeTemplate.Pipeline.Flow

/-!
# No job is lost or duplicated

Runs in which the object is not destroyed, with any clients, any worker counts
and any hiring and firing. The ledger is inherited from the belt. A worker whose
status reads `EXITED`, which is what `~threadInfo` waits for, has left its loop,
so firing never takes a held job away with the worker.
-/

namespace Pipeline

open Concurrency

variable {I O F : Type}

def BeforeDestruction (_ : State I O F) (a : Action I F) : Prop := a.starts ≠ .destructor

instance (s : State I O F) (a : Action I F) : Decidable (BeforeDestruction s a) :=
  inferInstanceAs (Decidable (a.starts ≠ .destructor))

theorem starts_beforeDestruction :
    Starts (· ≠ .destructor) (BeforeDestruction (I := I) (O := O) (F := F)) :=
  ⟨by decide, by decide, fun _ _ h => h⟩

theorem belt_initial (process : I → O) (workerCnt : ℕ) :
    belt process (State.initial workerCnt : State I O F) = Belt.empty := rfl

theorem refines_belt (process : I → O) (workerCnt : ℕ) :
    (machine process workerCnt : Machine (State I O F) _).Refines BeforeDestruction
      (Belt.machine process) (fun _ _ => True) (belt process) where
  init := by
    rintro s rfl
    exact belt_initial process workerCnt
  step := by
    intro s a t hs hG hst
    have hcalls := CallsWithin.of_reach starts_beforeDestruction hs
    rcases (step_cases hst).refines hcalls with heq | ⟨m, hm, -⟩
    · exact .inl heq
    · exact .inr ⟨m, trivial, hm⟩

/-! ## Workers that have exited -/

/-- `EXITED` is written last. -/
def ExitedEnded (s : State I O F) : Prop :=
  ∀ crew i, (s.info crew i).status = .EXITED → s.ended crew i = true

theorem ProcessStep.exitedEnded {process : I → O} {i : ℕ} {s t : State I O F}
    (h : ProcessStep process i s t) (hs : ExitedEnded s) : ExitedEnded t := by
  intro crew j hex
  by_cases hself : (crew, j) = (.process, i)
  · cases hself
    have hrun : (s.info .process i).status ≠ .EXITED := by
      intro hex
      simpa [h.running] using hs .process i hex
    cases h with
    | sets h =>
        rw [State.setStatus_self] at hex
        subst hex
        generalize s.processPc i = pc at h
        cases h
        simp [State.ended]
    | _ => exact absurd hex hrun
  · have hframe := h.frame
    rw [hframe.info crew j hself] at hex
    have hend := hs crew j hex
    cases crew with
    | process => simpa [State.ended, hframe.processPc j (by simpa using hself)] using hend
    | callback => simpa [State.ended, hframe.callbackPc] using hend

theorem CallStep.exitedEnded {u : Thread} {s t : State I O F} {pc pc' : CallPc I F}
    (h : CallStep u s pc t pc') (hs : ExitedEnded s) : ExitedEnded t := by
  intro crew j hex
  obtain ⟨hbefore, heq⟩ := h.exited hex
  rw [heq]
  exact hs crew j hbefore

theorem ExitedEnded.goCallback {s : State I O F} (hs : ExitedEnded s) {i : ℕ}
    {pc : CallbackPc I O F} (hi : (s.info .callback i).status ≠ .EXITED) :
    ExitedEnded (s.goCallback i pc) := by
  intro crew j hex
  have hend := hs crew j hex
  cases crew with
  | process => exact hend
  | callback =>
      have hj : j ≠ i := by
        rintro rfl
        exact hi hex
      simpa [State.ended, hj] using hend

theorem CallbackStep.exitedEnded {i : ℕ} {s t : State I O F} (h : CallbackStep i s t)
    (hs : ExitedEnded s) : ExitedEnded t := by
  have hrun : (s.info .callback i).status ≠ .EXITED := by
    intro hex
    simpa [h.running] using hs .callback i hex
  cases h with
  | sets h =>
      intro crew j hex
      by_cases hself : (crew, j) = (.callback, i)
      · cases hself
        rw [State.setStatus_self] at hex
        subst hex
        generalize s.callbackPc i = pc at h
        cases h
        simp [State.ended]
      · rw [State.setStatus_other hself] at hex
        have hend := hs crew j hex
        cases crew with
        | process => exact hend
        | callback =>
            have hj : j ≠ i := by simpa using hself
            simpa [State.ended, hj] using hend
  | nested hpc h =>
      exact (h.exitedEnded hs).goCallback fun hex => hrun (h.exited hex).1
  | _ => exact ExitedEnded.goCallback (fun crew j hex => hs crew j hex) hrun

theorem exitedEnded {G : State I O F → Action I F → Prop} {process : I → O}
    {workerCnt : ℕ} {s : State I O F} (h : (machine process workerCnt).ReachBy G s) :
    ExitedEnded s := by
  refine h.invariant (P := ExitedEnded) ?_ ?_
  · rintro s rfl crew i hex
    cases hex
  · intro s a t _ hs _ hst
    cases step_cases hst with
    | process _ h => exact h.exitedEnded hs
    | callback _ h => exact h.exitedEnded hs
    | client h => exact h.exitedEnded hs
    | call | destroy | spurious => exact hs
    | nest hpc =>
        refine hs.goCallback fun hex => ?_
        simpa [State.ended, hpc] using hs .callback _ hex

/-! ## The ledger -/

theorem ledger {process : I → O} {workerCnt : ℕ} {s : State I O F}
    (h : (machine process workerCnt).ReachBy BeforeDestruction s) :
    (s.added.map process : Multiset O) =
      (s.queue_process.map process : Multiset O) +
        inHands (s.hired .process) (fun i => (s.processPc i).making process) +
        (s.queue_output : Multiset O) +
        inHands (s.hired .callback) (fun i => (s.callbackPc i).holding) +
        (s.fetched : Multiset O) + (s.invoked.map Prod.snd : Multiset O) :=
  Belt.conserved ((refines_belt process workerCnt).reach h)

/-- Before destruction every job ever added is, as its product, in exactly one
place, and a worker that has reported `EXITED` has returned and holds nothing. -/
theorem job_conservation {process : I → O} {workerCnt : ℕ} {s : State I O F}
    (h : (machine process workerCnt).ReachBy BeforeDestruction s) :
    (s.added.map process : Multiset O) =
      (s.queue_process.map process : Multiset O) +
        inHands (s.hired .process) (fun i => (s.processPc i).making process) +
        (s.queue_output : Multiset O) +
        inHands (s.hired .callback) (fun i => (s.callbackPc i).holding) +
        (s.fetched : Multiset O) + (s.invoked.map Prod.snd : Multiset O) ∧
      (∀ i, (s.info .process i).status = .EXITED →
        s.processPc i = .ended ∧ (s.processPc i).making process = none) ∧
      ∀ i, (s.info .callback i).status = .EXITED →
        s.callbackPc i = .ended ∧ (s.callbackPc i).holding = none := by
  refine ⟨ledger h, ?_, ?_⟩
  · intro i hex
    have hend : s.processPc i = .ended := by
      have hend := exitedEnded h .process i hex
      cases hpc : s.processPc i <;> simp [State.ended, hpc] at hend
      rfl
    exact ⟨hend, by rw [hend]; rfl⟩
  · intro i hex
    have hend : s.callbackPc i = .ended := by
      have hend := exitedEnded h .callback i hex
      cases hpc : s.callbackPc i <;> simp [State.ended, hpc] at hend
      rfl
    exact ⟨hend, by rw [hend]; rfl⟩

/-- A job is added and popped, and a second one is added. -/
theorem job_conservation_popped :
    ∃ s : State ℕ ℕ Unit, (s.queue_process = [7] ∧ s.processPc 0 = .callProcess 5) ∧
      (s.added.map (· + 1) : Multiset ℕ) =
        (s.queue_process.map (· + 1) : Multiset ℕ) +
          inHands (s.hired .process) (fun i => (s.processPc i).making (· + 1)) +
          (s.queue_output : Multiset ℕ) +
          inHands (s.hired .callback) (fun i => (s.callbackPc i).holding) +
          (s.fetched : Multiset ℕ) + (s.invoked.map Prod.snd : Multiset ℕ) := by
  obtain ⟨s, hs, hread⟩ := Machine.ReachBy.of_exec (M := machine (· + 1) 1)
    (G := BeforeDestruction) (State.initial 1)
    (runConstructor ++ runCall (.addJob 5) 4 ++ runProcess 8 ++
      runCall (.addJob 7) 2)
    (fun s : State ℕ ℕ Unit => s.queue_process = [7] ∧ s.processPc 0 = .callProcess 5)
    rfl (by decide)
  exact ⟨s, hread, (job_conservation hs).1⟩

end Pipeline
