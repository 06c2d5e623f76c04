import CcmakeTemplate.Pipeline.Calls

/-!
# Destruction

The override of `process` is gone before the body of `~pipeline` clears the queue
and fires the workers. So a worker that has popped a job, or that can still pop
one, calls a pure virtual function. It is safe to destroy the object when no job
is on its way to `process`: none popped and not yet passed on, and none queued
unless every process worker has been told to quit.
-/

namespace Pipeline

open Concurrency

variable {I O F : Type}

/-- The worker has popped a job and not called `process` yet. -/
def ProcessPc.popped : ProcessPc I O → Bool
  | .leaveTake _ | .callProcess _ => true
  | _ => false

def State.NonePopped (s : State I O F) : Prop :=
  ∀ i, i < s.hired .process → (s.processPc i).popped = false

/-- Every process worker has been told to quit. -/
def State.AllQuit (s : State I O F) : Prop :=
  ∀ i, i < s.hired .process → (s.info .process i).quit = true

/-- No job can reach `process`. -/
def State.NoJobLeft (s : State I O F) : Prop :=
  s.NonePopped ∧ (s.queue_process.isEmpty = true ∨ s.AllQuit)

instance (s : State I O F) : Decidable s.AllQuit :=
  inferInstanceAs (Decidable (∀ i, i < s.hired .process → _))

instance (s : State I O F) : Decidable s.NoJobLeft :=
  inferInstanceAs (Decidable ((∀ i, i < s.hired .process → _) ∧ _))

def pushesJob (s : State I O F) (a : Action I F) : Bool :=
  match s.call a with
  | some (.addJobPush _) => true
  | _ => false

def createsProcessWorker (s : State I O F) (a : Action I F) : Bool :=
  match s.call a with
  | some (.hireFire .process count .hire _) => decide (s.processWorkerList.length < count)
  | _ => false

/-- The object is destroyed only when no job can reach `process`, and afterwards no
other call brings one. -/
def DestroyedIdle (s : State I O F) (a : Action I F) : Prop :=
  (a.starts = .destructor → s.NoJobLeft) ∧
    (s.phase ≠ .alive → (pushesJob s a = true → s.AllQuit) ∧
      (createsProcessWorker s a = true → s.queue_process.isEmpty = true))

instance (s : State I O F) (a : Action I F) : Decidable (DestroyedIdle s a) := by
  unfold DestroyedIdle
  infer_instance

/-- While there is no override, no job can reach `process`, and none has. -/
structure Safe (s : State I O F) : Prop where
  idle : s.phase ≠ .alive → s.NoJobLeft
  pureCalls : s.pureCalls = []

theorem ProcessStep.popped {process : I → O} {i : ℕ} {s t : State I O F}
    (h : ProcessStep process i s t) (hs : s.NoJobLeft) (hi : i < s.hired .process) :
    (t.processPc i).popped = false := by
  have hpopped := hs.1 i hi
  cases h with
  | take hpc hquit hq =>
      -- an empty queue has no job, and a worker told to quit takes none
      rcases hs.2 with hempty | hall
      · simp [hq] at hempty
      · simp [hall i hi] at hquit
  | go h | sets h =>
      simp only [Function.update_self]
      generalize s.processPc i = pc at h
      cases h <;> rfl
  | leave h =>
      simp only [Function.update_self]
      generalize s.processPc i = pc at h hpopped
      cases h with
      | take => cases hpopped
      | _ => rfl
  | _ => simp [ProcessPc.popped]

theorem ProcessStep.noJobLeft {process : I → O} {i : ℕ} {s t : State I O F}
    (h : ProcessStep process i s t) (hi : i < s.hired .process) (hs : s.NoJobLeft) :
    t.NoJobLeft := by
  have hframe := h.frame
  refine ⟨?_, ?_⟩
  · intro j hj
    rw [hframe.hired] at hj
    by_cases hji : j = i
    · subst hji
      exact h.popped hs hi
    · rw [hframe.processPc j hji]
      exact hs.1 j hj
  · rcases hs.2 with hempty | hall
    · left
      cases h with
      | take hpc hquit hq => simp [hq] at hempty
      | _ => exact hempty
    · right
      intro j hj
      rw [hframe.hired] at hj
      rw [hframe.quit]
      exact hall j hj

theorem ProcessStep.safe {process : I → O} {i : ℕ} {s t : State I O F}
    (h : ProcessStep process i s t) (hi : i < s.hired .process) (hs : Safe s) : Safe t := by
  refine ⟨fun hphase => ?_, ?_⟩
  · rw [h.frame.phase] at hphase
    exact h.noJobLeft hi (hs.idle hphase)
  · cases h with
    | pureCall hpc hgone =>
        have hpopped := (hs.idle hgone).1 i hi
        simp [hpc, ProcessPc.popped] at hpopped
    | _ => exact hs.pureCalls

/-! ## Public methods -/

theorem CallStep.noJobLeft {u : Thread} {s t : State I O F} {pc pc' : CallPc I F}
    (h : CallStep u s pc t pc') (hpush : (∃ job, pc = .addJobPush job) → s.AllQuit)
    (hcreate : ∀ count ret, pc = .hireFire .process count .hire ret →
      s.processWorkerList.length < count → s.queue_process.isEmpty = true)
    (hs : s.NoJobLeft) : t.NoJobLeft := by
  cases h with
  | add job => exact ⟨hs.1, .inr (hpush ⟨job, rfl⟩)⟩
  | clearProcess => exact ⟨hs.1, .inl rfl⟩
  | @create crew count ret hlt =>
      cases crew with
      | callback => exact hs
      | process =>
          refine ⟨?_, .inl (hcreate count ret rfl hlt)⟩
          intro i hi
          by_cases hnew : i = s.hired .process
          · subst hnew
            simp [startWorker, ProcessPc.popped]
          · simp only [startWorker, Function.update_self] at hi
            simp only [startWorker, Function.update_of_ne hnew]
            exact hs.1 i (by omega)
  | @setQuit crew count id ret =>
      refine ⟨hs.1, hs.2.imp_right fun hall i hi => ?_⟩
      by_cases heq : (Crew.process, i) = (crew, id)
      · cases heq
        simp
      · rw [State.setInfo_other heq]
        exact hall i hi
  | @notifyAll crew => cases crew <;> exact hs
  | @returns _ _ ret => cases ret <;> exact hs
  | _ => exact hs

theorem CallStep.pureCalls {u : Thread} {s t : State I O F} {pc pc' : CallPc I F}
    (h : CallStep u s pc t pc') : t.pureCalls = s.pureCalls := by
  cases h with
  | @create crew => cases crew <;> rfl
  | @notifyAll crew => cases crew <;> rfl
  | @returns _ _ ret => cases ret <;> rfl
  | _ => rfl

theorem CallStep.safe {u : Thread} {s t : State I O F} {pc pc' : CallPc I F}
    (h : CallStep u s pc t pc')
    (hpush : s.phase ≠ .alive → (∃ job, pc = .addJobPush job) → s.AllQuit)
    (hcreate : s.phase ≠ .alive → ∀ count ret, pc = .hireFire .process count .hire ret →
      s.processWorkerList.length < count → s.queue_process.isEmpty = true)
    (hphase : t.phase ≠ .alive → s.phase ≠ .alive) (hs : Safe s) : Safe t := by
  refine ⟨fun ht => ?_, ?_⟩
  · have hgone := hphase ht
    exact h.noJobLeft (hpush hgone) (hcreate hgone) (hs.idle hgone)
  · rw [h.pureCalls]
    exact hs.pureCalls

/-- Only `destroy` ends the life of the object. -/
theorem CallStep.phase_alive {c : ℕ} {s t : State I O F} {pc : CallPc I F} (hlife : LifeCycle s)
    (h : CallStep (.client c) s (s.clientPc c) t pc) (ht : t.phase ≠ .alive) :
    s.phase ≠ .alive := by
  intro halive
  have hadmits := hlife.client c
  have hphase := h.phaseStep
  rw [halive] at hadmits hphase
  generalize (s.clientPc c).kind = kind at hadmits hphase
  generalize pc.kind = kind' at hphase
  generalize t.phase = phase' at ht hphase
  cases hphase with
  | stay | returned | constructed => exact ht rfl
  | destroyed => exact hadmits.2 rfl

/-! ## Every run -/

theorem CallbackStep.safe {i : ℕ} {wake : Option Thread} {s t : State I O F}
    (h : CallbackStep i s t) (hG : DestroyedIdle s (.callback i wake)) (hlife : LifeCycle s)
    (hs : Safe s) : Safe t := by
  have hphase := h.phase hlife
  cases h with
  | @nested f product call call' s' hpc h =>
      have hcall : s.call (.callback i wake) = some call := by simp [State.call, hpc]
      have hsafe : Safe s' := by
        refine h.safe ?_ ?_ (fun ht => ?_) hs
        · rintro hgone ⟨job, rfl⟩
          exact (hG.2 hgone).1 (by simp [pushesJob, hcall])
        · rintro hgone count ret rfl hlt
          exact (hG.2 hgone).2 (by simpa [createsProcessWorker, hcall] using hlt)
        · rwa [← hphase]
      exact ⟨hsafe.idle, hsafe.pureCalls⟩
  | _ => exact ⟨hs.idle, hs.pureCalls⟩

theorem Step.safe {process : I → O} {s t : State I O F} {a : Action I F}
    (h : Step process s a t) (hG : DestroyedIdle s a) (hlife : LifeCycle s) (hs : Safe s) :
    Safe t := by
  cases h with
  | process hi h => exact h.safe hi hs
  | callback hi h => exact h.safe hG hlife hs
  | @client c wake u pc h =>
      have hsafe : Safe u := by
        refine h.safe ?_ ?_ (fun ht => h.phase_alive hlife ht) hs
        · rintro hgone ⟨job, hpc⟩
          exact (hG.2 hgone).1 (by simp [pushesJob, State.call, hpc])
        · intro hgone count ret hpc hlt
          exact (hG.2 hgone).2 (by simpa [createsProcessWorker, State.call, hpc] using hlt)
      exact ⟨hsafe.idle, hsafe.pureCalls⟩
  | destroy => exact ⟨fun _ => hG.1 rfl, hs.pureCalls⟩
  | call | nest | spurious => exact ⟨hs.idle, hs.pureCalls⟩

/-- No run in which the object is destroyed with no job on its way to `process` calls
`process` without an override. -/
theorem no_pure_call {process : I → O} {workerCnt : ℕ} {s : State I O F}
    (h : (machine process workerCnt).ReachBy DestroyedIdle s) : s.pureCalls = [] := by
  suffices hsafe : Safe s from hsafe.pureCalls
  refine h.invariant (P := Safe) ?_ ?_
  · rintro s rfl
    refine ⟨fun _ => ⟨fun i hi => ?_, .inl rfl⟩, rfl⟩
    cases hi
  · intro s a t hreach hs hG hst
    exact (step_cases hst).safe hG (lifeCycle hreach) hs

/-- The object is destroyed after its only job has been processed. -/
theorem no_pure_call_processed :
    ∃ s : State ℕ ℕ Unit, (s.phase = .destroying ∧ s.queue_output = [6]) ∧
      s.pureCalls = [] := by
  obtain ⟨s, hs, hread⟩ := Machine.ReachBy.of_exec (M := machine (· + 1) 1)
    (G := DestroyedIdle) (State.initial 1)
    (runConstructor ++ runCall (.addJob 5) 4 ++ runProcess 13 ++ [.destroy 0] ++
      List.replicate 3 (.client 0 none))
    (fun s : State ℕ ℕ Unit => s.phase = .destroying ∧ s.queue_output = [6])
    rfl (by decide)
  exact ⟨s, hread, no_pure_call hs⟩

/-- A job is queued, the object is destroyed, and the worker pops the job before the
destructor has taken `mutex_process`. -/
theorem pure_call_of_queued_job :
    ¬ ∀ s : State ℕ ℕ Unit, (machine (· + 1) 1).Reach s → s.pureCalls = [] := by
  intro hall
  obtain ⟨s, hs, hcalls⟩ := Machine.ReachBy.of_exec (M := machine (· + 1) 1)
    (G := fun _ _ => True) (State.initial 1)
    (runConstructor ++ runCall (.addJob 5) 4 ++ [.destroy 0] ++ runProcess 9)
    (fun s : State ℕ ℕ Unit => s.pureCalls = [5]) rfl (by decide)
  have h := hall s hs
  simp [hcalls] at h

end Pipeline
