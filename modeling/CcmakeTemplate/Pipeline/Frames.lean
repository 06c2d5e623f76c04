import CcmakeTemplate.Pipeline.Steps
import CcmakeTemplate.Concurrency.Threads

/-!
# What a step leaves alone

A worker writes its own program point and the status in its own `threadInfo`. It
never writes a `quit` flag, a worker list or the callback. A public method
writes `quit` flags and worker lists, and the only program point it sets besides
its own is that of a worker it starts.
-/

namespace Pipeline

open Concurrency

variable {I O F : Type}

/-! ## Process workers -/

structure ProcessFrame (i : ℕ) (s t : State I O F) : Prop where
  callbackPc : t.callbackPc = s.callbackPc
  clientPc : t.clientPc = s.clientPc
  workerList : t.workerList = s.workerList
  hired : t.hired = s.hired
  phase : t.phase = s.phase
  outputCallback : t.outputCallback = s.outputCallback
  mutex_outputCallback : t.mutex_outputCallback = s.mutex_outputCallback
  processPc : ∀ j, j ≠ i → t.processPc j = s.processPc j
  info : ∀ crew j, (crew, j) ≠ (.process, i) → t.info crew j = s.info crew j
  quit : ∀ crew j, (t.info crew j).quit = (s.info crew j).quit

theorem State.setStatus_other {s : State I O F} {crew crew' : Crew} {i j : ℕ}
    {status : ThreadStatus} (h : (crew', j) ≠ (crew, i)) :
    (s.setStatus crew i status).info crew' j = s.info crew' j := by
  by_cases hcrew : crew' = crew
  · subst hcrew
    have hj : j ≠ i := fun hj => h (by rw [hj])
    simp [hj]
  · simp [hcrew]

theorem State.setStatus_quit {s : State I O F} {crew crew' : Crew} {i j : ℕ}
    {status : ThreadStatus} :
    ((s.setStatus crew i status).info crew' j).quit = (s.info crew' j).quit := by
  by_cases h : (crew', j) = (crew, i)
  · cases h
    simp
  · rw [State.setStatus_other h]

theorem State.setStatus_self {s : State I O F} {crew : Crew} {i : ℕ} {status : ThreadStatus} :
    ((s.setStatus crew i status).info crew i).status = status := by
  simp

theorem ProcessStep.frame {process : I → O} {i : ℕ} {s t : State I O F}
    (h : ProcessStep process i s t) : ProcessFrame i s t := by
  cases h with
  | sets h =>
      exact ⟨rfl, rfl, rfl, rfl, rfl, rfl, rfl, fun j hj => Function.update_of_ne hj _ _,
        fun _ _ h => State.setStatus_other h, fun _ _ => State.setStatus_quit⟩
  | _ =>
      exact ⟨rfl, rfl, rfl, rfl, rfl, rfl, rfl, fun j hj => Function.update_of_ne hj _ _,
        fun _ _ _ => rfl, fun _ _ => rfl⟩

/-! ## Public methods -/

/-- A method step moves nobody but the thread that runs it, and a worker that it
starts. -/
theorem CallStep.frame {t : Thread} {s s' : State I O F} {pc pc' : CallPc I F}
    (h : CallStep t s pc s' pc') :
    s'.clientPc = s.clientPc ∧
      (s'.callbackPc = s.callbackPc ∨
        s'.callbackPc = Function.update s.callbackPc (s.hired .callback) .start) := by
  cases h with
  | @create crew => cases crew <;> simp [startWorker]
  | @notifyAll crew => cases crew <;> simp [Pipeline.notifyAll]
  | @returns _ _ ret => cases ret <;> simp [resume]
  | _ => exact ⟨rfl, .inl rfl⟩

theorem CallStep.hired_le {u : Thread} {s t : State I O F} {pc pc' : CallPc I F}
    (h : CallStep u s pc t pc') (crew : Crew) : s.hired crew ≤ t.hired crew := by
  cases h with
  | @create crew' => cases crew' <;> cases crew <;> simp [startWorker]
  | @notifyAll crew' => cases crew' <;> exact le_rfl
  | @returns _ _ ret => cases ret <;> exact le_rfl
  | _ => exact le_rfl

/-- A callback worker that was there before stays where it is. -/
theorem CallStep.callbackPc_old {u : Thread} {s t : State I O F} {pc pc' : CallPc I F}
    (h : CallStep u s pc t pc') {i : ℕ} (hi : i < s.hired .callback) :
    t.callbackPc i = s.callbackPc i := by
  rcases h.frame.2 with heq | heq
  · rw [heq]
  · rw [heq, Function.update_of_ne hi.ne]

theorem startWorker_ended {s : State I O F} {crew crew' : Crew} {i j : ℕ}
    (h : (crew', j) ≠ (crew, i)) : (startWorker s i crew).ended crew' j = s.ended crew' j := by
  cases crew <;> cases crew' <;>
    simp only [startWorker, State.ended, ne_eq, Prod.mk.injEq, true_and] at h ⊢ <;>
    rw [Function.update_of_ne h]

theorem startWorker_info (s : State I O F) (i : ℕ) (crew : Crew) :
    (startWorker s i crew).info = s.info := by
  cases crew <;> rfl

theorem State.setInfo_other {s : State I O F} {crew crew' : Crew} {i j : ℕ}
    {info : ThreadInfo} (h : (crew', j) ≠ (crew, i)) :
    (s.setInfo crew i info).info crew' j = s.info crew' j := by
  by_cases hcrew : crew' = crew
  · subst hcrew
    have hj : j ≠ i := fun hj => h (by rw [hj])
    simp [hj]
  · simp [hcrew]

/-- A method step never makes a status `EXITED`, and it restarts no worker whose
status is. -/
theorem CallStep.exited {t : Thread} {s s' : State I O F} {pc pc' : CallPc I F}
    (h : CallStep t s pc s' pc') {crew : Crew} {i : ℕ}
    (hex : (s'.info crew i).status = .EXITED) :
    (s.info crew i).status = .EXITED ∧ s'.ended crew i = s.ended crew i := by
  cases h with
  | @create crew' =>
      rw [startWorker_info] at hex
      have hne : (crew, i) ≠ (crew', s.hired crew') := by
        intro heq
        cases heq
        simp at hex
      rw [State.setInfo_other hne] at hex
      exact ⟨hex, startWorker_ended hne⟩
  | @setQuit crew' _ id =>
      refine ⟨?_, rfl⟩
      by_cases heq : (crew, i) = (crew', id)
      · cases heq
        simpa using hex
      · rwa [State.setInfo_other heq] at hex
  | @notifyAll crew' => cases crew' <;> exact ⟨hex, rfl⟩
  | @returns _ _ ret => cases ret <;> exact ⟨hex, rfl⟩
  | _ => exact ⟨hex, rfl⟩

/-! ## Callback workers -/

/-- A thread that has returned takes no step. -/
theorem ProcessStep.running {process : I → O} {i : ℕ} {s t : State I O F}
    (h : ProcessStep process i s t) : s.ended .process i = false := by
  cases hpc : s.processPc i with
  | ended =>
      cases h with
      | go h | sets h | leave h =>
          rw [hpc] at h
          cases h
      | lockProcess h => simp [hpc] at h
      | take h | push h | block h | pureCall h | lockOutput h | unlockOutput h | notify h =>
          simp [hpc] at h
  | _ => simp [State.ended, hpc]

theorem CallbackStep.running {i : ℕ} {s t : State I O F} (h : CallbackStep i s t) :
    s.ended .callback i = false := by
  cases hpc : s.callbackPc i with
  | ended =>
      cases h with
      | go h | sets h | lock h | leave h | lockShared h | unlockShared h =>
          rw [hpc] at h
          cases h
      | block h | pick h | invoke h | requeue h | nested h => simp [hpc] at h
  | _ => simp [State.ended, hpc]

end Pipeline
