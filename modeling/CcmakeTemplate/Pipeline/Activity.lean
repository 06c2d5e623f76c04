import CcmakeTemplate.Pipeline.Sharing

/-!
# One step, whoever makes the call

A public method runs in the thread of a client or inside a callback, and what it does
is the same in both. `Activity` sorts the steps of the machine so: the own steps of a
process worker, the own steps of a callback worker, a step of the call that some thread
is in, and the start of a call. `State.doing` is a table of calls, and a step updates
one entry of it at most.
-/

namespace Pipeline

open Concurrency

variable {I O F : Type}

/-- Two states that differ in the program points of clients and callback workers only. -/
structure Alike (s t : State I O F) : Prop where
  queue_process : t.queue_process = s.queue_process
  queue_output : t.queue_output = s.queue_output
  outputCallback : t.outputCallback = s.outputCallback
  mutex_process : t.mutex_process = s.mutex_process
  mutex_output : t.mutex_output = s.mutex_output
  cv_jobAdd : t.cv_jobAdd = s.cv_jobAdd
  workerList : t.workerList = s.workerList
  hired : t.hired = s.hired
  info : t.info = s.info
  processPc : t.processPc = s.processPc
  added : t.added = s.added
  fetched : t.fetched = s.fetched
  invoked : t.invoked = s.invoked

/-- What a callback worker leaves alone outside the calls of its callback. -/
structure CallbackFrame (s t : State I O F) : Prop where
  queue_process : t.queue_process = s.queue_process
  mutex_process : t.mutex_process = s.mutex_process
  cv_jobAdd : t.cv_jobAdd = s.cv_jobAdd
  workerList : t.workerList = s.workerList
  hired : t.hired = s.hired
  info : t.info .process = s.info .process
  processPc : t.processPc = s.processPc
  added : t.added = s.added
  fetched : t.fetched = s.fetched

/-- The call that an action starts, and the thread that makes it. -/
def Action.entry : Action I F → Option (Thread × CallPc I F)
  | .call c op => some (.client c, op.entry)
  | .nest i op => some (.worker .callback i, op.entry)
  | .destroy c => some (.client c, .clearProcessLock)
  | _ => none

/-- The thread that takes the step. -/
def Action.thread : Action I F → Option Thread
  | .process i _ => some (.worker .process i)
  | .callback i _ | .nest i _ => some (.worker .callback i)
  | .client c _ | .call c _ | .destroy c => some (.client c)
  | .spurious _ => none

inductive Activity (process : I → O) (s : State I O F) (a : Action I F) (t : State I O F) : Prop
  | process {i : ℕ} (hi : i < s.hired .process) (h : ProcessStep process i s t)
      (ha : a.thread = some (.worker .process i)) (hdoing : t.doing = s.doing)
  | callback {i : ℕ} (hi : i < s.hired .callback) (h : CallbackStep i s t)
      (ha : a.thread = some (.worker .callback i)) (hdoing : t.doing = s.doing)
      (hout : s.doing (.worker .callback i) = .out) (hframe : CallbackFrame s t)
  | call {u : Thread} {s' : State I O F} {pc : CallPc I F}
      (ha : a.thread = some u ∧ s.call a = some (s.doing u)) (h : CallStep u s (s.doing u) s' pc)
      (hdoing : t.doing = Function.update s.doing u pc) (halike : Alike s' t)
      (hphase : t.phase = s'.phase)
  | entry {u : Thread} {pc : CallPc I F} (ha : a.entry = some (u, pc)) (hout : s.doing u = .out)
      (hdoing : t.doing = Function.update s.doing u pc) (halike : Alike s t)
  | spurious {u : Thread} (ha : a = .spurious u) (hdoing : t.doing = s.doing)
      (ht : t = { s with
        cv_jobAdd := s.cv_jobAdd.erase u
        cv_processFinish := s.cv_processFinish.erase u })

/-! ## The table of calls -/

theorem State.doing_goClient (s : State I O F) (c : ℕ) (pc : CallPc I F) :
    (s.goClient c pc).doing = Function.update s.doing (.client c) pc := by
  funext u
  by_cases hu : u = .client c
  · subst hu
    simp [State.doing]
  · rw [Function.update_of_ne hu]
    cases u with
    | worker crew i => cases crew <;> rfl
    | client c' =>
        have hc : c' ≠ c := fun heq => hu (by rw [heq])
        simp [State.doing, hc]

def CallbackPc.call : CallbackPc I O F → CallPc I F
  | .inCallback _ _ call => call
  | _ => .out

theorem State.doing_callback (s : State I O F) (i : ℕ) :
    s.doing (.worker .callback i) = (s.callbackPc i).call := by
  simp only [State.doing]
  cases s.callbackPc i <;> rfl

theorem State.doing_goCallback (s : State I O F) (i : ℕ) (pc : CallbackPc I O F) :
    (s.goCallback i pc).doing = Function.update s.doing (.worker .callback i) pc.call := by
  funext u
  by_cases hu : u = .worker .callback i
  · subst hu
    simp [State.doing_callback]
  · rw [Function.update_of_ne hu]
    cases u with
    | client c => rfl
    | worker crew j =>
        cases crew with
        | process => rfl
        | callback =>
            have hj : j ≠ i := fun heq => hu (by rw [heq])
            simp [State.doing, hj]

theorem State.doing_stays {s : State I O F} {i : ℕ} {pc : CallbackPc I O F}
    (hout : s.doing (.worker .callback i) = .out) (hpc : pc.call = .out) :
    (s.goCallback i pc).doing = s.doing := by
  rw [State.doing_goCallback, hpc]
  exact Function.update_eq_self_iff.mpr hout.symm

theorem CallStep.doing {u : Thread} {s t : State I O F} {pc pc' : CallPc I F}
    (h : CallStep u s pc t pc') (hborn : Unborn s) : t.doing = s.doing := by
  funext v
  cases v with
  | client c => simp only [State.doing, h.frame.1]
  | worker crew i =>
      cases crew with
      | process => rfl
      | callback => simp only [State.doing, (h.workers hborn).2]

theorem ProcessStep.doing {process : I → O} {i : ℕ} {s t : State I O F}
    (h : ProcessStep process i s t) : t.doing = s.doing := by
  funext u
  cases u with
  | client c => simp only [State.doing, h.frame.clientPc]
  | worker crew i => cases crew <;> simp only [State.doing, h.frame.callbackPc]

theorem CallbackGo.call {s : State I O F} {i : ℕ} {pc pc' : CallbackPc I O F}
    (h : CallbackGo s i pc pc') : pc.call = .out ∧ pc'.call = .out := by
  cases h <;> exact ⟨rfl, rfl⟩

theorem CallbackSets.call {status : ThreadStatus} {pc pc' : CallbackPc I O F}
    (h : CallbackSets pc status pc') : pc.call = .out ∧ pc'.call = .out := by
  cases h <;> exact ⟨rfl, rfl⟩

theorem CallbackLocks.call {s : State I O F} {i : ℕ} {pc pc' : CallbackPc I O F}
    (h : CallbackLocks s i pc pc') : pc.call = .out ∧ pc'.call = .out := by
  cases h <;> exact ⟨rfl, rfl⟩

theorem CallbackLeaves.call {pc pc' : CallbackPc I O F} (h : CallbackLeaves pc pc') :
    pc.call = .out ∧ pc'.call = .out := by
  cases h <;> exact ⟨rfl, rfl⟩

theorem CallbackLocksShared.call {pc pc' : CallbackPc I O F} (h : CallbackLocksShared pc pc') :
    pc.call = .out ∧ pc'.call = .out := by
  cases h <;> exact ⟨rfl, rfl⟩

theorem CallbackUnlocksShared.call {pc pc' : CallbackPc I O F}
    (h : CallbackUnlocksShared pc pc') : pc.call = .out ∧ pc'.call = .out := by
  cases h <;> exact ⟨rfl, rfl⟩

/-- An own step of a callback worker, outside the calls of its callback. -/
theorem CallbackStep.own {i : ℕ} {s t : State I O F} (h : CallbackStep i s t)
    (hown : ∀ f product call, s.callbackPc i = .inCallback f product call → call = .out) :
    s.doing (.worker .callback i) = .out ∧ t.doing = s.doing ∧ CallbackFrame s t := by
  have hdoing := State.doing_callback s i
  cases h with
  | go h =>
      obtain ⟨hout, hpc⟩ := h.call
      rw [← hdoing] at hout
      exact ⟨hout, State.doing_stays hout hpc, ⟨rfl, rfl, rfl, rfl, rfl, rfl, rfl, rfl, rfl⟩⟩
  | sets h =>
      obtain ⟨hout, hpc⟩ := h.call
      rw [← hdoing] at hout
      refine ⟨hout, State.doing_stays hout hpc, ⟨rfl, rfl, rfl, rfl, rfl, ?_, rfl, rfl, rfl⟩⟩
      simp
  | lock h =>
      obtain ⟨hout, hpc⟩ := h.call
      rw [← hdoing] at hout
      exact ⟨hout, State.doing_stays hout hpc, ⟨rfl, rfl, rfl, rfl, rfl, rfl, rfl, rfl, rfl⟩⟩
  | leave h =>
      obtain ⟨hout, hpc⟩ := h.call
      rw [← hdoing] at hout
      exact ⟨hout, State.doing_stays hout hpc, ⟨rfl, rfl, rfl, rfl, rfl, rfl, rfl, rfl, rfl⟩⟩
  | lockShared h =>
      obtain ⟨hout, hpc⟩ := h.call
      rw [← hdoing] at hout
      exact ⟨hout, State.doing_stays hout hpc, ⟨rfl, rfl, rfl, rfl, rfl, rfl, rfl, rfl, rfl⟩⟩
  | unlockShared h =>
      obtain ⟨hout, hpc⟩ := h.call
      rw [← hdoing] at hout
      exact ⟨hout, State.doing_stays hout hpc, ⟨rfl, rfl, rfl, rfl, rfl, rfl, rfl, rfl, rfl⟩⟩
  | block hpc | pick hpc | invoke hpc | requeue hpc =>
      have hout : s.doing (.worker .callback i) = .out := by
        rw [hdoing, hpc]
        rfl
      exact ⟨hout, State.doing_stays hout rfl, ⟨rfl, rfl, rfl, rfl, rfl, rfl, rfl, rfl, rfl⟩⟩
  | nested hpc h =>
      obtain rfl := hown _ _ _ hpc
      exact absurd h CallStep.not_out

theorem Step.activity {process : I → O} {s t : State I O F} {a : Action I F}
    (h : Step process s a t) (hborn : Unborn s) : Activity process s a t := by
  cases h with
  | process hi h => exact .process hi h rfl h.doing
  | @callback i wake _ hi h =>
      by_cases hown : ∀ f product call, s.callbackPc i = .inCallback f product call → call = .out
      · obtain ⟨hout, hdoing, hframe⟩ := h.own hown
        exact .callback hi h rfl hdoing hout hframe
      · cases h with
        | @nested f product call call' s' hpc h =>
            have hcall : s.doing (.worker .callback i) = call := by
              rw [State.doing_callback, hpc]
              rfl
            have h' : CallStep (.worker .callback i) s (s.doing (.worker .callback i)) s'
                call' := by
              rwa [hcall]
            refine .call ⟨rfl, ?_⟩ h' ?_
              ⟨rfl, rfl, rfl, rfl, rfl, rfl, rfl, rfl, rfl, rfl, rfl, rfl, rfl⟩ rfl
            · simp [State.call, hpc, hcall]
            · rw [State.doing_goCallback, h.doing hborn]
              rfl
        | go h | sets h | lock h | leave h | lockShared h | unlockShared h =>
            refine absurd (fun f product call hpc => ?_) hown
            have hout := h.call.1
            rw [hpc] at hout
            exact hout
        | block hpc | pick hpc | invoke hpc | requeue hpc =>
            refine absurd (fun f product call hpc' => ?_) hown
            cases hpc.symm.trans hpc'
  | @client c wake s' pc h =>
      refine .call (u := .client c) ⟨rfl, rfl⟩ h ?_
        ⟨rfl, rfl, rfl, rfl, rfl, rfl, rfl, rfl, rfl, rfl, rfl, rfl, rfl⟩ rfl
      rw [State.doing_goClient, h.doing hborn]
  | @call c op halive hpc =>
      exact .entry rfl hpc (State.doing_goClient _ _ _)
        ⟨rfl, rfl, rfl, rfl, rfl, rfl, rfl, rfl, rfl, rfl, rfl, rfl, rfl⟩
  | @nest i op f product hpc =>
      refine .entry (u := .worker .callback i) rfl ?_ (State.doing_goCallback _ _ _)
        ⟨rfl, rfl, rfl, rfl, rfl, rfl, rfl, rfl, rfl, rfl, rfl, rfl, rfl⟩
      rw [State.doing_callback, hpc]
      rfl
  | @destroy c halive hpc =>
      exact .entry rfl hpc (State.doing_goClient _ _ _)
        ⟨rfl, rfl, rfl, rfl, rfl, rfl, rfl, rfl, rfl, rfl, rfl, rfl, rfl⟩
  | spurious => exact .spurious rfl rfl rfl

/-- Who is inside a critical section of a call owns its mutex. -/
theorem doing_owns {s : State I O F} {crew : Crew} (hs : (s.mutex crew).Guards (s.holds crew))
    {u : Thread} (h : (s.doing u).inside crew = true) : s.mutex crew = some u := by
  refine hs u ?_
  cases u with
  | client c => exact h
  | worker crew' i =>
      cases crew' with
      | process => cases crew <;> cases h
      | callback =>
          rw [State.doing_callback] at h
          simp only [State.holds]
          cases hpc : s.callbackPc i with
          | inCallback f product call =>
              rw [hpc] at h
              cases crew <;> exact h
          | _ =>
              rw [hpc] at h
              cases crew <;> cases h

end Pipeline
