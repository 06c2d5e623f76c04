import CcmakeTemplate.Pipeline.Frames

/-!
# Critical sections

`mutex_process` guards the process crew's queue and condition variable, and
`mutex_output` guards those of the callback crew. A thread whose program point
lies in a critical section owns the mutex, so no two threads are inside at once.
-/

namespace Pipeline

open Concurrency

variable {I O F : Type}

/-- The mutex that `hireFireWorker` is called with for the crew. -/
def State.mutex (s : State I O F) : Crew → Mutex Thread
  | .process => s.mutex_process
  | .callback => s.mutex_output

def ProcessPc.inside : Crew → ProcessPc I O → Bool
  | .process, .check | .process, .block | .process, .busy | .process, .branch
  | .process, .leaveQuit | .process, .leaveEmpty | .process, .leaveTake _ => true
  | .callback, .push _ | .callback, .unlockOutput => true
  | _, _ => false

def CallPc.inside : Crew → CallPc I F → Bool
  | .process, .addJobPush _ | .process, .addJobNotify | .process, .addJobUnlock
  | .process, .clearProcessSwap | .process, .clearProcessUnlock => true
  | .callback, .getProductTake | .callback, .getProductUnlock
  | .callback, .clearOutputSwap | .callback, .clearOutputUnlock => true
  | _, .countSizes | _, .countScan .. | _, .countUnlock .. => true
  | _, _ => false

def CallbackPc.inside : Crew → CallbackPc I O F → Bool
  | .callback, .tryShared | .callback, .check | .callback, .unlockCheck _ | .callback, .block
  | .callback, .busy | .callback, .branch | .callback, .leaveQuit | .callback, .leaveEmpty
  | .callback, .leaveTake _ | .callback, .requeue _ | .callback, .unlockRequeue => true
  | crew, .inCallback _ _ call => call.inside crew
  | _, _ => false

def State.holds (s : State I O F) (crew : Crew) : Thread → Bool
  | .worker .process i => (s.processPc i).inside crew
  | .worker .callback i => (s.callbackPc i).inside crew
  | .client c => (s.clientPc c).inside crew

/-! ## Process workers -/

theorem ProcessGo.inside {process : I → O} {s : State I O F} {i : ℕ} {pc pc' : ProcessPc I O}
    (h : ProcessGo process s i pc pc') (crew : Crew) : pc'.inside crew = pc.inside crew := by
  cases h <;> cases crew <;> rfl

theorem ProcessSets.inside {status : ThreadStatus} {pc pc' : ProcessPc I O}
    (h : ProcessSets pc status pc') (crew : Crew) : pc'.inside crew = pc.inside crew := by
  cases h <;> cases crew <;> rfl

theorem ProcessLeaves.inside {pc pc' : ProcessPc I O} (h : ProcessLeaves pc pc') :
    (pc.inside .process = true ∧ pc'.inside .process = false) ∧
      pc'.inside .callback = pc.inside .callback := by
  cases h <;> exact ⟨⟨rfl, rfl⟩, rfl⟩

theorem ProcessStep.handover {process : I → O} {i : ℕ} {s t : State I O F}
    (h : ProcessStep process i s t) (crew : Crew) :
    Mutex.Handover (.worker .process i) (s.mutex crew) ((s.processPc i).inside crew)
      (t.mutex crew) ((t.processPc i).inside crew) := by
  cases h with
  | go h =>
      simp only [Function.update_self]
      exact .keep rfl (h.inside crew)
  | sets h =>
      simp only [Function.update_self]
      exact .keep rfl (h.inside crew)
  | leave h =>
      simp only [Function.update_self]
      cases crew with
      | process => exact .release h.inside.1.1 h.inside.1.2 rfl
      | callback => exact .keep rfl h.inside.2
  | lockProcess hpc hfree =>
      cases crew with
      | process => exact .take hfree rfl
      | callback =>
          refine .keep rfl ?_
          rcases hpc with hpc | ⟨hpc, -⟩ <;> simp [hpc, ProcessPc.inside]
  | block hpc =>
      cases crew with
      | process => exact .release (by simp [hpc, ProcessPc.inside]) (by simp [ProcessPc.inside]) rfl
      | callback => exact .keep rfl (by simp [hpc, ProcessPc.inside])
  | lockOutput hpc hfree =>
      cases crew with
      | process => exact .keep rfl (by simp [hpc, ProcessPc.inside])
      | callback => exact .take hfree rfl
  | unlockOutput hpc =>
      cases crew with
      | process => exact .keep rfl (by simp [hpc, ProcessPc.inside])
      | callback =>
          exact .release (by simp [hpc, ProcessPc.inside]) (by simp [ProcessPc.inside]) rfl
  | take hpc | pureCall hpc | push hpc | notify hpc =>
      cases crew <;> exact .keep rfl (by simp [hpc, ProcessPc.inside])

/-! ## Public methods -/

theorem CallGo.inside {s : State I O F} {pc pc' : CallPc I F} (h : CallGo s pc pc')
    (crew : Crew) : pc'.inside crew = pc.inside crew := by
  cases h <;> cases crew <;> rfl

theorem resume_inside (s : State I O F) (ret : Return) (crew : Crew) :
    (resume s ret).2.inside crew = false := by
  cases ret <;> cases crew <;> rfl

theorem resume_mutex (s : State I O F) (ret : Return) (crew : Crew) :
    (resume s ret).1.mutex crew = s.mutex crew := by
  cases ret <;> cases crew <;> rfl

theorem startWorker_mutex (s : State I O F) (i : ℕ) (crew crew' : Crew) :
    (startWorker s i crew).mutex crew' = s.mutex crew' := by
  cases crew <;> cases crew' <;> rfl

theorem CallStep.handover {u : Thread} {s t : State I O F} {pc pc' : CallPc I F}
    (h : CallStep u s pc t pc') (crew : Crew) :
    Mutex.Handover u (s.mutex crew) (pc.inside crew) (t.mutex crew) (pc'.inside crew) := by
  cases h with
  | go h => exact .keep rfl (h.inside crew)
  | lockProcess h hfree =>
      cases crew with
      | process => exact .take hfree rfl
      | callback => exact .keep rfl (by cases h <;> rfl)
  | unlockProcess h =>
      cases crew with
      | process => exact .release (by cases h <;> rfl) (by cases h <;> rfl) rfl
      | callback => exact .keep rfl (by cases h <;> rfl)
  | lockOutput h hfree =>
      cases crew with
      | process => exact .keep rfl (by cases h <;> rfl)
      | callback => exact .take hfree rfl
  | unlockOutput h =>
      cases crew with
      | process => exact .keep rfl (by cases h <;> rfl)
      | callback => exact .release (by cases h <;> rfl) (by cases h <;> rfl) rfl
  | lockBoth hfree hfree' =>
      cases crew with
      | process => exact .take hfree rfl
      | callback => exact .take hfree' rfl
  | unlockBoth => cases crew <;> exact .release rfl rfl rfl
  | @create crew' => exact .keep (startWorker_mutex _ _ _ _) (by cases crew <;> rfl)
  | @notifyAll crew' => cases crew' <;> cases crew <;> exact .keep rfl rfl
  | @returns _ _ ret =>
      refine .keep (resume_mutex s ret crew) ?_
      rw [resume_inside]
      cases crew <;> rfl
  | _ => cases crew <;> exact .keep rfl rfl

/-- A worker that has just been started is in no critical section. -/
theorem startWorker_holds {s : State I O F} {i : ℕ} {crew crew' : Crew} {v : Thread}
    (h : (startWorker s i crew).holds crew' v = true) : s.holds crew' v = true := by
  cases crew with
  | process =>
      cases v with
      | client c => exact h
      | worker crew'' j =>
          cases crew'' with
          | callback => exact h
          | process =>
              by_cases hj : j = i
              · subst hj
                cases crew' <;> simp [startWorker, State.holds, ProcessPc.inside] at h
              · simpa [startWorker, State.holds, hj] using h
  | callback =>
      cases v with
      | client c => exact h
      | worker crew'' j =>
          cases crew'' with
          | process => exact h
          | callback =>
              by_cases hj : j = i
              · subst hj
                cases crew' <;> simp [startWorker, State.holds, CallbackPc.inside] at h
              · simpa [startWorker, State.holds, hj] using h

theorem CallStep.holds_other {u : Thread} {s t : State I O F} {pc pc' : CallPc I F}
    (h : CallStep u s pc t pc') {crew : Crew} {v : Thread} (hv : t.holds crew v = true) :
    s.holds crew v = true := by
  cases h with
  | @create crew' =>
      have hv' := startWorker_holds hv
      cases v with
      | client c => exact hv'
      | worker crew'' i => cases crew'' <;> exact hv'
  | @notifyAll crew' => cases crew' <;> cases v <;> exact hv
  | @returns _ _ ret => cases ret <;> cases v <;> exact hv
  | _ => exact hv

/-! ## Callback workers -/

theorem CallbackGo.inside {s : State I O F} {i : ℕ} {pc pc' : CallbackPc I O F}
    (h : CallbackGo s i pc pc') (crew : Crew) : pc'.inside crew = pc.inside crew := by
  cases h <;> cases crew <;> rfl

theorem CallbackSets.inside {status : ThreadStatus} {pc pc' : CallbackPc I O F}
    (h : CallbackSets pc status pc') (crew : Crew) : pc'.inside crew = pc.inside crew := by
  cases h <;> cases crew <;> rfl

theorem CallbackLocksShared.inside {pc pc' : CallbackPc I O F}
    (h : CallbackLocksShared pc pc') (crew : Crew) : pc'.inside crew = pc.inside crew := by
  cases h <;> cases crew <;> rfl

theorem CallbackUnlocksShared.inside {pc pc' : CallbackPc I O F}
    (h : CallbackUnlocksShared pc pc') (crew : Crew) : pc'.inside crew = pc.inside crew := by
  cases h <;> cases crew <;> rfl

theorem CallbackStep.handover {i : ℕ} {s t : State I O F} (h : CallbackStep i s t)
    (crew : Crew) :
    Mutex.Handover (.worker .callback i) (s.mutex crew) ((s.callbackPc i).inside crew)
      (t.mutex crew) ((t.callbackPc i).inside crew) := by
  cases h with
  | go h =>
      simp only [Function.update_self]
      exact .keep rfl (h.inside crew)
  | sets h =>
      simp only [Function.update_self]
      exact .keep rfl (h.inside crew)
  | lockShared h =>
      simp only [Function.update_self]
      exact .keep rfl (h.inside crew)
  | unlockShared h =>
      simp only [Function.update_self]
      exact .keep rfl (h.inside crew)
  | lock h hfree =>
      simp only [Function.update_self]
      generalize s.callbackPc i = pc at h
      cases crew with
      | process => exact .keep rfl (by cases h <;> rfl)
      | callback => exact .take hfree rfl
  | leave h =>
      simp only [Function.update_self]
      generalize s.callbackPc i = pc at h
      cases crew with
      | process => exact .keep rfl (by cases h <;> rfl)
      | callback => exact .release (by cases h <;> rfl) (by cases h <;> rfl) rfl
  | block hpc =>
      cases crew with
      | process => exact .keep rfl (by simp [hpc, CallbackPc.inside])
      | callback =>
          exact .release (by simp [hpc, CallbackPc.inside]) (by simp [CallbackPc.inside]) rfl
  | nested hpc h =>
      simp only [Function.update_self, hpc]
      have hcall := h.handover crew
      cases crew <;> exact hcall
  | pick hpc | invoke hpc | requeue hpc =>
      cases crew <;> exact .keep rfl (by simp [hpc, CallbackPc.inside, CallPc.inside])

/-! ## Every step -/

theorem Op.entry_inside (op : Op I F) (crew : Crew) : op.entry.inside crew = false := by
  cases op <;> cases crew <;> rfl

/-- A step that takes no lock and moves one thread that stays outside. -/
theorem State.guards_mono {s t : State I O F} {crew : Crew}
    (hs : (s.mutex crew).Guards (s.holds crew)) (hm : t.mutex crew = s.mutex crew)
    (h : ∀ u, t.holds crew u = true → s.holds crew u = true) :
    (t.mutex crew).Guards (t.holds crew) := by
  intro u hu
  rw [hm]
  exact hs u (h u hu)

theorem State.goClient_holds {s : State I O F} {c : ℕ} {pc : CallPc I F} {crew : Crew}
    (hpc : pc.inside crew = false) (u : Thread) (h : (s.goClient c pc).holds crew u = true) :
    s.holds crew u = true := by
  cases u with
  | worker crew' j => cases crew' <;> exact h
  | client c' =>
      by_cases hc : c' = c
      · subst hc
        simp [State.holds, hpc] at h
      · simpa [State.holds, hc] using h

theorem State.goCallback_holds {s : State I O F} {i : ℕ} {pc : CallbackPc I O F} {crew : Crew}
    (hpc : pc.inside crew = false) (u : Thread) (h : (s.goCallback i pc).holds crew u = true) :
    s.holds crew u = true := by
  cases u with
  | client c => exact h
  | worker crew' j =>
      cases crew' with
      | process => exact h
      | callback =>
          by_cases hj : j = i
          · subst hj
            simp [State.holds, hpc] at h
          · simpa [State.holds, hj] using h

theorem Step.guards {process : I → O} {s t : State I O F} {a : Action I F}
    (h : Step process s a t) (crew : Crew) (hs : (s.mutex crew).Guards (s.holds crew)) :
    (t.mutex crew).Guards (t.holds crew) := by
  cases h with
  | @process i wake _ hi h =>
      refine hs.step (h.handover crew) ?_
      intro u hu hheld
      cases u with
      | client c => rwa [State.holds, h.frame.clientPc] at hheld
      | worker crew' j =>
          cases crew' with
          | process =>
              have hj : j ≠ i := fun heq => hu (by rw [heq])
              rwa [State.holds, h.frame.processPc j hj] at hheld
          | callback => rwa [State.holds, h.frame.callbackPc] at hheld
  | @callback i wake _ hi h =>
      refine hs.step (h.handover crew) ?_
      intro u hu hheld
      have hj : ∀ j, u = .worker .callback j → j ≠ i := fun j heq hji => hu (by rw [heq, hji])
      cases h with
      | @nested f product call call' s' hpc hcall =>
          refine hcall.holds_other ?_
          cases u with
          | client c => exact hheld
          | worker crew' j =>
              cases crew' with
              | process => exact hheld
              | callback => simpa [State.holds, hj j rfl] using hheld
      | _ =>
          cases u with
          | client c => exact hheld
          | worker crew' j =>
              cases crew' with
              | process => exact hheld
              | callback => simpa [State.holds, hj j rfl] using hheld
  | @client c wake s' pc h =>
      have hstep := h.handover crew
      refine hs.step (t := .client c) ?_ ?_
      · simp only [State.holds, Function.update_self]
        cases crew <;> exact hstep
      · intro u hu hheld
        refine h.holds_other ?_
        cases u with
        | worker crew' j => cases crew' <;> exact hheld
        | client c' =>
            have hc : c' ≠ c := fun heq => hu (by rw [heq])
            simpa [State.holds, hc] using hheld
  | @call c op =>
      refine State.guards_mono hs (by cases crew <;> rfl) fun u hu => ?_
      exact State.goClient_holds (op.entry_inside crew) u hu
  | @destroy c =>
      refine State.guards_mono hs (by cases crew <;> rfl) fun u hu => ?_
      have hentry : (CallPc.clearProcessLock : CallPc I F).inside crew = false := by
        cases crew <;> rfl
      refine State.goClient_holds (s := s) (c := c) hentry u ?_
      cases u with
      | client c => exact hu
      | worker crew' j => cases crew' <;> exact hu
  | @nest i op f product =>
      refine State.guards_mono hs (by cases crew <;> rfl) fun u hu => ?_
      refine State.goCallback_holds ?_ u hu
      cases crew <;> exact op.entry_inside _
  | spurious =>
      refine State.guards_mono hs (by cases crew <;> rfl) fun u hu => ?_
      cases u with
      | client c => exact hu
      | worker crew' j => cases crew' <;> exact hu

/-- At every moment of every run, who is inside a critical section owns its mutex. -/
theorem guards_of_reach {G : State I O F → Action I F → Prop} {process : I → O}
    {workerCnt : ℕ} {s : State I O F} (h : (machine process workerCnt).ReachBy G s)
    (crew : Crew) : (s.mutex crew).Guards (s.holds crew) := by
  refine h.invariant (P := fun s => (s.mutex crew).Guards (s.holds crew)) ?_ ?_
  · rintro s rfl u hu
    cases u with
    | client c =>
        by_cases hc : c = 0
        · subst hc
          cases crew <;> cases hu
        · simp only [State.holds, State.initial, Function.update_of_ne hc] at hu
          cases crew <;> cases hu
    | worker crew' j => cases crew' <;> cases crew <;> cases hu
  · intro s a t _ hs _ hst
    exact (step_cases hst).guards crew hs

end Pipeline
