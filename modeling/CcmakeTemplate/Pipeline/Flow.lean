import CcmakeTemplate.Pipeline.Belt
import CcmakeTemplate.Pipeline.Calls

/-!
# The pipeline refines the belt

`belt` forgets threads, locks and program points and keeps the stations: the two
queues, what each worker holds at its program point, and where products left.
Until the destructor begins every step of the machine is a move of the belt or
no move at all, so conservation and order are inherited from `Belt.conserved`
and `Belt.invoked_prefix`.
-/

namespace Pipeline

open Concurrency

variable {I O F : Type}

/-- The product that a process worker owes: of the job it has popped, or the one
it has made and not pushed. -/
def ProcessPc.making (process : I → O) : ProcessPc I O → Option O
  | .leaveTake job | .callProcess job | .pureVirtualCall job => some (process job)
  | .lockOutput product | .push product => some product
  | _ => none

/-- The product that a callback worker has popped and neither handed to a
callback nor put back. -/
def CallbackPc.holding : CallbackPc I O F → Option O
  | .leaveTake product | .lockShared product | .test product
  | .unlockShared (some product) | .lockRequeue product | .requeue product => some product
  | _ => none

def belt (process : I → O) (s : State I O F) : Belt I O F where
  added := s.added
  waiting := s.queue_process
  making := ProcessPc.making process ∘ s.processPc
  finished := s.queue_output
  holding := CallbackPc.holding ∘ s.callbackPc
  fetched := s.fetched
  invoked := s.invoked
  workers := s.hired .process
  handlers := s.hired .callback

theorem belt_goProcess (process : I → O) (s : State I O F) {i : ℕ} {pc : ProcessPc I O}
    (h : pc.making process = (s.processPc i).making process) :
    belt process (s.goProcess i pc) = belt process s := by
  simp only [belt, Function.comp_update, h]
  congr 1
  exact Function.update_eq_self i (ProcessPc.making process ∘ s.processPc)

theorem belt_goCallback (process : I → O) (s : State I O F) {i : ℕ} {pc : CallbackPc I O F}
    (h : pc.holding = (s.callbackPc i).holding) :
    belt process (s.goCallback i pc) = belt process s := by
  simp only [belt, Function.comp_update, h]
  congr 1
  exact Function.update_eq_self i (CallbackPc.holding ∘ s.callbackPc)

/-! ## Steps that move nothing -/

theorem ProcessGo.making {process : I → O} {s : State I O F} {i : ℕ} {pc pc' : ProcessPc I O}
    (h : ProcessGo process s i pc pc') : pc'.making process = pc.making process := by
  cases h <;> rfl

theorem ProcessSets.making {process : I → O} {status : ThreadStatus} {pc pc' : ProcessPc I O}
    (h : ProcessSets pc status pc') : pc'.making process = pc.making process := by
  cases h <;> rfl

theorem ProcessLeaves.making {process : I → O} {pc pc' : ProcessPc I O}
    (h : ProcessLeaves pc pc') : pc'.making process = pc.making process := by
  cases h <;> rfl

theorem CallbackGo.holding {s : State I O F} {i : ℕ} {pc pc' : CallbackPc I O F}
    (h : CallbackGo s i pc pc') : pc'.holding = pc.holding := by
  cases h <;> rfl

theorem CallbackSets.holding {status : ThreadStatus} {pc pc' : CallbackPc I O F}
    (h : CallbackSets pc status pc') : pc'.holding = pc.holding := by
  cases h <;> rfl

theorem CallbackLocks.holding {s : State I O F} {i : ℕ} {pc pc' : CallbackPc I O F}
    (h : CallbackLocks s i pc pc') : pc'.holding = pc.holding := by
  cases h <;> rfl

theorem CallbackLeaves.holding {pc pc' : CallbackPc I O F} (h : CallbackLeaves pc pc') :
    pc'.holding = pc.holding := by
  cases h <;> rfl

theorem CallbackLocksShared.holding {pc pc' : CallbackPc I O F}
    (h : CallbackLocksShared pc pc') : pc'.holding = pc.holding := by
  cases h <;> rfl

theorem CallbackUnlocksShared.holding {pc pc' : CallbackPc I O F}
    (h : CallbackUnlocksShared pc pc') : pc'.holding = pc.holding := by
  cases h <;> rfl

/-! ## The moves behind the other steps -/

theorem ProcessStep.refines {process : I → O} {i : ℕ} {s t : State I O F}
    (h : ProcessStep process i s t) (hi : i < s.hired .process) :
    belt process t = belt process s ∨
      ∃ m, (belt process s).step process m = some (belt process t) ∧
        (m = .take i ∨ m = .push i) := by
  cases h with
  | go h => exact .inl (belt_goProcess process s h.making)
  | sets h => exact .inl ((belt_goProcess process _ h.making).trans rfl)
  | leave h => exact .inl ((belt_goProcess process _ h.making).trans rfl)
  | lockProcess hpc =>
      refine .inl ((belt_goProcess process _ ?_).trans rfl)
      rcases hpc with hpc | ⟨hpc, -⟩ <;> simp [hpc, ProcessPc.making]
  | take hpc hquit hq =>
      refine .inr ⟨.take i, ?_, .inl rfl⟩
      simp [Belt.step, belt, hq, hpc, ProcessPc.making, Function.comp_update, hi]
  | push hpc =>
      refine .inr ⟨.push i, ?_, .inr rfl⟩
      simp [Belt.step, belt, hpc, ProcessPc.making, Function.comp_update, hi]
  | block hpc | pureCall hpc | lockOutput hpc | unlockOutput hpc | notify hpc =>
      refine .inl ((belt_goProcess process _ ?_).trans rfl)
      simp [hpc, ProcessPc.making]

/-- A public method adds, fetches or hires; only the destructor clears. -/
theorem CallStep.refines (process : I → O) {u : Thread} {s t : State I O F}
    {pc pc' : CallPc I F} (h : CallStep u s pc t pc') (hkind : pc.kind ≠ .destructor) :
    belt process t = belt process s ∨
      ∃ m, (belt process s).step process m = some (belt process t) ∧
        (m = .fetch → pc.kind = .getProduct) ∧ ∀ i, m ≠ .putBack i := by
  cases h with
  | add job => exact .inr ⟨.add job, rfl, by simp, by simp⟩
  | fetch hq =>
      refine .inr ⟨.fetch, ?_, fun _ => rfl, by simp⟩
      simp [Belt.step, belt, hq]
  | @create crew =>
      cases crew with
      | process =>
          refine .inr ⟨.hireWorker, ?_, by simp, by simp⟩
          simp [Belt.step, belt, startWorker, Function.comp_update, ProcessPc.making]
      | callback =>
          refine .inr ⟨.hireHandler, ?_, by simp, by simp⟩
          simp [Belt.step, belt, startWorker, Function.comp_update, CallbackPc.holding]
  | @notifyAll crew => cases crew <;> exact .inl rfl
  | @returns _ _ ret => cases ret <;> exact .inl rfl
  | clearProcess => exact absurd rfl hkind
  | clearOutput => exact absurd rfl hkind
  | _ => exact .inl rfl

theorem CallbackStep.refines {process : I → O} {i : ℕ} {s t : State I O F}
    (h : CallbackStep i s t) (hi : i < s.hired .callback)
    (hs : CallsWithin (· ≠ .destructor) s) :
    belt process t = belt process s ∨
      ∃ m, (belt process s).step process m = some (belt process t) ∧
        (m = .fetch → ∃ f product call,
          s.callbackPc i = .inCallback f product call ∧ call.kind = .getProduct) ∧
        ∀ j, m = .putBack j → ∃ product, s.callbackPc i = .requeue product := by
  cases h with
  | go h => exact .inl (belt_goCallback process s h.holding)
  | sets h => exact .inl ((belt_goCallback process _ h.holding).trans rfl)
  | lock h => exact .inl ((belt_goCallback process _ h.holding).trans rfl)
  | leave h => exact .inl ((belt_goCallback process _ h.holding).trans rfl)
  | lockShared h => exact .inl ((belt_goCallback process _ h.holding).trans rfl)
  | unlockShared h => exact .inl ((belt_goCallback process _ h.holding).trans rfl)
  | block hpc =>
      refine .inl ((belt_goCallback process _ ?_).trans rfl)
      simp [hpc, CallbackPc.holding]
  | pick hpc hquit hq =>
      refine .inr ⟨.pick i, ?_, by simp, by simp⟩
      simp [Belt.step, belt, hq, hpc, CallbackPc.holding, Function.comp_update, hi]
  | @invoke _ f hpc hcb =>
      refine .inr ⟨.invoke i f, ?_, by simp, by simp⟩
      simp [Belt.step, belt, hpc, CallbackPc.holding, Function.comp_update, hi]
  | requeue hpc =>
      refine .inr ⟨.putBack i, ?_, by simp, fun _ _ => ⟨_, hpc⟩⟩
      simp [Belt.step, belt, hpc, CallbackPc.holding, Function.comp_update, hi]
  | @nested f product call call' u hpc h =>
      have hidle : (u.callbackPc i).holding = none := by
        rcases h.frame.2 with heq | heq
        · rw [heq, hpc]
          rfl
        · rw [heq, Function.update_of_ne hi.ne, hpc]
          rfl
      have hheld : (CallbackPc.inCallback f product call').holding = (u.callbackPc i).holding :=
        hidle.symm
      rw [belt_goCallback process u hheld]
      rcases h.refines process (hs.nested i f product call hpc) with
        heq | ⟨m, hm, hfetch, hback⟩
      · exact .inl heq
      · exact .inr ⟨m, hm, fun hf => ⟨f, product, call, hpc, hfetch hf⟩,
          fun j hj => absurd hj (hback j)⟩

/-- Every step before the destructor is a move of the belt or none. -/
theorem Step.refines {process : I → O} {s t : State I O F} {a : Action I F}
    (h : Step process s a t) (hs : CallsWithin (· ≠ .destructor) s) :
    belt process t = belt process s ∨
      ∃ m, (belt process s).step process m = some (belt process t) ∧
        (m = .fetch → ¬ CallsWithin (· ≠ .getProduct) s) ∧
        ∀ j, m = .putBack j →
          ∃ i wake product, a = .callback i wake ∧ s.callbackPc i = .requeue product := by
  cases h with
  | process hi h =>
      rcases h.refines hi with heq | ⟨m, hm, hmove⟩
      · exact .inl heq
      · refine .inr ⟨m, hm, ?_, ?_⟩ <;> rcases hmove with rfl | rfl <;> simp
  | @callback i wake _ hi h =>
      rcases h.refines hi hs with heq | ⟨m, hm, hfetch, hback⟩
      · exact .inl heq
      · refine .inr ⟨m, hm, fun hf hno => ?_, fun j hj => ?_⟩
        · obtain ⟨f, product, call, hpc, hkind⟩ := hfetch hf
          exact hno.nested i f product call hpc hkind
        · obtain ⟨product, hpc⟩ := hback j hj
          exact ⟨i, wake, product, rfl, hpc⟩
  | @client c wake u pc h =>
      have hclient : belt process (u.goClient c pc) = belt process u := rfl
      rw [hclient]
      rcases h.refines process (hs.client c) with heq | ⟨m, hm, hfetch, hback⟩
      · exact .inl heq
      · exact .inr ⟨m, hm, fun hf hno => hno.client c (hfetch hf),
          fun j hj => absurd hj (hback j)⟩
  | @nest i op f product hpc hi hop =>
      refine .inl (belt_goCallback process s ?_)
      rw [hpc]
      rfl
  | call => exact .inl rfl
  | destroy => exact .inl rfl
  | spurious => exact .inl rfl

end Pipeline
