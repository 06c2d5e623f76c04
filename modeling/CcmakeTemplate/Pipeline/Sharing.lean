import CcmakeTemplate.Pipeline.Locks
import CcmakeTemplate.Pipeline.Calls

/-!
# Who owns which lock

`Locks` shows that a thread inside a critical section owns its mutex. Here is the
converse: the owner of a mutex is a thread whose program point lies inside. For
`mutex_outputCallback` both directions are told at once: the shared owners are the
callback workers that test or run the callback, the exclusive owner is the client
that assigns it, and no thread owns it exclusively while others share it.
-/

namespace Pipeline

open Concurrency

variable {I O F : Type}

/-! ## The call a thread is in -/

/-- A client is in a call of its own, a callback worker in the call that its callback
makes. -/
def State.doing (s : State I O F) : Thread → CallPc I F
  | .client c => s.clientPc c
  | .worker .callback i => match s.callbackPc i with | .inCallback _ _ call => call | _ => .out
  | .worker .process _ => .out

theorem CallsWithin.doing {A : CallKind → Prop} {s : State I O F} (hs : CallsWithin A s)
    (hout : A .outside) (u : Thread) : A (s.doing u).kind := by
  cases u with
  | client c => exact hs.client c
  | worker crew i =>
      cases crew with
      | process => exact hout
      | callback =>
          simp only [State.doing]
          split
          · rename_i f product call hpc
            exact hs.nested i f product call hpc
          · exact hout

/-! ## Workers that are not hired yet -/

structure Unborn (s : State I O F) : Prop where
  process : ∀ i, s.hired .process ≤ i → s.processPc i = .start
  callback : ∀ i, s.hired .callback ≤ i → s.callbackPc i = .start

/-- A method step moves no worker: the one it starts was at its start before. -/
theorem CallStep.workers {u : Thread} {s t : State I O F} {pc pc' : CallPc I F}
    (h : CallStep u s pc t pc') (hs : Unborn s) :
    t.processPc = s.processPc ∧ t.callbackPc = s.callbackPc := by
  cases h with
  | @create crew =>
      cases crew with
      | process =>
          refine ⟨?_, rfl⟩
          exact Function.update_eq_self_iff.mpr (hs.process _ le_rfl).symm
      | callback =>
          refine ⟨rfl, ?_⟩
          exact Function.update_eq_self_iff.mpr (hs.callback _ le_rfl).symm
  | @notifyAll crew => cases crew <;> exact ⟨rfl, rfl⟩
  | @returns _ _ ret => cases ret <;> exact ⟨rfl, rfl⟩
  | _ => exact ⟨rfl, rfl⟩

theorem CallStep.unborn {u : Thread} {s t : State I O F} {pc pc' : CallPc I F}
    (h : CallStep u s pc t pc') (hs : Unborn s) : Unborn t := by
  obtain ⟨hprocess, hcallback⟩ := h.workers hs
  constructor
  · intro i hi
    rw [hprocess]
    exact hs.process i ((h.hired_le .process).trans hi)
  · intro i hi
    rw [hcallback]
    exact hs.callback i ((h.hired_le .callback).trans hi)

theorem Unborn.goCallback {s : State I O F} (hs : Unborn s) {i : ℕ} (hi : i < s.hired .callback)
    (pc : CallbackPc I O F) : Unborn (s.goCallback i pc) := by
  refine ⟨hs.process, ?_⟩
  intro j hj
  have hne : j ≠ i := (hi.trans_le hj).ne'
  simpa [hne] using hs.callback j hj

theorem Step.unborn {process : I → O} {s t : State I O F} {a : Action I F}
    (h : Step process s a t) (hs : Unborn s) : Unborn t := by
  cases h with
  | @process i wake _ hi h =>
      have hframe := h.frame
      constructor
      · intro j hj
        rw [hframe.hired] at hj
        rw [hframe.processPc j (hi.trans_le hj).ne', hs.process j hj]
      · rw [hframe.hired, hframe.callbackPc]
        exact hs.callback
  | callback hi h =>
      cases h with
      | nested hpc h => exact (h.unborn hs).goCallback (hi.trans_le (h.hired_le .callback)) _
      | _ => exact ⟨hs.process, (hs.goCallback hi _).callback⟩
  | client h =>
      have ht := h.unborn hs
      exact ⟨ht.process, ht.callback⟩
  | nest hpc hi => exact hs.goCallback hi _
  | call | destroy | spurious => exact ⟨hs.process, hs.callback⟩

theorem unborn {G : State I O F → Action I F → Prop} {process : I → O} {workerCnt : ℕ}
    {s : State I O F} (h : (machine process workerCnt).ReachBy G s) : Unborn s := by
  refine h.invariant (P := Unborn) ?_ ?_
  · rintro s rfl
    exact ⟨fun _ _ => rfl, fun _ _ => rfl⟩
  · intro s a t _ hs _ hst
    exact (step_cases hst).unborn hs

/-! ## Owners are inside -/

theorem ProcessStep.enters {process : I → O} {i : ℕ} {s t : State I O F}
    (h : ProcessStep process i s t) {crew : Crew} (hfree : s.mutex crew = none)
    (hown : t.mutex crew = some (.worker .process i)) : (t.processPc i).inside crew = true := by
  cases h with
  | lockProcess hpc =>
      cases crew with
      | process => simp [ProcessPc.inside]
      | callback => cases hfree.symm.trans hown
  | lockOutput hpc =>
      cases crew with
      | process => cases hfree.symm.trans hown
      | callback => simp [ProcessPc.inside]
  | leave | block =>
      cases crew with
      | process => cases hown
      | callback => cases hfree.symm.trans hown
  | unlockOutput =>
      cases crew with
      | process => cases hfree.symm.trans hown
      | callback => cases hown
  | go | sets | take | pureCall | push | notify =>
      cases crew <;> cases hfree.symm.trans hown

theorem CallStep.enters {u : Thread} {s t : State I O F} {pc pc' : CallPc I F}
    (h : CallStep u s pc t pc') {crew : Crew} (hfree : s.mutex crew = none)
    (hown : t.mutex crew = some u) : pc'.inside crew = true := by
  cases h with
  | lockProcess h =>
      cases crew with
      | process => cases h <;> rfl
      | callback => cases hfree.symm.trans hown
  | lockOutput h =>
      cases crew with
      | process => cases hfree.symm.trans hown
      | callback => cases h <;> rfl
  | lockBoth => cases crew <;> rfl
  | unlockProcess =>
      cases crew with
      | process => cases hown
      | callback => cases hfree.symm.trans hown
  | unlockOutput =>
      cases crew with
      | process => cases hfree.symm.trans hown
      | callback => cases hown
  | unlockBoth => cases crew <;> cases hown
  | create =>
      rw [startWorker_mutex] at hown
      cases crew <;> cases hfree.symm.trans hown
  | @notifyAll crew' => cases crew' <;> cases crew <;> cases hfree.symm.trans hown
  | returns =>
      rw [resume_mutex] at hown
      cases hfree.symm.trans hown
  | _ => cases crew <;> cases hfree.symm.trans hown

theorem CallbackStep.enters {i : ℕ} {s t : State I O F} (h : CallbackStep i s t) {crew : Crew}
    (hfree : s.mutex crew = none) (hown : t.mutex crew = some (.worker .callback i)) :
    (t.callbackPc i).inside crew = true := by
  cases h with
  | lock h =>
      cases crew with
      | process => cases hfree.symm.trans hown
      | callback =>
          simp only [Function.update_self]
          generalize s.callbackPc i = pc at h
          cases h <;> rfl
  | leave | block =>
      cases crew with
      | process => cases hfree.symm.trans hown
      | callback => cases hown
  | @nested f product call call' s' hpc h =>
      have henter : call'.inside crew = true := by
        refine h.enters hfree ?_
        cases crew <;> exact hown
      simp only [Function.update_self]
      cases crew <;> exact henter
  | _ => cases crew <;> cases hfree.symm.trans hown

/-- A step that leaves the mutex alone and takes nobody out of its critical section. -/
theorem State.owned_mono {s t : State I O F} {crew : Crew}
    (hs : (s.mutex crew).Owned (s.holds crew)) (hm : t.mutex crew = s.mutex crew)
    (h : ∀ u, s.holds crew u = true → t.holds crew u = true) :
    (t.mutex crew).Owned (t.holds crew) := by
  intro u hu
  rw [hm] at hu
  exact h u (hs u hu)

theorem State.holds_goClient {s : State I O F} {c : ℕ} {pc : CallPc I F} {crew : Crew}
    {u : Thread} (hu : u ≠ .client c) : (s.goClient c pc).holds crew u = s.holds crew u := by
  cases u with
  | worker crew' j => cases crew' <;> rfl
  | client c' =>
      have hc : c' ≠ c := fun heq => hu (by rw [heq])
      simp [State.holds, hc]

theorem State.holds_goCallback {s : State I O F} {i : ℕ} {pc : CallbackPc I O F} {crew : Crew}
    {u : Thread} (hu : u ≠ .worker .callback i) :
    (s.goCallback i pc).holds crew u = s.holds crew u := by
  cases u with
  | client c => rfl
  | worker crew' j =>
      cases crew' with
      | process => rfl
      | callback =>
          have hj : j ≠ i := fun heq => hu (by rw [heq])
          simp [State.holds, hj]

theorem CallStep.holds_same {u : Thread} {s t : State I O F} {pc pc' : CallPc I F}
    (h : CallStep u s pc t pc') (hs : Unborn s) (crew : Crew) (v : Thread) :
    t.holds crew v = s.holds crew v := by
  obtain ⟨hprocess, hcallback⟩ := h.workers hs
  cases v with
  | client c => simp only [State.holds, h.frame.1]
  | worker crew' i => cases crew' <;> simp only [State.holds, hprocess, hcallback]

theorem holds_ne_client {s : State I O F} {c : ℕ} {crew : Crew} {u : Thread}
    (hpc : s.clientPc c = .out) (hu : s.holds crew u = true) : u ≠ .client c := by
  rintro rfl
  simp only [State.holds, hpc] at hu
  cases crew <;> cases hu

theorem Step.owned {process : I → O} {s t : State I O F} {a : Action I F}
    (h : Step process s a t) (crew : Crew) (hborn : Unborn s)
    (hs : (s.mutex crew).Owned (s.holds crew)) : (t.mutex crew).Owned (t.holds crew) := by
  cases h with
  | @process i wake _ hi h =>
      refine hs.step (h.handover crew) h.enters ?_
      intro u hu hheld
      cases u with
      | client c => rwa [State.holds, h.frame.clientPc]
      | worker crew' j =>
          cases crew' with
          | process =>
              have hj : j ≠ i := fun heq => hu (by rw [heq])
              rwa [State.holds, h.frame.processPc j hj]
          | callback => rwa [State.holds, h.frame.callbackPc]
  | @callback i wake _ hi h =>
      refine hs.step (h.handover crew) h.enters ?_
      intro u hu hheld
      cases h with
      | nested hpc h =>
          rw [State.holds_goCallback hu, h.holds_same hborn]
          exact hheld
      | _ => exact (State.holds_goCallback hu).trans hheld
  | @client c wake s' pc h =>
      refine hs.step (t := .client c) ?_ ?_ ?_
      · have hstep := h.handover crew
        simp only [State.holds, Function.update_self]
        cases crew <;> exact hstep
      · intro hfree hown
        have henter : pc.inside crew = true := by
          refine h.enters hfree ?_
          cases crew <;> exact hown
        simpa [State.holds] using henter
      · intro u hu hheld
        rw [State.holds_goClient hu, h.holds_same hborn]
        exact hheld
  | @call c op halive hpc =>
      refine State.owned_mono hs (by cases crew <;> rfl) fun u hu => ?_
      rwa [State.holds_goClient (holds_ne_client hpc hu)]
  | @destroy c halive hpc =>
      refine State.owned_mono hs (by cases crew <;> rfl) fun u hu => ?_
      rw [State.holds_goClient (holds_ne_client hpc hu)]
      exact hu
  | @nest i op f product hpc =>
      refine State.owned_mono hs (by cases crew <;> rfl) fun u hu => ?_
      have hne : u ≠ .worker .callback i := by
        rintro rfl
        simp only [State.holds, hpc] at hu
        cases crew <;> cases hu
      rwa [State.holds_goCallback hne]
  | spurious =>
      refine State.owned_mono hs (by cases crew <;> rfl) fun u hu => ?_
      cases u with
      | client c => exact hu
      | worker crew' j => cases crew' <;> exact hu

/-- At every moment of every run the owner of a mutex is inside its critical section. -/
theorem owned_of_reach {G : State I O F → Action I F → Prop} {process : I → O}
    {workerCnt : ℕ} {s : State I O F} (h : (machine process workerCnt).ReachBy G s)
    (crew : Crew) : (s.mutex crew).Owned (s.holds crew) := by
  refine h.invariant (P := fun s => (s.mutex crew).Owned (s.holds crew)) ?_ ?_
  · rintro s rfl u hu
    cases crew <;> cases hu
  · intro s a t hreach hs _ hst
    exact (step_cases hst).owned crew (unborn hreach) hs

/-! ## The reader/writer lock -/

def CallbackPc.shares : CallbackPc I O F → Bool
  | .check | .unlockCheck _ | .test _ | .inCallback .. | .unlockShared _ => true
  | _ => false

def CallPc.excludes : CallPc I F → Bool
  | .setCallbackAssign _ | .setCallbackUnlock => true
  | _ => false

def State.shares (s : State I O F) : Thread → Bool
  | .worker .callback i => (s.callbackPc i).shares
  | _ => false

def State.excludes (s : State I O F) : Thread → Bool
  | .client c => (s.clientPc c).excludes
  | _ => false

structure Sharing (s : State I O F) : Prop where
  readers : ∀ u, u ∈ s.mutex_outputCallback.readers ↔ s.shares u = true
  nodup : s.mutex_outputCallback.readers.Nodup
  writer : ∀ u, s.mutex_outputCallback.writer = some u ↔ s.excludes u = true
  apart : s.mutex_outputCallback.writer = none ∨ s.mutex_outputCallback.readers = []

/-- What a method step does to the reader/writer lock. -/
inductive Exclusion (u : Thread) (m m' : SharedMutex Thread) (pc pc' : CallPc I F) : Prop
  | keep (hm : m' = m) (hpc : pc'.excludes = pc.excludes)
  | take (hkind : pc.kind = .setCallback) (hw : m.writer = none) (hr : m.readers = [])
      (hm : m' = { m with writer := some u }) (hpc : pc'.excludes = true)
  | release (hkind : pc.kind = .setCallback) (hpc : pc.excludes = true)
      (hpc' : pc'.excludes = false) (hm : m' = m.unlock)

theorem CallStep.exclusion {u : Thread} {s t : State I O F} {pc pc' : CallPc I F}
    (h : CallStep u s pc t pc') :
    Exclusion u s.mutex_outputCallback t.mutex_outputCallback pc pc' := by
  cases h with
  | go h | lockProcess h | unlockProcess h | lockOutput h | unlockOutput h =>
      cases h <;> exact .keep rfl rfl
  | lockCallback method hw hr => exact .take rfl hw hr rfl rfl
  | unlockCallback => exact .release rfl rfl rfl rfl
  | @create crew => cases crew <;> exact .keep rfl rfl
  | @notifyAll crew => cases crew <;> exact .keep rfl rfl
  | @returns _ _ ret => cases ret <;> exact .keep rfl rfl
  | _ => exact .keep rfl rfl

/-- A method step that is not one of `setCallback` leaves the reader/writer lock alone. -/
theorem CallStep.sharedMutex {u : Thread} {s t : State I O F} {pc pc' : CallPc I F}
    (h : CallStep u s pc t pc') (hkind : pc.kind ≠ .setCallback) :
    t.mutex_outputCallback = s.mutex_outputCallback := by
  cases h.exclusion with
  | keep hm => exact hm
  | take hset | release hset => exact absurd hset hkind

/-- A callback never makes the one call that would lock `mutex_outputCallback` again. -/
theorem nested_not_setCallback {G : State I O F → Action I F → Prop} {process : I → O}
    {workerCnt : ℕ} {s : State I O F} (h : (machine process workerCnt).ReachBy G s) :
    NestedWithin (· ≠ .setCallback) s.callbackPc := by
  refine h.invariant (P := fun s => NestedWithin (· ≠ .setCallback) s.callbackPc) ?_ ?_
  · rintro s rfl i f product call hpc
    cases hpc
  · intro s a t _ hs _ hst
    cases step_cases hst with
    | process hi h =>
        rw [h.frame.callbackPc]
        exact hs
    | callback hi h => exact h.within (by decide) hs
    | client h => exact h.nested hs
    | @nest i op f product hpc hi hop =>
        refine hs.update ?_
        rintro _ _ call ⟨⟩
        cases op with
        | setCallback method => cases hop
        | _ => simp [Op.entry, CallPc.kind, Return.kind]
    | call | destroy | spurious => exact hs

theorem Sharing.of_same {s t : State I O F} (hs : Sharing s)
    (hm : t.mutex_outputCallback = s.mutex_outputCallback)
    (hshares : ∀ u, t.shares u = s.shares u) (hexcludes : ∀ u, t.excludes u = s.excludes u) :
    Sharing t := by
  refine ⟨?_, ?_, ?_, ?_⟩
  · intro u
    rw [hm, hshares]
    exact hs.readers u
  · rw [hm]
    exact hs.nodup
  · intro u
    rw [hm, hexcludes]
    exact hs.writer u
  · rw [hm]
    exact hs.apart

theorem State.shares_goCallback {s : State I O F} {i : ℕ} {pc : CallbackPc I O F}
    (hpc : pc.shares = (s.callbackPc i).shares) (u : Thread) :
    (s.goCallback i pc).shares u = s.shares u := by
  cases u with
  | client c => rfl
  | worker crew j =>
      cases crew with
      | process => rfl
      | callback =>
          by_cases hj : j = i
          · subst hj
            simpa [State.shares] using hpc
          · simp [State.shares, hj]

theorem State.shares_other {s : State I O F} {i : ℕ} {pc : CallbackPc I O F} {u : Thread}
    (hu : u ≠ .worker .callback i) : (s.goCallback i pc).shares u = s.shares u := by
  cases u with
  | client c => rfl
  | worker crew j =>
      cases crew with
      | process => rfl
      | callback =>
          have hj : j ≠ i := fun heq => hu (by rw [heq])
          simp [State.shares, hj]

theorem State.excludes_other {s : State I O F} {c : ℕ} {pc : CallPc I F} {u : Thread}
    (hu : u ≠ .client c) : (s.goClient c pc).excludes u = s.excludes u := by
  cases u with
  | worker crew j => rfl
  | client c' =>
      have hc : c' ≠ c := fun heq => hu (by rw [heq])
      simp [State.excludes, hc]

theorem CallbackGo.shares {s : State I O F} {i : ℕ} {pc pc' : CallbackPc I O F}
    (h : CallbackGo s i pc pc') : pc'.shares = pc.shares := by
  cases h <;> rfl

theorem Sharing.of_callback {i : ℕ} {s t : State I O F} (h : CallbackStep i s t)
    (hborn : Unborn s) (hnested : NestedWithin (· ≠ .setCallback) s.callbackPc)
    (hs : Sharing s) : Sharing t := by
  cases h with
  | go h => exact hs.of_same rfl (State.shares_goCallback h.shares) fun _ => rfl
  | sets h =>
      refine hs.of_same rfl (State.shares_goCallback ?_) fun _ => rfl
      generalize s.callbackPc i = pc at h
      cases h <;> rfl
  | lock h =>
      refine hs.of_same rfl (State.shares_goCallback ?_) fun _ => rfl
      generalize s.callbackPc i = pc at h
      cases h <;> rfl
  | leave h =>
      refine hs.of_same rfl (State.shares_goCallback ?_) fun _ => rfl
      generalize s.callbackPc i = pc at h
      cases h <;> rfl
  | block hpc | pick hpc | invoke hpc | requeue hpc =>
      refine hs.of_same rfl (State.shares_goCallback ?_) fun _ => rfl
      simp [hpc, CallbackPc.shares]
  | @nested f product call call' s' hpc h =>
      -- a callback does not call `setCallback`, so the nested call leaves the lock alone
      have hcallback := (h.workers hborn).2
      refine hs.of_same (h.sharedMutex (hnested i f product call hpc)) ?_ ?_
      · intro u
        rw [State.shares_goCallback (by rw [hcallback, hpc]; rfl)]
        cases u with
        | client c => rfl
        | worker crew j => cases crew <;> simp only [State.shares, hcallback]
      · intro u
        cases u with
        | client c => simp only [State.excludes, h.frame.1]
        | worker crew j => rfl
  | @lockShared pc h hw =>
      have hold : (s.callbackPc i).shares = false := by
        generalize s.callbackPc i = old at h
        cases h <;> rfl
      have hnew : pc.shares = true := by
        generalize s.callbackPc i = old at h
        cases h <;> rfl
      refine ⟨?_, ?_, hs.writer, .inl hw⟩
      · intro u
        by_cases hu : u = .worker .callback i
        · subst hu
          simp [State.shares, hnew]
        · rw [State.shares_other hu, List.mem_cons]
          exact (or_iff_right hu).trans (hs.readers u)
      · refine List.nodup_cons.mpr ⟨fun hmem => ?_, hs.nodup⟩
        have hshares := (hs.readers _).mp hmem
        simp [State.shares, hold] at hshares
  | @unlockShared pc h =>
      have hold : (s.callbackPc i).shares = true := by
        generalize s.callbackPc i = old at h
        cases h <;> rfl
      have hnew : pc.shares = false := by
        generalize s.callbackPc i = old at h
        cases h <;> rfl
      refine ⟨?_, hs.nodup.sublist List.erase_sublist, hs.writer, ?_⟩
      · intro u
        by_cases hu : u = .worker .callback i
        · subst hu
          simp [State.shares, hnew, SharedMutex.unlockShared, hs.nodup.mem_erase_iff]
        · rw [State.shares_other hu]
          simp only [SharedMutex.unlockShared]
          rw [List.mem_erase_of_ne hu]
          exact hs.readers u
      · rcases hs.apart with hw | hr
        · exact .inl hw
        · refine .inr ?_
          simp [SharedMutex.unlockShared, hr]

theorem Sharing.of_client {c : ℕ} {s t : State I O F} {pc : CallPc I F}
    (h : CallStep (.client c) s (s.clientPc c) t pc) (hborn : Unborn s) (hs : Sharing s) :
    Sharing (t.goClient c pc) := by
  have hshares : ∀ u, (t.goClient c pc).shares u = s.shares u := by
    intro u
    cases u with
    | client c => rfl
    | worker crew i => cases crew <;> simp only [State.shares, (h.workers hborn).2]
  have hother : ∀ u, u ≠ .client c → (t.goClient c pc).excludes u = s.excludes u := by
    intro u hu
    rw [State.excludes_other hu]
    cases u with
    | client c' => simp only [State.excludes, h.frame.1]
    | worker crew i => rfl
  have hself : (t.goClient c pc).excludes (.client c) = pc.excludes := by simp [State.excludes]
  cases h.exclusion with
  | keep hm hpc =>
      refine hs.of_same hm hshares ?_
      intro u
      by_cases hu : u = .client c
      · subst hu
        rw [hself, hpc]
        rfl
      · exact hother u hu
  | take hkind hw hr hm hpc =>
      refine ⟨fun u => ?_, ?_, fun u => ?_, ?_⟩
      · rw [hm, hshares]
        exact hs.readers u
      · rw [hm]
        exact hs.nodup
      · rw [hm]
        by_cases hu : u = .client c
        · subst hu
          simp [hself, hpc]
        · have hnone : s.excludes u ≠ true := fun hex => by
            cases hw.symm.trans ((hs.writer u).mpr hex)
          rw [hother u hu]
          simp [Ne.symm hu, hnone]
      · rw [hm]
        exact .inr hr
  | release hkind hpc hpc' hm =>
      have hwriter : s.mutex_outputCallback.writer = some (.client c) := (hs.writer _).mpr hpc
      refine ⟨fun u => ?_, ?_, fun u => ?_, ?_⟩
      · rw [hm, hshares]
        exact hs.readers u
      · rw [hm]
        exact hs.nodup
      · rw [hm]
        by_cases hu : u = .client c
        · subst hu
          simp [hself, hpc', SharedMutex.unlock]
        · have hnone : s.excludes u ≠ true := fun hex => by
            have hsame := hwriter.symm.trans ((hs.writer u).mpr hex)
            exact hu (Option.some.inj hsame).symm
          rw [hother u hu]
          simp [SharedMutex.unlock, hnone]
      · rw [hm]
        exact .inl rfl

theorem sharing {G : State I O F → Action I F → Prop} {process : I → O} {workerCnt : ℕ}
    {s : State I O F} (h : (machine process workerCnt).ReachBy G s) : Sharing s := by
  refine h.invariant (P := Sharing) ?_ ?_
  · rintro s rfl
    refine ⟨fun u => ?_, List.nodup_nil, fun u => ?_, .inl rfl⟩
    · cases u with
      | client c => simp [State.initial, State.shares]
      | worker crew i => cases crew <;> simp [State.initial, State.shares, CallbackPc.shares]
    · cases u with
      | client c =>
          by_cases hc : c = 0 <;> simp [State.initial, State.excludes, hc, CallPc.excludes]
      | worker crew i => simp [State.initial, State.excludes]
  · intro s a t hreach hs _ hst
    have hborn := unborn hreach
    cases step_cases hst with
    | process hi h =>
        refine hs.of_same h.frame.mutex_outputCallback (fun u => ?_) fun u => ?_
        · cases u with
          | client c => rfl
          | worker crew i => cases crew <;> simp only [State.shares, h.frame.callbackPc]
        · cases u with
          | client c => simp only [State.excludes, h.frame.clientPc]
          | worker crew i => rfl
    | callback hi h => exact hs.of_callback h hborn (nested_not_setCallback hreach)
    | client h => exact hs.of_client h hborn
    | @call c op halive hpc =>
        refine hs.of_same rfl (fun _ => rfl) fun u => ?_
        by_cases hu : u = .client c
        · subst hu
          cases op <;> simp [State.excludes, hpc, Op.entry, CallPc.excludes]
        · exact State.excludes_other hu
    | @destroy c halive hpc =>
        refine hs.of_same rfl (fun _ => rfl) fun u => ?_
        by_cases hu : u = .client c
        · subst hu
          simp [State.excludes, hpc, CallPc.excludes]
        · exact State.excludes_other hu
    | nest hpc =>
        refine hs.of_same rfl (State.shares_goCallback ?_) fun _ => rfl
        rw [hpc]
        rfl
    | spurious => exact ⟨hs.readers, hs.nodup, hs.writer, hs.apart⟩

end Pipeline
