import CcmakeTemplate.PeriodicWork.Callers
import CcmakeTemplate.Semaphore.OneAcquirer

/-!
# Who owns the mutexes

`workLock` is owned by the thread that is inside one of its critical sections, and the
mutex of a semaphore by the caller that is inside one of those. Worker `i` is the only
thread that acquires semaphore `i`.
-/

namespace PeriodicWork

open Concurrency Semaphore

variable {F : Type}

/-! ## `workLock` -/

def TimerPc.inside : TimerPc → Bool
  | .testQuit _ | .testChanged _ | .block | .quitTest | .leaveQuit | .unlock => true
  | _ => false

def SetPc.inside : SetPc F → Bool
  | .callbackAssign _ | .callbackUnlock => true
  | _ => false

def WorkerPc.inside : WorkerPc F → Bool
  | .copyTask | .unlockTask _ => true
  | .inTask _ (some pc) => pc.inside
  | _ => false

def CallPc.inside : CallPc F → Bool
  | .set pc => pc.inside
  | .stop _ .setQuit | .stop _ .unlock => true
  | _ => false

def State.inside (s : State F) : Thread → Bool
  | .job .timer i => (s.timerPc i).inside
  | .job .worker i => (s.workerPc i).inside
  | .client c => (s.clientPc c).inside

/-- How the owner of `workLock` changes in a step of thread `u`. -/
structure LockStep (u : Thread) (s t : State F) : Prop where
  handover : Mutex.Handover u s.workLock (s.inside u) t.workLock (t.inside u)
  enters : s.workLock = none → t.workLock = some u → t.inside u = true
  others : ∀ v, v ≠ u → t.inside v = s.inside v

theorem LockStep.keep {u : Thread} {s t : State F} (hlock : t.workLock = s.workLock)
    (hinside : t.inside u = s.inside u) (hothers : ∀ v, v ≠ u → t.inside v = s.inside v) :
    LockStep u s t := by
  refine ⟨.keep hlock hinside, fun hfree htake => ?_, hothers⟩
  cases hfree.symm.trans (hlock.symm.trans htake)

theorem inside_goTimer (s : State F) (i : ℕ) (pc : TimerPc) {v : Thread}
    (hv : v ≠ .job .timer i) : (s.goTimer i pc).inside v = s.inside v := by
  rcases v with ⟨⟨⟩, j⟩ | c
  · have hj : j ≠ i := fun heq => hv (heq ▸ rfl)
    simp [State.inside, hj]
  · rfl
  · rfl

theorem inside_goWorker (s : State F) (i : ℕ) (pc : WorkerPc F) {v : Thread}
    (hv : v ≠ .job .worker i) : (s.goWorker i pc).inside v = s.inside v := by
  rcases v with ⟨⟨⟩, j⟩ | c
  · rfl
  · have hj : j ≠ i := fun heq => hv (heq ▸ rfl)
    simp [State.inside, hj]
  · rfl

theorem inside_goClient (s : State F) (c : ℕ) (pc : CallPc F) {v : Thread}
    (hv : v ≠ .client c) : (s.goClient c pc).inside v = s.inside v := by
  rcases v with ⟨⟨⟩, j⟩ | c'
  · rfl
  · rfl
  · have hc : c' ≠ c := fun heq => hv (heq ▸ rfl)
    simp [State.inside, hc]

theorem inside_congr {s t : State F} (htimer : t.timerPc = s.timerPc)
    (hworker : t.workerPc = s.workerPc) (hclient : t.clientPc = s.clientPc) (v : Thread) :
    t.inside v = s.inside v := by
  rcases v with ⟨⟨⟩, j⟩ | c <;> simp only [State.inside, htimer, hworker, hclient]

theorem TimerStep.lockStep {i : ℕ} {s t : State F} (h : TimerStep i s t) :
    LockStep (.job .timer i) s t := by
  have hself : ∀ (s' : State F) pc, (s'.goTimer i pc).inside (.job .timer i) = pc.inside := by
    intro s' pc
    simp [State.inside]
  have hold : s.inside (.job .timer i) = (s.timerPc i).inside := rfl
  have hafter : ∀ first, (afterTick first).inside = false := by
    intro first
    cases first <;> rfl
  have hkeep : ∀ (s' : State F) pc, s'.timerPc = s.timerPc → s'.workerPc = s.workerPc →
      s'.clientPc = s.clientPc → s'.workLock = s.workLock →
      pc.inside = (s.timerPc i).inside → LockStep (.job .timer i) s (s'.goTimer i pc) := by
    intro s' pc htimer hworker hclient hlock hpc
    refine .keep hlock (by rw [hself, hold, hpc]) fun v hv => ?_
    rw [inside_goTimer s' i pc hv, inside_congr htimer hworker hclient]
  cases h with
  | @go pc h =>
      refine hkeep s pc rfl rfl rfl rfl ?_
      generalize s.timerPc i = old at h
      cases h with
      | absent first | ticked first => exact hafter first
      | _ => rfl
  | lock hpc hfree =>
      exact ⟨.take hfree rfl, fun _ _ => hself _ _, fun v hv => inside_goTimer _ i _ hv⟩
  | block hpc | leaves hpc | unlock hpc =>
      refine ⟨.release (by rw [hold, hpc]; rfl) (hself _ _) rfl, fun _ htake => ?_,
        fun v hv => inside_goTimer _ i _ hv⟩
      cases htake
  | reads hpc =>
      refine hkeep _ _ rfl rfl rfl rfl ?_
      rcases hpc with hpc | hpc <;> rw [hpc] <;> rfl
  | tries hpc | sem hpc | plans hpc | expires hpc | wakes hpc | clears hpc =>
      exact hkeep _ _ rfl rfl rfl rfl (by rw [hpc]; rfl)

/-- The program point of the call that is left after a step, if any. -/
def insideCall : Option (SetPc F) → Bool
  | some pc => pc.inside
  | none => false

theorem SetStep.handover {u : Thread} {s t : State F} {pc : SetPc F} {call : Option (SetPc F)}
    (h : SetStep u s pc t call) :
    Mutex.Handover u s.workLock pc.inside t.workLock (insideCall call) ∧
      (s.workLock = none → t.workLock = some u → insideCall call = true) := by
  cases h with
  | lock f hfree => exact ⟨.take hfree rfl, fun _ _ => rfl⟩
  | unlock => exact ⟨.release rfl rfl rfl, nofun⟩
  | _ => exact ⟨.keep rfl rfl, fun hfree htake => nomatch hfree.symm.trans htake⟩

theorem WorkerStep.lockStep {i : ℕ} {s t : State F} (h : WorkerStep i s t) :
    LockStep (.job .worker i) s t := by
  have hself : ∀ (s' : State F) pc, (s'.goWorker i pc).inside (.job .worker i) = pc.inside := by
    intro s' pc
    simp [State.inside]
  have hold : s.inside (.job .worker i) = (s.workerPc i).inside := rfl
  have hkeep : ∀ (s' : State F) pc, s'.timerPc = s.timerPc → s'.workerPc = s.workerPc →
      s'.clientPc = s.clientPc → s'.workLock = s.workLock →
      pc.inside = (s.workerPc i).inside → LockStep (.job .worker i) s (s'.goWorker i pc) := by
    intro s' pc htimer hworker hclient hlock hpc
    refine .keep hlock (by rw [hself, hold, hpc]) fun v hv => ?_
    rw [inside_goWorker s' i pc hv, inside_congr htimer hworker hclient]
  cases h with
  | @go pc h =>
      refine hkeep s pc rfl rfl rfl rfl ?_
      generalize s.workerPc i = old at h
      cases h <;> rfl
  | @does event pc h =>
      refine hkeep _ pc rfl rfl rfl rfl ?_
      generalize s.workerPc i = old at h
      cases h <;> rfl
  | sem hpc => exact hkeep _ _ rfl rfl rfl rfl (by rw [hpc]; rfl)
  | lock hpc hfree =>
      exact ⟨.take hfree rfl, fun _ _ => hself _ _, fun v hv => inside_goWorker _ i _ hv⟩
  | unlock hpc =>
      refine ⟨.release (by rw [hold, hpc]; rfl) (hself _ _) rfl, fun _ htake => ?_,
        fun v hv => inside_goWorker _ i _ hv⟩
      cases htake
  | @nested f pc s' call hpc h =>
      obtain ⟨hhand, henters⟩ := h.handover
      have hcall : (WorkerPc.inTask f call).inside = insideCall call := by cases call <;> rfl
      refine ⟨?_, ?_, ?_⟩
      · rw [hself, hold, hpc, hcall]
        exact hhand
      · intro hfree htake
        rw [hself, hcall]
        exact henters hfree htake
      · intro v hv
        rw [inside_goWorker s' i _ hv, inside_congr h.frame.1 h.frame.2.1 h.owned.2]

theorem CallStep.lockStep {maxLag c : ℕ} {s t : State F} {pc : CallPc F}
    (h : CallStep maxLag (.client c) s (s.clientPc c) t pc) (hs : Settled s) :
    LockStep (.client c) s (t.goClient c pc) := by
  have hself : (t.goClient c pc).inside (.client c) = pc.inside := by
    simp [State.inside]
  have hold : s.inside (.client c) = (s.clientPc c).inside := rfl
  have hothers : ∀ v, v ≠ .client c → (t.goClient c pc).inside v = s.inside v := by
    intro v hv
    rw [inside_goClient t c pc hv, inside_congr (h.threads hs).1 (h.threads hs).2 h.clientPc]
  suffices hhand : Mutex.Handover (.client c) s.workLock (s.clientPc c).inside t.workLock
      pc.inside ∧ (s.workLock = none → t.workLock = some (.client c) → pc.inside = true) by
    refine ⟨?_, ?_, hothers⟩
    · rw [hself, hold]
      exact hhand.1
    · rw [hself]
      exact hhand.2
  have hkeep : ∀ old : CallPc F, t.workLock = s.workLock → pc.inside = old.inside →
      Mutex.Handover (.client c) s.workLock old.inside t.workLock pc.inside ∧
        (s.workLock = none → t.workLock = some (.client c) → pc.inside = true) := by
    intro old hlock hpc
    refine ⟨.keep hlock hpc, ?_⟩
    intro hfree htake
    cases hfree.symm.trans (hlock.symm.trans htake)
  clear hself hold hothers
  generalize s.clientPc c = old at h
  cases h with
  | set h | setReturns h => exact h.handover
  | @stop again _ _ _ h =>
      cases h with
      | go h =>
          refine hkeep _ rfl ?_
          cases h with
          | joinAbsent j | @unjoinable j | deleteAbsent j => cases j <;> rfl
          | _ => rfl
      | fault h =>
          refine hkeep _ rfl ?_
          cases h <;> rfl
      | lock hfree => exact ⟨.take hfree rfl, fun _ _ => rfl⟩
      | unlock => exact ⟨.release rfl rfl rfl, nofun⟩
      | @join j | @delete j | null j => exact hkeep _ rfl (by cases j <;> rfl)
      | resetNull | deleteSem => exact hkeep _ rfl (by cases again <;> rfl)
      | _ => exact hkeep _ rfl rfl
  | start h =>
      cases h with
      | create j => exact hkeep _ (by cases j <;> rfl) rfl
      | assign j => exact hkeep _ rfl (by cases j <;> rfl)
      | _ => exact hkeep _ rfl rfl

theorem Step.lockStep {maxLag : ℕ} {s t : State F} {a : Action F} (h : Step maxLag s a t)
    (hs : Settled s) : ∃ u, LockStep u s t := by
  cases h with
  | timer hi h => exact ⟨_, h.lockStep⟩
  | worker hi h => exact ⟨_, h.lockStep⟩
  | client h => exact ⟨_, h.lockStep hs⟩
  | @set c op hpc | @starts c hpc | @stops c hpc =>
      have hold : s.inside (.client c) = false := by simp [State.inside, hpc, CallPc.inside]
      refine ⟨.client c, .keep rfl ?_ fun v hv => inside_goClient s c _ hv⟩
      rw [hold]
      simp only [State.inside, Function.update_self]
      first | rfl | (cases op <;> rfl)
  | @nest i op f hpc hi =>
      have hold : s.inside (.job .worker i) = false := by
        simp [State.inside, hpc, WorkerPc.inside]
      refine ⟨.job .worker i, .keep rfl ?_ fun v hv => inside_goWorker s i _ hv⟩
      rw [hold]
      simp only [State.inside, Function.update_self]
      cases op <;> rfl
  | tick | spurious => exact ⟨.client 0, .keep rfl rfl fun _ _ => rfl⟩

theorem workLock_exact_of {callback : Option F} {period maxLag : ℕ}
    {G : State F → Action F → Prop}
    (hsettled : ∀ s, (machine callback period maxLag).ReachBy G s → Settled s) {s : State F}
    (h : (machine callback period maxLag).ReachBy G s) : s.workLock.Exact s.inside := by
  refine h.invariant (P := fun s => s.workLock.Exact s.inside) ?_ ?_
  · rintro s rfl u
    rcases u with ⟨⟨⟩, i⟩ | c <;> exact ⟨nofun, nofun⟩
  · intro s a t hreach hs _ hst
    obtain ⟨u, hlock⟩ := (step_cases hst).lockStep (hsettled s hreach)
    exact hs.step hlock.handover hlock.enters hlock.others

theorem workLock_exact {callback : Option F} {period maxLag : ℕ} {s : State F}
    (h : (machine callback period maxLag).ReachBy OneControl s) : s.workLock.Exact s.inside :=
  workLock_exact_of (fun _ h => (Resting.of_reach h).settled) h

/-! ## The semaphores -/

/-- Worker `k` is the only one that acquires semaphore `k`. -/
theorem InCall.acquirer {s : State F} (hs : InCall s) {k : ℕ} {u : Thread}
    (h : (s.callers k u).acquires = true) : u = .job .worker k := by
  obtain ⟨hacquire, hout⟩ := SemPc.acquires_within h
  have hcall := hs.callsSem hout
  generalize s.callers k u = pc at hcall hacquire hout
  cases hcall with
  | timer _ hwithin | client _ hwithin => cases SemPc.within_unique hwithin hacquire hout
  | worker => rfl

theorem served_of {callback : Option F} {period maxLag : ℕ} {G : State F → Action F → Prop}
    (hsettled : ∀ s, (machine callback period maxLag).ReachBy G s → Settled s)
    (hcalls : ∀ s, (machine callback period maxLag).ReachBy G s → InCall s) {s : State F}
    (h : (machine callback period maxLag).ReachBy G s) {k : ℕ} (hk : k < s.semCnt) :
    Served (.job .worker k) (s.sems k) (s.callers k) := by
  refine h.invariant (P := fun s => ∀ k, k < s.semCnt →
    Served (.job .worker k) (s.sems k) (s.callers k)) ?_ ?_ k hk
  · rintro s rfl k hk
    exact absurd hk (Nat.not_lt_zero k)
  · intro s a t hreach hs hG hst k hk
    have hstep := step_cases hst
    have hnext := hcalls t (hreach.next hG hst)
    by_cases hold : k < s.semCnt
    · exact (hs k hold).move (hstep.semMove (hsettled s hreach) hold) fun u => hnext.acquirer
    · rcases hstep.semCnt (hsettled s hreach) with hsame | ⟨hsucc, hsem, hcallers⟩
      · omega
      · obtain rfl : k = s.semCnt := by omega
        rw [hsem, hcallers, (hcalls s hreach).out le_rfl]
        exact .new _ _

theorem served {callback : Option F} {period maxLag : ℕ} {s : State F}
    (h : (machine callback period maxLag).ReachBy OneControl s) {k : ℕ} (hk : k < s.semCnt) :
    Served (.job .worker k) (s.sems k) (s.callers k) :=
  served_of (fun _ h => (Resting.of_reach h).settled) (fun _ => InCall.of_reach) h hk

end PeriodicWork
