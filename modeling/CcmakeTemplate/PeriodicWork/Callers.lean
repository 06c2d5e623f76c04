import CcmakeTemplate.PeriodicWork.Running
import CcmakeTemplate.Semaphore.Invariants

/-!
# The callers of the semaphores

`callers s k` is the table of the threads that are inside a call on semaphore `k`.
Seen through it, each step of a `periodicWork` is a `SemMove` of every semaphore
that exists, so the invariants of the semaphore hold here as well.
-/

namespace PeriodicWork

open Concurrency Semaphore

variable {F : Type}

def TimerPc.semPc (k : ℕ) : TimerPc → SemPc
  | .release _ k' pc => if k' = k then pc else .out
  | _ => .out

def WorkerPc.semPc (k : ℕ) : WorkerPc F → SemPc
  | .acquire k' pc => if k' = k then pc else .out
  | _ => .out

def CallPc.semPc (k : ℕ) : CallPc F → SemPc
  | .stop _ (.sem k' pc) => if k' = k then pc else .out
  | _ => .out

def callersOf (timerPc : ℕ → TimerPc) (workerPc : ℕ → WorkerPc F) (clientPc : ℕ → CallPc F)
    (k : ℕ) : Table Thread
  | .job .timer i => (timerPc i).semPc k
  | .job .worker i => (workerPc i).semPc k
  | .client c => (clientPc c).semPc k

def State.callers (s : State F) (k : ℕ) : Table Thread :=
  callersOf s.timerPc s.workerPc s.clientPc k

section

variable (timerPc : ℕ → TimerPc) (workerPc : ℕ → WorkerPc F) (clientPc : ℕ → CallPc F) (k : ℕ)

theorem callersOf_timer (i : ℕ) (pc : TimerPc) :
    callersOf (Function.update timerPc i pc) workerPc clientPc k =
      Function.update (callersOf timerPc workerPc clientPc k) (.job .timer i) (pc.semPc k) := by
  funext u
  rcases u with ⟨⟨⟩, i'⟩ | c
  · by_cases hi : i' = i <;> simp [callersOf, hi]
  · simp [callersOf]
  · simp [callersOf]

theorem callersOf_worker (i : ℕ) (pc : WorkerPc F) :
    callersOf timerPc (Function.update workerPc i pc) clientPc k =
      Function.update (callersOf timerPc workerPc clientPc k) (.job .worker i) (pc.semPc k) := by
  funext u
  rcases u with ⟨⟨⟩, i'⟩ | c
  · simp [callersOf]
  · by_cases hi : i' = i <;> simp [callersOf, hi]
  · simp [callersOf]

theorem callersOf_client (c : ℕ) (pc : CallPc F) :
    callersOf timerPc workerPc (Function.update clientPc c pc) k =
      Function.update (callersOf timerPc workerPc clientPc k) (.client c) (pc.semPc k) := by
  funext u
  rcases u with ⟨⟨⟩, i'⟩ | c'
  · simp [callersOf]
  · simp [callersOf]
  · by_cases hc : c' = c <;> simp [callersOf, hc]

end

section

variable {s t : State F}

/-- A step that is not inside a call on the semaphore. -/
theorem semMove_keep {k : ℕ} {u : Thread} {pc : SemPc} (hsems : t.sems k = s.sems k)
    (hcallers : t.callers k = Function.update (s.callers k) u pc) (hpc : pc = s.callers k u) :
    SemMove (s.sems k) (s.callers k) (t.sems k) (t.callers k) := by
  rw [hsems, hcallers, hpc, Function.update_eq_self]
  exact .keep

/-- A step inside a call on semaphore `k'`. -/
theorem semMove_step {k k' : ℕ} {u : Thread} {pc pc' : SemPc} {sem : CountingSemaphore Thread}
    (h : SemStep u (s.sems k') pc sem pc') (hsems : t.sems = Function.update s.sems k' sem)
    (hold : s.callers k u = if k' = k then pc else .out)
    (hcallers : t.callers k = Function.update (s.callers k) u (if k' = k then pc' else .out)) :
    SemMove (s.sems k) (s.callers k) (t.sems k) (t.callers k) := by
  by_cases hk : k' = k
  · subst hk
    rw [if_pos rfl] at hold hcallers
    rw [hcallers, hsems, Function.update_self]
    exact .step (by rw [hold]; exact h)
  · rw [if_neg hk] at hold hcallers
    refine semMove_keep ?_ hcallers hold.symm
    rw [hsems, Function.update_of_ne (Ne.symm hk)]

/-- The start of a call on semaphore `k'`. -/
theorem semMove_call {k k' : ℕ} {u : Thread} {op : SemOp} (hsems : t.sems = s.sems)
    (hold : s.callers k u = .out)
    (hcallers : t.callers k = Function.update (s.callers k) u (if k' = k then op.entry else .out)) :
    SemMove (s.sems k) (s.callers k) (t.sems k) (t.callers k) := by
  by_cases hk : k' = k
  · subst hk
    rw [if_pos rfl] at hcallers
    rw [hcallers, hsems]
    exact .call hold op
  · rw [if_neg hk] at hcallers
    exact semMove_keep (by rw [hsems]) hcallers hold.symm

end

/-! ## One step -/

theorem afterTick_semPc (first : Bool) (k : ℕ) : (afterTick first).semPc k = .out := by
  cases first <;> rfl

theorem TimerGo.semPc {s : State F} {pc pc' : TimerPc} (h : TimerGo s pc pc') (k : ℕ) :
    pc'.semPc k = .out ∧ pc.semPc k = .out := by
  cases h with
  | absent first h => exact ⟨afterTick_semPc first k, rfl⟩
  | ticked first k' => exact ⟨afterTick_semPc first k, by simp [TimerPc.semPc]⟩
  | _ => exact ⟨rfl, rfl⟩

theorem TimerStep.semMove {i : ℕ} {s t : State F} (h : TimerStep i s t) (k : ℕ) :
    SemMove (s.sems k) (s.callers k) (t.sems k) (t.callers k) := by
  cases h with
  | go h =>
      refine semMove_keep rfl (callersOf_timer _ _ _ k _ _) ?_
      rw [(h.semPc k).1]
      exact (h.semPc k).2.symm
  | tries hpc hsem =>
      refine semMove_call rfl ?_ (callersOf_timer _ _ _ k _ _)
      simp only [State.callers, callersOf, hpc, TimerPc.semPc]
  | sem hpc h =>
      refine semMove_step h rfl ?_ (callersOf_timer _ _ _ k _ _)
      simp only [State.callers, callersOf, hpc, TimerPc.semPc]
  | reads hpc =>
      refine semMove_keep rfl (callersOf_timer _ _ _ k _ _) ?_
      rcases hpc with hpc | hpc <;> simp only [State.callers, callersOf, hpc, TimerPc.semPc]
  | lock hpc =>
      refine semMove_keep rfl (callersOf_timer _ _ _ k _ _) ?_
      rcases hpc with ⟨hpc, -⟩ | hpc <;> simp only [State.callers, callersOf, hpc, TimerPc.semPc]
  | plans hpc | expires hpc | block hpc | wakes hpc | leaves hpc | unlock hpc | clears hpc =>
      refine semMove_keep rfl (callersOf_timer _ _ _ k _ _) ?_
      simp only [State.callers, callersOf, hpc, TimerPc.semPc]

theorem WorkerStep.semMove {i : ℕ} {s t : State F} (h : WorkerStep i s t) (k : ℕ) :
    SemMove (s.sems k) (s.callers k) (t.sems k) (t.callers k) := by
  cases h with
  | @go pc h =>
      have hcallers := callersOf_worker s.timerPc s.workerPc s.clientPc k i pc
      have hold : s.callers k (.job .worker i) = (s.workerPc i).semPc k := rfl
      generalize s.workerPc i = old at h hold
      cases h with
      | deref hsem => exact semMove_call rfl hold hcallers
      | acquired k' =>
          refine semMove_keep rfl hcallers ?_
          rw [hold]
          simp [WorkerPc.semPc]
      | _ => exact semMove_keep rfl hcallers hold.symm
  | @does event pc h =>
      refine semMove_keep rfl (callersOf_worker _ _ _ k _ _) ?_
      have hold : s.callers k (.job .worker i) = (s.workerPc i).semPc k := rfl
      rw [hold]
      generalize s.workerPc i = old at h
      cases h <;> rfl
  | sem hpc h =>
      refine semMove_step h rfl ?_ (callersOf_worker _ _ _ k _ _)
      simp only [State.callers, callersOf, hpc, WorkerPc.semPc]
  | lock hpc | unlock hpc =>
      refine semMove_keep rfl (callersOf_worker _ _ _ k _ _) ?_
      simp only [State.callers, callersOf, hpc, WorkerPc.semPc]
  | @nested f pc s' call hpc h =>
      obtain ⟨htimer, hworker, -, hsems⟩ := h.frame
      have hcallers : (s'.goWorker i (.inTask f call)).callers k =
          Function.update (s.callers k) (.job .worker i) .out := by
        show callersOf s'.timerPc (Function.update s'.workerPc i (.inTask f call)) s'.clientPc k = _
        rw [htimer, hworker, h.owned.2]
        exact callersOf_worker _ _ _ k _ _
      refine semMove_keep (congrFun hsems k) hcallers ?_
      simp only [State.callers, callersOf, hpc, WorkerPc.semPc]

theorem afterStop_semPc (again : Bool) (k : ℕ) : (afterStop again : CallPc F).semPc k = .out := by
  cases again <;> rfl

theorem after_semPc (again : Bool) (j : Job) (k : ℕ) :
    (CallPc.stop again (afterJoin j) : CallPc F).semPc k = .out ∧
      (CallPc.stop again (afterDelete j) : CallPc F).semPc k = .out ∧
      (CallPc.stop again (afterNull j) : CallPc F).semPc k = .out := by
  cases j <;> exact ⟨rfl, rfl, rfl⟩

theorem StopGo.semPc {s : State F} {pc pc' : StopPc} (h : StopGo s pc pc') (again : Bool) (k : ℕ) :
    (CallPc.stop again pc : CallPc F).semPc k = .out ∧
      ((CallPc.stop again pc' : CallPc F).semPc k = .out ∨
        ∃ k', pc' = .sem k' SemOp.stop.entry) := by
  cases h with
  | deref h => exact ⟨rfl, .inr ⟨_, rfl⟩⟩
  | stopped k' => exact ⟨by simp [CallPc.semPc], .inl rfl⟩
  | joinAbsent j | @unjoinable j => exact ⟨rfl, .inl (after_semPc again j k).1⟩
  | deleteAbsent j => exact ⟨rfl, .inl (after_semPc again j k).2.1⟩
  | _ => exact ⟨rfl, .inl rfl⟩

/-- The public methods leave every thread where it is: one that is not born yet is at
the start of its function already. -/
theorem CallStep.threads {maxLag : ℕ} {u : Thread} {s t : State F} {pc pc' : CallPc F}
    (h : CallStep maxLag u s pc t pc') (hs : Settled s) :
    t.timerPc = s.timerPc ∧ t.workerPc = s.workerPc := by
  cases h with
  | set h | setReturns h => exact ⟨h.frame.1, h.frame.2.1⟩
  | stop h => exact ⟨h.frame.1, h.frame.2.1⟩
  | start h =>
      cases h with
      | create j =>
          cases j with
          | timer =>
              have hborn := (hs.unborn (s.created .timer)).1 le_rfl
              refine ⟨?_, rfl⟩
              show Function.update s.timerPc _ (.semTest true) = _
              rw [← hborn, Function.update_eq_self]
          | worker =>
              have hborn := ((hs.unborn (s.created .worker)).2 le_rfl).1
              refine ⟨rfl, ?_⟩
              show Function.update s.workerPc _ .loop = _
              rw [← hborn, Function.update_eq_self]
      | _ => exact ⟨rfl, rfl⟩

/-- A step of a public method: it starts or continues a call on a semaphore, or it is
outside of these calls. -/
theorem CallStep.semMove {maxLag c : ℕ} {s s' : State F} {pc : CallPc F}
    (h : CallStep maxLag (.client c) s (s.clientPc c) s' pc) (hs : Settled s) {k : ℕ}
    (hk : k < s.semCnt) :
    SemMove (s.sems k) (s.callers k) ((s'.goClient c pc).sems k)
      ((s'.goClient c pc).callers k) := by
  have hold : s.callers k (.client c) = (s.clientPc c).semPc k := rfl
  have hcallers : (s'.goClient c pc).callers k =
      Function.update (s.callers k) (.client c) (pc.semPc k) := by
    show callersOf s'.timerPc s'.workerPc (Function.update s'.clientPc c pc) k = _
    rw [(h.threads hs).1, (h.threads hs).2, h.clientPc]
    exact callersOf_client _ _ _ k _ _
  generalize s.clientPc c = old at h hold
  cases h with
  | set h | setReturns h => exact semMove_keep (congrFun h.frame.2.2.2 k) hcallers hold.symm
  | stop h =>
      cases h with
      | go h =>
          obtain ⟨hpc, hpc' | ⟨k', rfl⟩⟩ := h.semPc (F := F) _ k
          · exact semMove_keep rfl hcallers (by rw [hold, hpc, hpc'])
          · exact semMove_call rfl (hold.trans hpc) hcallers
      | sem h => exact semMove_step h rfl hold hcallers
      | fault h =>
          refine semMove_keep rfl hcallers ?_
          rw [hold]
          cases h <;> rfl
      | @join j => exact semMove_keep rfl hcallers ((after_semPc _ j k).1.trans hold.symm)
      | @delete j => exact semMove_keep rfl hcallers ((after_semPc _ j k).2.1.trans hold.symm)
      | null j => exact semMove_keep rfl hcallers ((after_semPc _ j k).2.2.trans hold.symm)
      | resetNull | deleteSem =>
          exact semMove_keep rfl hcallers ((afterStop_semPc _ k).trans hold.symm)
      | _ => exact semMove_keep rfl hcallers hold.symm
  | start h =>
      cases h with
      | sem h =>
          refine semMove_keep ?_ hcallers hold.symm
          show Function.update s.sems s.semCnt _ k = _
          rw [Function.update_of_ne (Nat.ne_of_lt hk)]
      | create j =>
          refine semMove_keep ?_ hcallers hold.symm
          cases j <;> rfl
      | assign j i =>
          refine semMove_keep rfl hcallers ?_
          rw [hold]
          cases j <;> rfl
      | _ => exact semMove_keep rfl hcallers hold.symm

theorem Step.semMove {maxLag : ℕ} {s t : State F} {a : Action F} (h : Step maxLag s a t)
    (hs : Settled s) {k : ℕ} (hk : k < s.semCnt) :
    SemMove (s.sems k) (s.callers k) (t.sems k) (t.callers k) := by
  cases h with
  | timer hi h => exact h.semMove k
  | worker hi h => exact h.semMove k
  | client h => exact h.semMove hs hk
  | set hpc | starts hpc | stops hpc =>
      refine semMove_keep rfl (callersOf_client _ _ _ k _ _) ?_
      simp only [State.callers, callersOf, hpc, CallPc.semPc]
  | nest hpc hi =>
      refine semMove_keep rfl (callersOf_worker _ _ _ k _ _) ?_
      simp only [State.callers, callersOf, hpc, WorkerPc.semPc]
  | tick time => exact .keep
  | spurious u => exact .spurious u

/-! ## Which semaphore is called -/

def TimerPc.Calls (i semCnt : ℕ) : TimerPc → Prop
  | .release _ k pc => k = i ∧ k < semCnt ∧ pc.within .tryRelease = true
  | _ => True

def WorkerPc.Calls (i semCnt : ℕ) : WorkerPc F → Prop
  | .acquire k pc => k = i ∧ k < semCnt ∧ pc.within .acquire = true
  | _ => True

def CallPc.Calls (semCnt : ℕ) : CallPc F → Prop
  | .stop _ (.sem k pc) => k < semCnt ∧ pc.within .stop = true
  | _ => True

/-- Timer `i` releases semaphore `i`, worker `i` acquires it, and only `stop` stops it. -/
structure InCall (s : State F) : Prop where
  timer : ∀ i, (s.timerPc i).Calls i s.semCnt
  worker : ∀ i, (s.workerPc i).Calls i s.semCnt
  client : ∀ c, (s.clientPc c).Calls s.semCnt

theorem afterTick_calls (first : Bool) (i semCnt : ℕ) : (afterTick first).Calls i semCnt := by
  cases first <;> trivial

theorem afterStop_calls (again : Bool) (semCnt : ℕ) :
    (afterStop again : CallPc F).Calls semCnt := by
  cases again <;> trivial

theorem TimerStep.calls {i : ℕ} {s t : State F} (h : TimerStep i s t) (hs : InCall s)
    (hsem : s.sem_ = some i ∧ i < s.semCnt) :
    ∃ pc, t.timerPc = Function.update s.timerPc i pc ∧ t.workerPc = s.workerPc ∧
      pc.Calls i s.semCnt := by
  cases h with
  | @go pc h =>
      refine ⟨pc, rfl, rfl, ?_⟩
      generalize s.timerPc i = old at h
      cases h with
      | absent first h | ticked first k => exact afterTick_calls first i _
      | _ => trivial
  | tries hpc h =>
      refine ⟨_, rfl, rfl, ?_⟩
      obtain rfl := Option.some.inj (hsem.1.symm.trans h)
      exact ⟨rfl, hsem.2, rfl⟩
  | @sem first k pc pc' sem hpc h =>
      refine ⟨_, rfl, rfl, ?_⟩
      have hold := hs.timer i
      rw [hpc] at hold
      exact ⟨hold.1, hold.2.1, h.within hold.2.2⟩
  | _ => exact ⟨_, rfl, rfl, trivial⟩

theorem WorkerStep.calls {i : ℕ} {s t : State F} (h : WorkerStep i s t) (hs : InCall s)
    (hsem : s.sem_ = some i ∧ i < s.semCnt) :
    ∃ pc, t.workerPc = Function.update s.workerPc i pc ∧ t.timerPc = s.timerPc ∧
      pc.Calls i s.semCnt := by
  cases h with
  | @go pc h =>
      refine ⟨pc, rfl, rfl, ?_⟩
      generalize s.workerPc i = old at h
      cases h with
      | deref h =>
          obtain rfl := Option.some.inj (hsem.1.symm.trans h)
          exact ⟨rfl, hsem.2, rfl⟩
      | _ => trivial
  | @does event pc h =>
      refine ⟨pc, rfl, rfl, ?_⟩
      generalize s.workerPc i = old at h
      cases h <;> trivial
  | sem hpc h =>
      refine ⟨_, rfl, rfl, ?_⟩
      have hold := hs.worker i
      rw [hpc] at hold
      exact ⟨hold.1, hold.2.1, h.within hold.2.2⟩
  | @nested f pc s' call hpc h =>
      refine ⟨.inTask f call, ?_, h.frame.1, trivial⟩
      show Function.update s'.workerPc i _ = _
      rw [h.frame.2.1]
  | _ => exact ⟨_, rfl, rfl, trivial⟩

theorem CallPc.Calls.mono {pc : CallPc F} {m n : ℕ} (h : pc.Calls m) (hmn : m ≤ n) :
    pc.Calls n := by
  cases pc with
  | stop again pc =>
      cases pc with
      | sem k pc => exact ⟨lt_of_lt_of_le h.1 hmn, h.2⟩
      | _ => trivial
  | _ => trivial

theorem InCall.mono {s t : State F} (hs : InCall s) (hcnt : s.semCnt ≤ t.semCnt)
    (htimer : t.timerPc = s.timerPc) (hworker : t.workerPc = s.workerPc)
    (hclient : ∀ c, (t.clientPc c).Calls t.semCnt) : InCall t := by
  refine ⟨?_, ?_, hclient⟩
  · intro i
    have h := hs.timer i
    rw [htimer]
    generalize s.timerPc i = pc at h
    cases pc with
    | release first k pc => exact ⟨h.1, lt_of_lt_of_le h.2.1 hcnt, h.2.2⟩
    | _ => trivial
  · intro i
    have h := hs.worker i
    rw [hworker]
    generalize s.workerPc i = pc at h
    cases pc with
    | acquire k pc => exact ⟨h.1, lt_of_lt_of_le h.2.1 hcnt, h.2.2⟩
    | _ => trivial

theorem CallStep.calls {maxLag : ℕ} {u : Thread} {s t : State F} {pc pc' : CallPc F}
    (h : CallStep maxLag u s pc t pc') (hpc : pc.Calls s.semCnt)
    (hsem : ∀ k, s.sem_ = some k → k < s.semCnt) :
    s.semCnt ≤ t.semCnt ∧ pc'.Calls t.semCnt := by
  cases h with
  | set h | setReturns h => exact ⟨(congrArg Owned.semCnt h.owned.1).ge, trivial⟩
  | stop h =>
      cases h with
      | go h =>
          refine ⟨le_rfl, ?_⟩
          cases h with
          | deref h => exact ⟨hsem _ h, rfl⟩
          | joinAbsent j | @unjoinable j | deleteAbsent j => cases j <;> trivial
          | _ => trivial
      | sem h => exact ⟨le_rfl, hpc.1, h.within hpc.2⟩
      | @join j | @delete j | null j => exact ⟨le_rfl, by cases j <;> trivial⟩
      | resetNull | deleteSem => exact ⟨le_rfl, afterStop_calls _ _⟩
      | _ => exact ⟨le_rfl, trivial⟩
  | start h =>
      cases h with
      | sem h => exact ⟨Nat.le_succ _, trivial⟩
      | create j => exact ⟨by cases j <;> exact le_rfl, trivial⟩
      | assign j i => exact ⟨le_rfl, by cases j <;> trivial⟩
      | _ => exact ⟨le_rfl, trivial⟩

/-- The semaphore that `sem_` points to exists. -/
theorem Staged.sem_lt {o : Owned} {pc : CallPc F} {E k : ℕ} {shape : Shape}
    (hs : Staged o pc E shape) (h : o.sem_ = some k) : k < o.semCnt := by
  obtain ⟨hshape, rfl⟩ := hs.sem_some h
  rw [hs.semCnt, hshape]
  exact Nat.lt_succ_self _

/-- Whoever moves has its semaphore, whatever the rules under which `start` and `stop` are
called. -/
theorem InCall.step {maxLag : ℕ} {s t : State F} {a : Action F} (hs : InCall s)
    (hsettled : Settled s)
    (hmover : ∀ j i, i < s.created j → s.ended j i = false → s.sem_ = some i)
    (hlt : ∀ k, s.sem_ = some k → k < s.semCnt) (h : Step maxLag s a t) : InCall t := by
  cases h with
  | @timer i _ _ _ _ hi h =>
      have hsem := hmover .timer i hi h.not_ended
      obtain ⟨pc, htimer, hworker, hpc⟩ := h.calls hs ⟨hsem, hlt i hsem⟩
      have hcnt : t.semCnt = s.semCnt := congrArg Owned.semCnt h.owned.1
      refine ⟨?_, ?_, ?_⟩
      · rw [htimer, hcnt]
        exact forall_update (P := fun i (pc : TimerPc) => pc.Calls i s.semCnt) hs.timer hpc
      · rw [hworker, hcnt]
        exact hs.worker
      · rw [h.owned.2, hcnt]
        exact hs.client
  | @worker i _ _ _ hi h =>
      have hsem := hmover .worker i hi h.not_ended
      obtain ⟨pc, hworker, htimer, hpc⟩ := h.calls hs ⟨hsem, hlt i hsem⟩
      have hcnt : t.semCnt = s.semCnt := congrArg Owned.semCnt h.owned.1
      refine ⟨?_, ?_, ?_⟩
      · rw [htimer, hcnt]
        exact hs.timer
      · rw [hworker, hcnt]
        exact forall_update (P := fun i (pc : WorkerPc F) => pc.Calls i s.semCnt) hs.worker hpc
      · rw [h.owned.2, hcnt]
        exact hs.client
  | @client c _ _ u pc h =>
      obtain ⟨hle, hpc⟩ := h.calls (hs.client c) hlt
      have hclient : ∀ c', ((u.goClient c pc).clientPc c').Calls u.semCnt := by
        refine forall_update (P := fun _ (pc : CallPc F) => pc.Calls u.semCnt) ?_ hpc
        rw [h.clientPc]
        exact fun c' => (hs.client c').mono hle
      obtain ⟨htimer, hworker⟩ := h.threads hsettled
      exact hs.mono (t := u.goClient c pc) hle htimer hworker hclient
  | @set c op hpc | @starts c hpc | @stops c hpc =>
      refine hs.mono le_rfl rfl rfl ?_
      exact forall_update (P := fun _ (pc : CallPc F) => pc.Calls s.semCnt) hs.client trivial
  | nest hpc hi =>
      refine ⟨hs.timer, ?_, hs.client⟩
      exact forall_update (P := fun i (pc : WorkerPc F) => pc.Calls i s.semCnt) hs.worker trivial
  | tick | spurious => exact ⟨hs.timer, hs.worker, hs.client⟩

theorem InCall.initial (callback : Option F) (period maxLag : ℕ) :
    InCall (State.initial callback period maxLag) :=
  ⟨fun _ => trivial, fun _ => trivial, fun _ => trivial⟩

theorem InCall.of_reach {callback : Option F} {period maxLag : ℕ} {s : State F}
    (h : (machine callback period maxLag).ReachBy OneControl s) : InCall s := by
  refine h.invariant (P := InCall) ?_ ?_
  · rintro s rfl
    exact .initial callback period maxLag
  · intro s a t hreach hs hG hst
    obtain ⟨E, shape, hc⟩ := Controlled.of_reach hreach
    have hrest := Resting.of_reach hreach
    refine hs.step hrest.settled ?_ (fun k => hc.staged.sem_lt) (step_cases hst)
    intro j i hi hended
    obtain ⟨-, rfl, -, hsem⟩ := hrest.mover hc hi hended
    exact hsem

/-! ## The semaphores are sound -/

/-- Nobody calls a semaphore that does not exist yet. -/
theorem InCall.out {s : State F} (hs : InCall s) {k : ℕ} (hk : s.semCnt ≤ k) :
    s.callers k = fun _ => .out := by
  funext u
  rcases u with ⟨⟨⟩, i⟩ | c
  · have h := hs.timer i
    simp only [State.callers, callersOf]
    generalize s.timerPc i = pc at h
    cases pc with
    | release first k' pc =>
        have hne : k' ≠ k := by
          have hlt := h.2.1
          omega
        simp [TimerPc.semPc, hne]
    | _ => rfl
  · have h := hs.worker i
    simp only [State.callers, callersOf]
    generalize s.workerPc i = pc at h
    cases pc with
    | acquire k' pc =>
        have hne : k' ≠ k := by
          have hlt := h.2.1
          omega
        simp [WorkerPc.semPc, hne]
    | _ => rfl
  · have h := hs.client c
    simp only [State.callers, callersOf]
    generalize s.clientPc c = pc at h
    cases pc with
    | stop again pc =>
        cases pc with
        | sem k' pc =>
            have hne : k' ≠ k := by
              have hlt := h.1
              omega
            simp [CallPc.semPc, hne]
        | _ => rfl
    | _ => rfl

structure Sound (maxLag : ℕ) (s : State F) : Prop where
  counted : ∀ k, k < s.semCnt → Counted (s.sems k) (s.callers k)
  max_count : ∀ k, k < s.semCnt → (s.sems k).max_count_ = ptrdiff maxLag

/-- `start` creates one semaphore at a time, as `counting_semaphore` makes it. -/
theorem CallStep.semCnt {maxLag : ℕ} {u : Thread} {s t : State F} {pc pc' : CallPc F}
    (h : CallStep maxLag u s pc t pc') :
    t.semCnt = s.semCnt ∨ t.semCnt = s.semCnt + 1 ∧
      t.sems s.semCnt = CountingSemaphore.new (ptrdiff maxLag) ∧ pc = .start .sem ∧
      ∀ k, pc'.semPc k = .out := by
  cases h with
  | set h | setReturns h => exact .inl (congrArg Owned.semCnt h.owned.1)
  | stop h => cases h <;> exact .inl rfl
  | start h =>
      cases h with
      | sem h => exact .inr ⟨rfl, Function.update_self .., rfl, fun _ => rfl⟩
      | create j => cases j <;> exact .inl rfl
      | _ => exact .inl rfl

theorem Step.semCnt {maxLag : ℕ} {s t : State F} {a : Action F} (h : Step maxLag s a t)
    (hs : Settled s) :
    t.semCnt = s.semCnt ∨ t.semCnt = s.semCnt + 1 ∧
      t.sems s.semCnt = CountingSemaphore.new (ptrdiff maxLag) ∧ t.callers = s.callers := by
  cases h with
  | timer hi h => exact .inl (congrArg Owned.semCnt h.owned.1)
  | worker hi h => exact .inl (congrArg Owned.semCnt h.owned.1)
  | @client c _ _ u pc h =>
      rcases h.semCnt with hsame | ⟨hsucc, hsem, hpc, hpc'⟩
      · exact .inl hsame
      · refine .inr ⟨hsucc, hsem, ?_⟩
        funext k
        have hout : s.callers k (.client c) = .out := by
          simp only [State.callers, callersOf, hpc, CallPc.semPc]
        show callersOf u.timerPc u.workerPc (Function.update u.clientPc c pc) k = _
        rw [(h.threads hs).1, (h.threads hs).2, h.clientPc, callersOf_client, hpc' k, ← hout]
        exact Function.update_eq_self _ _
  | _ => exact .inl rfl

theorem Sound.of_reach {callback : Option F} {period maxLag : ℕ} {s : State F}
    (h : (machine callback period maxLag).ReachBy OneControl s) :
    Sound maxLag s := by
  refine h.invariant (P := Sound maxLag) ?_ ?_
  · rintro s rfl
    exact ⟨fun k hk => absurd hk (Nat.not_lt_zero k), fun k hk => absurd hk (Nat.not_lt_zero k)⟩
  · intro s a t hreach hs hG hst
    have hstep := step_cases hst
    have hrest := Resting.of_reach hreach
    have hcalls := InCall.of_reach hreach
    -- of the semaphores of the new state, all but the newest were there before
    suffices hnew : ∀ k, k < t.semCnt → ¬ k < s.semCnt →
        t.sems k = CountingSemaphore.new (ptrdiff maxLag) ∧ t.callers k = fun _ => .out by
      refine ⟨?_, ?_⟩
      · intro k hk
        by_cases hold : k < s.semCnt
        · exact (hs.counted k hold).move (hstep.semMove hrest.settled hold)
        · obtain ⟨hsem, hcallers⟩ := hnew k hk hold
          rw [hsem, hcallers]
          exact .new _
      · intro k hk
        by_cases hold : k < s.semCnt
        · rw [(hstep.semMove hrest.settled hold).max_count]
          exact hs.max_count k hold
        · exact (congrArg CountingSemaphore.max_count_ (hnew k hk hold).1).trans
            (CountingSemaphore.new_max_count _)
    intro k hk hold
    rcases hstep.semCnt hrest.settled with hsame | ⟨hsucc, hsem, hcallers⟩
    · omega
    · obtain rfl : k = s.semCnt := by omega
      rw [hcallers]
      exact ⟨hsem, hcalls.out le_rfl⟩

/-! ## Who calls which semaphore -/

/-- Who calls semaphore `k`, and with which method. -/
inductive CallsSem (s : State F) (k : ℕ) (pc : SemPc) : Thread → Prop
  | timer {first : Bool} (hpc : s.timerPc k = .release first k pc)
      (hwithin : pc.within .tryRelease = true) : CallsSem s k pc (.job .timer k)
  | worker (hpc : s.workerPc k = .acquire k pc) (hwithin : pc.within .acquire = true) :
      CallsSem s k pc (.job .worker k)
  | client {c : ℕ} {again : Bool} (hpc : s.clientPc c = .stop again (.sem k pc))
      (hwithin : pc.within .stop = true) : CallsSem s k pc (.client c)

theorem InCall.callsSem {s : State F} (hs : InCall s) {k : ℕ} {u : Thread}
    (hu : s.callers k u ≠ .out) : CallsSem s k (s.callers k u) u := by
  rcases u with ⟨⟨⟩, i⟩ | c
  · have hcall := hs.timer i
    simp only [State.callers, callersOf] at hu ⊢
    cases hpc : s.timerPc i with
    | release first k' pc =>
        rw [hpc] at hu hcall
        simp only [TimerPc.semPc] at hu ⊢
        split at hu
        · rename_i hk
          obtain ⟨rfl, -, hwithin⟩ := hcall
          subst hk
          rw [if_pos rfl]
          exact .timer hpc hwithin
        · exact absurd rfl hu
    | _ =>
        rw [hpc] at hu
        exact absurd rfl hu
  · have hcall := hs.worker i
    simp only [State.callers, callersOf] at hu ⊢
    cases hpc : s.workerPc i with
    | acquire k' pc =>
        rw [hpc] at hu hcall
        simp only [WorkerPc.semPc] at hu ⊢
        split at hu
        · rename_i hk
          obtain ⟨rfl, -, hwithin⟩ := hcall
          subst hk
          rw [if_pos rfl]
          exact .worker hpc hwithin
        · exact absurd rfl hu
    | _ =>
        rw [hpc] at hu
        exact absurd rfl hu
  · have hcall := hs.client c
    simp only [State.callers, callersOf] at hu ⊢
    cases hpc : s.clientPc c with
    | stop again pc =>
        cases pc with
        | sem k' pc =>
            rw [hpc] at hu hcall
            simp only [CallPc.semPc] at hu ⊢
            split at hu
            · rename_i hk
              subst hk
              rw [if_pos rfl]
              exact .client hpc hcall.2
            · exact absurd rfl hu
        | _ =>
            rw [hpc] at hu
            exact absurd rfl hu
    | _ =>
        rw [hpc] at hu
        exact absurd rfl hu

end PeriodicWork
