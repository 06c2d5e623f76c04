import CcmakeTemplate.PeriodicWork.LifeCycle
import CcmakeTemplate.Concurrency.Threads

/-!
# Which threads run

A thread that was joined has returned. Under one control thread a thread that was
not joined is the timer or the worker of the epoch, its semaphore exists, and it
returns only because `threadQuit` is set.
-/

namespace PeriodicWork

open Concurrency Semaphore

variable {F : Type}

/-! ## What the control thread leaves alone -/

theorem StopStep.frame {u : Thread} {s t : State F} {again : Bool} {pc : StopPc}
    {pc' : CallPc F} (h : StopStep u s again pc t pc') :
    t.timerPc = s.timerPc ∧ t.workerPc = s.workerPc ∧ t.log = s.log ∧ t.created = s.created := by
  cases h <;> exact ⟨rfl, rfl, rfl, rfl⟩

theorem SetStep.frame {u : Thread} {s t : State F} {pc : SetPc F} {call : Option (SetPc F)}
    (h : SetStep u s pc t call) :
    t.timerPc = s.timerPc ∧ t.workerPc = s.workerPc ∧ t.log = s.log ∧ t.sems = s.sems := by
  cases h <;> exact ⟨rfl, rfl, rfl, rfl⟩

theorem StopStep.joined {u : Thread} {s t : State F} {again : Bool} {pc : StopPc}
    {pc' : CallPc F} (h : StopStep u s again pc t pc') {j : Job} {i : ℕ}
    (hjoined : (t.object j i).joined = true) :
    (s.object j i).joined = true ∨ s.ended j i = true := by
  cases h with
  | @join j' i' h hobj hended =>
      by_cases hj : j = j'
      · subst hj
        by_cases hi : i = i'
        · subst hi
          exact .inr hended
        · exact .inl (by simpa [hi] using hjoined)
      · exact .inl (by simpa [hj] using hjoined)
  | @delete j' i' h hobj =>
      by_cases hj : j = j'
      · subst hj
        by_cases hi : i = i'
        · subst hi
          exact .inl (by rw [hobj])
        · exact .inl (by simpa [hi] using hjoined)
      · exact .inl (by simpa [hj] using hjoined)
  | _ => exact .inl hjoined

theorem StopStep.unjoined {u : Thread} {s t : State F} {again : Bool} {pc : StopPc}
    {pc' : CallPc F} (h : StopStep u s again pc t pc') {j : Job} {i : ℕ}
    (hunjoined : (t.object j i).joined = false) : (s.object j i).joined = false := by
  cases h with
  | @join j' i' h hobj | @delete j' i' h hobj =>
      by_cases hj : j = j'
      · subst hj
        by_cases hi : i = i'
        · subst hi
          simp at hunjoined
        · simpa [hi] using hunjoined
      · simpa [hj] using hunjoined
  | _ => exact hunjoined

theorem StopStep.threadQuit {u : Thread} {s t : State F} {again : Bool} {pc : StopPc}
    {pc' : CallPc F} (h : StopStep u s again pc t pc') (hquit : s.threadQuit = true) :
    t.threadQuit = true := by
  cases h <;> first | exact hquit | rfl

/-! ## The threads of the epoch -/

def Slot.runs : Slot → Bool
  | .fresh | .live => true
  | _ => false

/-- The semaphore is there before the threads and outlives them. -/
theorem Staged.sem_of_slot {o : Owned} {pc : CallPc F} {E : ℕ} {shape : Shape}
    (hs : Staged o pc E shape) {j : Job} (h : shape.slot j ≠ .vacant) : shape.sem = true := by
  have hstage := hs.stage
  cases pc with
  | out | set pc =>
      rcases hstage with rfl | rfl
      · cases j <;> exact absurd rfl h
      · rfl
  | stop again pc =>
      rcases hstage with rfl | ⟨-, rfl⟩
      · cases pc with
        | joinTest j' | joinable j' | join j' | delete j' | null j' => cases j' <;> rfl
        | deleteSem k => cases j <;> exact absurd rfl h
        | _ => rfl
      · cases j <;> exact absurd rfl h
  | start pc =>
      subst hstage
      cases pc with
      | create j' | assign j' i => cases j' <;> rfl
      | deleteSem k => rfl
      | _ => cases j <;> exact absurd rfl h
  | fault => exact absurd hstage id

theorem Staged.sem_of_runs {o : Owned} {pc : CallPc F} {E : ℕ} {shape : Shape}
    (hs : Staged o pc E shape) {j : Job} (h : (shape.slot j).runs = true) : shape.sem = true := by
  refine hs.sem_of_slot (j := j) fun hno => ?_
  rw [hno] at h
  cases h

theorem Staged.created_le {o : Owned} {pc : CallPc F} {E : ℕ} {shape : Shape}
    (hs : Staged o pc E shape) (j : Job) : o.created j ≤ o.semCnt := by
  have hslot := hs.slot j
  have hcnt := hs.semCnt
  by_cases hvacant : shape.slot j = .vacant
  · rw [hvacant] at hslot
    have hcreated : o.created j = E := hslot.2
    omega
  · have hcreated : o.created j ≤ E + 1 := by
      cases hkind : shape.slot j with
      | vacant => exact absurd hkind hvacant
      | _ =>
          rw [hkind] at hslot
          exact hslot.2.1.le
    rw [hs.sem_of_slot hvacant] at hcnt
    exact hcreated.trans hcnt.ge

/-- A thread that was not joined is a thread of the epoch. -/
theorem Staged.current {o : Owned} {pc : CallPc F} {E : ℕ} {shape : Shape}
    (hs : Staged o pc E shape) {j : Job} {i : ℕ} (hi : i < o.created j)
    (hobj : (o.object j i).joined = false) : i = E ∧ (shape.slot j).runs = true := by
  have hE : E ≤ i := by
    by_contra hlt
    rw [hs.old j i (not_le.mp hlt)] at hobj
    cases hobj
  have hslot := hs.slot j
  cases hkind : shape.slot j with
  | vacant =>
      rw [hkind] at hslot
      rw [hslot.2] at hi
      omega
  | fresh | live =>
      rw [hkind] at hslot
      rw [hslot.2.1] at hi
      exact ⟨by omega, rfl⟩
  | joined | deleted | gone =>
      rw [hkind] at hslot
      rw [hslot.2.1] at hi
      obtain rfl : i = E := by omega
      rw [hslot.2.2] at hobj
      cases hobj

/-- Nobody outside `stop` finds `threadQuit` set while a thread of the epoch runs. -/
theorem Staged.stopping {o : Owned} {pc : CallPc F} {E : ℕ} {shape : Shape}
    (hs : Staged o pc E shape) {j : Job} (hruns : (shape.slot j).runs = true)
    (hquit : o.threadQuit = true) :
    ∃ again pc', pc = .stop again pc' ∧ pc' ≠ .lock ∧ pc' ≠ .setQuit := by
  have hno : pc.quit shape ≠ some false := by
    intro hfalse
    rw [hs.quit false hfalse] at hquit
    cases hquit
  have hsem := hs.sem_of_runs hruns
  have hstage := hs.stage
  cases pc with
  | out | set pc => exact absurd (by simp [CallPc.quit, hsem]) hno
  | stop again pc =>
      refine ⟨again, pc, rfl, ?_, ?_⟩
      · rintro rfl
        exact hno (by simp [CallPc.quit, hsem])
      · rintro rfl
        exact hno (by simp [CallPc.quit, hsem])
  | start pc =>
      cases pc with
      | quit =>
          subst hstage
          cases hsem
      | _ => exact absurd rfl hno
  | fault => exact absurd hstage id

/-! ## Threads that return -/

/-- The thread has read that `threadQuit` is set, or has returned. -/
def State.leaving (s : State F) : Job → ℕ → Bool
  | .timer, i => match s.timerPc i with | .ended | .leaveQuit => true | _ => false
  | .worker, i => match s.workerPc i with | .ended => true | _ => false

structure Resting (s : State F) : Prop where
  joined : ∀ j i, (s.object j i).joined = true → s.ended j i = true
  quits : ∀ j i, i < s.created j → (s.object j i).joined = false → s.leaving j i = true →
    s.threadQuit = true
  unborn : ∀ i, (s.created .timer ≤ i → s.timerPc i = .semTest true) ∧
    (s.created .worker ≤ i → s.workerPc i = .loop ∧ s.log i = [])

/-- What is left of `Resting` when `threadQuit` may have any value. -/
structure Settled (s : State F) : Prop where
  joined : ∀ j i, (s.object j i).joined = true → s.ended j i = true
  unborn : ∀ i, (s.created .timer ≤ i → s.timerPc i = .semTest true) ∧
    (s.created .worker ≤ i → s.workerPc i = .loop ∧ s.log i = [])

theorem Resting.settled {s : State F} (hs : Resting s) : Settled s := ⟨hs.joined, hs.unborn⟩

/-- With `threadQuit` set there is nothing else to `Resting`. -/
theorem Settled.resting {s : State F} (hs : Settled s) :
    Resting ({ s with threadQuit := true } : State F) :=
  ⟨hs.joined, fun _ _ _ _ _ => rfl, hs.unborn⟩

theorem State.ended_timer {s : State F} {i : ℕ} :
    s.ended .timer i = true ↔ s.timerPc i = .ended := by
  simp only [State.ended]
  cases s.timerPc i <;> simp

theorem State.ended_worker {s : State F} {i : ℕ} :
    s.ended .worker i = true ↔ s.workerPc i = .ended := by
  simp only [State.ended]
  cases s.workerPc i <;> simp

theorem State.leaving_timer {s : State F} {i : ℕ} :
    s.leaving .timer i = true ↔ s.timerPc i = .ended ∨ s.timerPc i = .leaveQuit := by
  simp only [State.leaving]
  cases s.timerPc i <;> simp

theorem State.leaving_worker {s : State F} {i : ℕ} :
    s.leaving .worker i = true ↔ s.workerPc i = .ended := by
  simp only [State.leaving]
  cases s.workerPc i <;> simp

theorem TimerStep.not_ended {i : ℕ} {s t : State F} (h : TimerStep i s t) :
    s.ended .timer i = false := by
  rw [Bool.eq_false_iff, Ne, State.ended_timer]
  intro hno
  cases h with
  | go h =>
      rw [hno] at h
      cases h
  | reads hpc => rcases hpc with hpc | hpc <;> cases hno.symm.trans hpc
  | lock hpc => rcases hpc with ⟨hpc, -⟩ | hpc <;> cases hno.symm.trans hpc
  | tries hpc | sem hpc | plans hpc | expires hpc | block hpc | wakes hpc | leaves hpc
  | unlock hpc | clears hpc => cases hno.symm.trans hpc

theorem WorkerStep.not_ended {i : ℕ} {s t : State F} (h : WorkerStep i s t) :
    s.ended .worker i = false := by
  rw [Bool.eq_false_iff, Ne, State.ended_worker]
  intro hno
  cases h with
  | go h | does h =>
      rw [hno] at h
      cases h
  | sem hpc | lock hpc | unlock hpc | nested hpc => cases hno.symm.trans hpc

/-- A thread that takes a step was not joined, so it is a thread of the epoch. -/
theorem Resting.mover {s : State F} {E : ℕ} {shape : Shape} (hs : Resting s)
    (hc : Controlled s E shape) {j : Job} {i : ℕ} (hi : i < s.created j)
    (hended : s.ended j i = false) :
    (s.object j i).joined = false ∧ i = E ∧ (shape.slot j).runs = true ∧ s.sem_ = some E := by
  have hobj : (s.object j i).joined = false := by
    by_contra hjoined
    rw [hs.joined j i (Bool.not_eq_false _ ▸ hjoined)] at hended
    cases hended
  obtain ⟨rfl, hruns⟩ := hc.staged.current hi hobj
  refine ⟨hobj, rfl, hruns, ?_⟩
  rw [show s.sem_ = s.owned.sem_ from rfl, hc.staged.sem, hc.staged.sem_of_runs hruns]
  rfl

/-- With nothing to stop, every thread has returned. -/
theorem Staged.idle_ended {s : State F} {pc : CallPc F} {E : ℕ} (hs : Staged s.owned pc E .idle)
    (hrest : Resting s) {j : Job} {i : ℕ} (hi : i < s.created j) : s.ended j i = true := by
  have hcreated : s.created j = E := (hs.idle j).2
  have hobj : s.object j i = { joined := true, deleted := true } := hs.old j i (hcreated ▸ hi)
  exact hrest.joined j i (by rw [hobj])

theorem TimerStep.moves {i : ℕ} {s t : State F} (h : TimerStep i s t) :
    ∃ pc, t.timerPc = Function.update s.timerPc i pc ∧ t.workerPc = s.workerPc ∧
      t.log = s.log ∧
      (pc = .ended ∨ pc = .leaveQuit → s.threadQuit = true ∨ s.timerPc i = .leaveQuit) := by
  cases h with
  | @go pc h =>
      refine ⟨pc, rfl, rfl, rfl, ?_⟩
      intro hleave
      generalize s.timerPc i = old at h ⊢
      cases h with
      | stops hquit | breaks hquit => exact .inl hquit
      | absent first h | ticked first k => cases first <;> simp [afterTick] at hleave
      | _ => simp at hleave
  | leaves hpc => exact ⟨_, rfl, rfl, rfl, fun _ => .inr hpc⟩
  | _ =>
      refine ⟨_, rfl, rfl, rfl, ?_⟩
      rintro (hno | hno) <;> cases hno

theorem WorkerStep.moves {i : ℕ} {s t : State F} (h : WorkerStep i s t) :
    ∃ pc log, t.workerPc = Function.update s.workerPc i pc ∧ t.log = Function.update s.log i log ∧
      t.timerPc = s.timerPc ∧ (pc = .ended → s.threadQuit = true ∨ s.sem_ = none) := by
  have hkeep : s.log = Function.update s.log i (s.log i) := (Function.update_eq_self i s.log).symm
  cases h with
  | @go pc h =>
      refine ⟨pc, _, rfl, hkeep, rfl, ?_⟩
      rintro rfl
      generalize s.workerPc i = old at h
      cases h with
      | stops hquit | breaks hquit => exact .inl hquit
      | absent h => exact .inr h
  | does h =>
      refine ⟨_, _, rfl, rfl, rfl, ?_⟩
      rintro rfl
      generalize s.workerPc i = old at h
      cases h
  | @nested f pc s' call hpc h =>
      refine ⟨.inTask f call, s.log i, ?_, ?_, h.frame.1, fun hno => by cases hno⟩
      · show Function.update _ i _ = _
        rw [h.frame.2.1]
      · rw [Function.update_eq_self]
        exact h.frame.2.2.1
  | sem | lock | unlock =>
      refine ⟨_, _, rfl, hkeep, rfl, ?_⟩
      intro hno
      cases hno

/-- Steps that leave the threads where they are. -/
theorem Resting.keep {s t : State F} (hs : Resting s)
    (hpc : t.timerPc = s.timerPc ∧ t.workerPc = s.workerPc ∧ t.log = s.log ∧
      t.created = s.created)
    (hjoined : ∀ j i, (t.object j i).joined = true →
      (s.object j i).joined = true ∨ s.ended j i = true)
    (hunjoined : ∀ j i, i < s.created j → (t.object j i).joined = false →
      (s.object j i).joined = false ∧ (s.threadQuit = true → t.threadQuit = true)) :
    Resting t := by
  obtain ⟨htimer, hworker, hlog, hcreated⟩ := hpc
  have hended : ∀ j i, t.ended j i = s.ended j i := by
    intro j i
    cases j <;> simp only [State.ended, htimer, hworker]
  have hleaving : ∀ j i, t.leaving j i = s.leaving j i := by
    intro j i
    cases j <;> simp only [State.leaving, htimer, hworker]
  refine ⟨?_, ?_, ?_⟩
  · intro j i hj
    rw [hended]
    exact (hjoined j i hj).elim (hs.joined j i) id
  · intro j i hi hobj hleave
    rw [hcreated] at hi
    rw [hleaving] at hleave
    obtain ⟨hold, hquit⟩ := hunjoined j i hi hobj
    exact hquit (hs.quits j i hi hold hleave)
  · rw [hcreated, htimer, hworker, hlog]
    exact hs.unborn

/-- A timer that was not joined takes a step. -/
theorem Settled.timer {s t : State F} {i : ℕ} (hs : Settled s) (hi : i < s.created .timer)
    (hunjoined : (s.object .timer i).joined = false) (h : TimerStep i s t) : Settled t := by
  obtain ⟨pc, hpc, hworker, hlog, -⟩ := h.moves
  have howned := h.owned.1
  have hobject : t.object = s.object := congrArg Owned.object howned
  have hcreated : t.created = s.created := congrArg Owned.created howned
  have hother : ∀ i', i' ≠ i → t.timerPc i' = s.timerPc i' := by
    intro i' hne
    rw [hpc, Function.update_of_ne hne]
  refine ⟨?_, ?_⟩
  · intro j i' hjoined
    rw [hobject] at hjoined
    have hended := hs.joined j i' hjoined
    cases j with
    | timer =>
        have hne : i' ≠ i := by
          rintro rfl
          rw [hunjoined] at hjoined
          cases hjoined
        rwa [State.ended_timer, hother i' hne, ← State.ended_timer]
    | worker => rwa [State.ended_worker, hworker, ← State.ended_worker]
  · rw [hcreated, hworker, hlog]
    refine fun i' => ⟨fun hi' => ?_, (hs.unborn i').2⟩
    rw [hother i' (by omega)]
    exact (hs.unborn i').1 hi'

theorem Resting.timer {s t : State F} {i : ℕ} {E : ℕ} {shape : Shape} (hs : Resting s)
    (hc : Controlled s E shape) (hi : i < s.created .timer) (h : TimerStep i s t) :
    Resting t := by
  obtain ⟨hunjoined, -, -, -⟩ := hs.mover hc hi h.not_ended
  have ht := hs.settled.timer hi hunjoined h
  obtain ⟨pc, hpc, hworker, -, hleave⟩ := h.moves
  have howned := h.owned.1
  have hobject : t.object = s.object := congrArg Owned.object howned
  have hcreated : t.created = s.created := congrArg Owned.created howned
  have hquit : t.threadQuit = s.threadQuit := congrArg Owned.threadQuit howned
  refine ⟨ht.joined, ?_, ht.unborn⟩
  intro j i' hi' hobj hleaving
  rw [hcreated] at hi'
  rw [hobject] at hobj
  rw [hquit]
  cases j with
  | timer =>
      rw [State.leaving_timer] at hleaving
      by_cases hne : i' = i
      · subst hne
        rw [hpc, Function.update_self] at hleaving
        refine (hleave hleaving).elim id fun hold => ?_
        exact hs.quits .timer i' hi' hobj (State.leaving_timer.mpr (.inr hold))
      · rw [hpc, Function.update_of_ne hne, ← State.leaving_timer] at hleaving
        exact hs.quits .timer i' hi' hobj hleaving
  | worker =>
      rw [State.leaving_worker, hworker, ← State.leaving_worker] at hleaving
      exact hs.quits .worker i' hi' hobj hleaving

/-- A worker that was not joined moves. -/
theorem Settled.worker {s t : State F} {i : ℕ} {pc : WorkerPc F} {log : List (Event F)}
    (hs : Settled s) (hi : i < s.created .worker)
    (hunjoined : (s.object .worker i).joined = false)
    (hpc : t.workerPc = Function.update s.workerPc i pc)
    (hlog : t.log = Function.update s.log i log) (htimer : t.timerPc = s.timerPc)
    (howned : t.owned = s.owned) : Settled t := by
  have hobject : t.object = s.object := congrArg Owned.object howned
  have hcreated : t.created = s.created := congrArg Owned.created howned
  have hother : ∀ i', i' ≠ i → t.workerPc i' = s.workerPc i' := by
    intro i' hne
    rw [hpc, Function.update_of_ne hne]
  refine ⟨?_, ?_⟩
  · intro j i' hjoined
    rw [hobject] at hjoined
    have hrest := hs.joined j i' hjoined
    cases j with
    | timer => rwa [State.ended_timer, htimer, ← State.ended_timer]
    | worker =>
        have hne : i' ≠ i := by
          rintro rfl
          rw [hunjoined] at hjoined
          cases hjoined
        rwa [State.ended_worker, hother i' hne, ← State.ended_worker]
  · rw [hcreated, htimer]
    refine fun i' => ⟨(hs.unborn i').1, fun hi' => ?_⟩
    have hne : i' ≠ i := by omega
    rw [hother i' hne, hlog, Function.update_of_ne hne]
    exact (hs.unborn i').2 hi'

theorem Resting.worker {s t : State F} {i : ℕ} {E : ℕ} {shape : Shape} {pc : WorkerPc F}
    {log : List (Event F)} (hs : Resting s) (hc : Controlled s E shape)
    (hi : i < s.created .worker) (hended : s.ended .worker i = false)
    (hpc : t.workerPc = Function.update s.workerPc i pc)
    (hlog : t.log = Function.update s.log i log) (htimer : t.timerPc = s.timerPc)
    (howned : t.owned = s.owned) (hleave : pc = .ended → s.threadQuit = true ∨ s.sem_ = none) :
    Resting t := by
  obtain ⟨hunjoined, -, -, hsem⟩ := hs.mover hc hi hended
  have ht := hs.settled.worker hi hunjoined hpc hlog htimer howned
  have hobject : t.object = s.object := congrArg Owned.object howned
  have hcreated : t.created = s.created := congrArg Owned.created howned
  have hquit : t.threadQuit = s.threadQuit := congrArg Owned.threadQuit howned
  refine ⟨ht.joined, ?_, ht.unborn⟩
  intro j i' hi' hobj hleaving
  rw [hcreated] at hi'
  rw [hobject] at hobj
  rw [hquit]
  cases j with
  | timer =>
      rw [State.leaving_timer, htimer, ← State.leaving_timer] at hleaving
      exact hs.quits .timer i' hi' hobj hleaving
  | worker =>
      rw [State.leaving_worker] at hleaving
      by_cases hne : i' = i
      · subst hne
        rw [hpc, Function.update_self] at hleaving
        -- a worker that runs has its semaphore
        refine (hleave hleaving).elim id fun hno => ?_
        cases hsem.symm.trans hno
      · rw [hpc, Function.update_of_ne hne, ← State.leaving_worker] at hleaving
        exact hs.quits .worker i' hi' hobj hleaving

theorem startThread_other (s : State F) {j j' : Job} {i i' : ℕ} (hne : ¬ (j' = j ∧ i' = i)) :
    (startThread s i j).ended j' i' = s.ended j' i' ∧
      (startThread s i j).leaving j' i' = s.leaving j' i' := by
  cases j with
  | timer =>
      cases j' with
      | timer =>
          have hi : i' ≠ i := fun heq => hne ⟨rfl, heq⟩
          simp [startThread, State.ended, State.leaving, hi]
      | worker => exact ⟨rfl, rfl⟩
  | worker =>
      cases j' with
      | timer => exact ⟨rfl, rfl⟩
      | worker =>
          have hi : i' ≠ i := fun heq => hne ⟨rfl, heq⟩
          simp [startThread, State.ended, State.leaving, hi]

theorem startThread_new (s : State F) (j : Job) (i : ℕ) :
    (startThread s i j).leaving j i = false := by
  cases j <;> simp [startThread, State.leaving]

theorem startThread_frame (s : State F) (j : Job) (i : ℕ) :
    (startThread s i j).object = s.object ∧ (startThread s i j).created = s.created ∧
      (startThread s i j).threadQuit = s.threadQuit ∧ (startThread s i j).log = s.log := by
  cases j <;> exact ⟨rfl, rfl, rfl, rfl⟩

theorem Resting.create {s : State F} {j : Job} (hs : Resting s) :
    Resting (startThread ({ s with
      created := Function.update s.created j (s.created j + 1) }.setObject j (s.created j) {})
        (s.created j) j) := by
  generalize hu : ({ s with
    created := Function.update s.created j (s.created j + 1) } : State F).setObject j
      (s.created j) {} = u
  have hobject : ∀ j' i', ¬ (j' = j ∧ i' = s.created j) → u.object j' i' = s.object j' i' := by
    intro j' i' hne
    by_cases hj : j' = j
    · subst hj
      have hi : i' ≠ s.created j' := fun heq => hne ⟨rfl, heq⟩
      simp [← hu, hi]
    · simp [← hu, hj]
  have hnew : u.object j (s.created j) = {} := by simp [← hu]
  have hsame : (∀ j' i', u.ended j' i' = s.ended j' i') ∧
      (∀ j' i', u.leaving j' i' = s.leaving j' i') ∧ u.threadQuit = s.threadQuit := by
    subst hu
    refine ⟨?_, ?_, rfl⟩ <;> intro j' i' <;> cases j' <;> rfl
  have hborn : ∀ j' i', i' < u.created j' → ¬ (j' = j ∧ i' = s.created j) →
      i' < s.created j' := by
    intro j' i' hi hne
    by_cases hj : j' = j
    · subst hj
      have hi' : i' ≠ s.created j' := fun heq => hne ⟨rfl, heq⟩
      simp only [← hu, Function.update_self] at hi
      omega
    · simpa [← hu, hj] using hi
  obtain ⟨hended, hleaving, hquit⟩ := hsame
  obtain ⟨fobject, fcreated, fquit, flog⟩ := startThread_frame u j (s.created j)
  refine ⟨?_, ?_, ?_⟩
  · intro j' i' hjoined
    rw [fobject] at hjoined
    by_cases hne : j' = j ∧ i' = s.created j
    · obtain ⟨rfl, rfl⟩ := hne
      rw [hnew] at hjoined
      cases hjoined
    · rw [hobject j' i' hne] at hjoined
      rw [(startThread_other u hne).1, hended]
      exact hs.joined j' i' hjoined
  · intro j' i' hi hobj hleave
    rw [fobject] at hobj
    rw [fcreated] at hi
    rw [fquit, hquit]
    by_cases hne : j' = j ∧ i' = s.created j
    · obtain ⟨rfl, rfl⟩ := hne
      rw [startThread_new] at hleave
      cases hleave
    · rw [hobject j' i' hne] at hobj
      rw [(startThread_other u hne).2, hleaving] at hleave
      exact hs.quits j' i' (hborn j' i' hi hne) hobj hleave
  · rw [fcreated, flog]
    subst hu
    intro i
    cases j with
    | timer =>
        refine ⟨fun hi => ?_, fun hi => (hs.unborn i).2 (by simpa using hi)⟩
        simp only [Function.update_self] at hi
        have hne : i ≠ s.created .timer := by omega
        simp only [startThread, Function.update_of_ne hne]
        exact (hs.unborn i).1 (by omega)
    | worker =>
        refine ⟨fun hi => (hs.unborn i).1 (by simpa using hi), fun hi => ?_⟩
        simp only [Function.update_self] at hi
        have hne : i ≠ s.created .worker := by omega
        simp only [startThread, Function.update_of_ne hne]
        exact (hs.unborn i).2 (by omega)

theorem Resting.stop {u : Thread} {s t : State F} {again : Bool} {pc : StopPc} {pc' : CallPc F}
    (hs : Resting s) (h : StopStep u s again pc t pc') : Resting t := by
  obtain ⟨htimer, hworker, hlog, hcreated⟩ := h.frame
  exact hs.keep ⟨htimer, hworker, hlog, hcreated⟩ (fun j i => h.joined)
    (fun j i _ hobj => ⟨h.unjoined hobj, h.threadQuit⟩)

theorem Resting.start {maxLag : ℕ} {s t : State F} {pc : StartPc} {pc' : CallPc F} {E : ℕ}
    {shape : Shape} (hs : Resting s) (hc : Staged s.owned (.start pc : CallPc F) E shape)
    (h : StartStep maxLag s pc t pc') : Resting t := by
  cases h with
  | quit =>
      -- nobody is left that could misread the flag
      refine hs.keep ⟨rfl, rfl, rfl, rfl⟩ (fun j i hj => .inl hj) ?_
      intro j i hi hobj
      obtain rfl : shape = .idle := hc.stage
      have hruns := (hc.current hi hobj).2
      cases j <;> cases hruns
  | create j => exact hs.create
  | _ => exact hs.keep ⟨rfl, rfl, rfl, rfl⟩ (fun j i hj => .inl hj) (fun j i _ hj => ⟨hj, id⟩)

theorem Resting.of_reach {callback : Option F} {period maxLag : ℕ} {s : State F}
    (h : (machine callback period maxLag).ReachBy OneControl s) : Resting s := by
  refine h.invariant (P := Resting) ?_ ?_
  · rintro s rfl
    refine ⟨?_, ?_, fun _ => ⟨fun _ => rfl, fun _ => ⟨rfl, rfl⟩⟩⟩
    · rintro j i ⟨⟩
    · rintro j i ⟨⟩
  · intro s a t hreach hs hG hst
    obtain ⟨E, shape, hc⟩ := Controlled.of_reach hreach
    have hkeep : ∀ u : State F, u.owned = s.owned →
        u.timerPc = s.timerPc ∧ u.workerPc = s.workerPc ∧ u.log = s.log → Resting u := by
      intro u howned hpc
      have hobject : u.object = s.object := congrArg Owned.object howned
      refine hs.keep ⟨hpc.1, hpc.2.1, hpc.2.2, congrArg Owned.created howned⟩ ?_ ?_
      · rw [hobject]
        exact fun j i hj => .inl hj
      · rw [hobject, show u.threadQuit = s.threadQuit from congrArg Owned.threadQuit howned]
        exact fun j i _ hj => ⟨hj, id⟩
    cases step_cases hst with
    | timer hi h => exact hs.timer hc hi h
    | worker hi h =>
        obtain ⟨pc, log, hpc, hlog, htimer, hleave⟩ := h.moves
        exact hs.worker hc hi h.not_ended hpc hlog htimer h.owned.1 hleave
    | @client c _ _ u pc h =>
        have hu : Resting u := by
          have hsettles := hc.others c
          generalize hold : s.clientPc c = old at h hsettles
          cases h with
          | set h | setReturns h =>
              exact hkeep u h.owned.1 ⟨h.frame.1, h.frame.2.1, h.frame.2.2.1⟩
          | stop h => exact hs.stop h
          | start h =>
              obtain rfl : c = 0 := by
                by_contra hc'
                cases hsettles hc'
              have hstaged := hc.staged
              rw [hold] at hstaged
              exact hs.start hstaged h
        exact ⟨hu.joined, hu.quits, hu.unborn⟩
    | @nest i op f hpc hi =>
        refine hs.worker (t := s.goWorker i (.inTask f (some op.entry))) hc hi ?_ rfl
          (Function.update_eq_self i s.log).symm rfl rfl (by rintro ⟨⟩)
        rw [Bool.eq_false_iff, Ne, State.ended_worker, hpc]
        rintro ⟨⟩
    | set | starts | stops | tick | spurious => exact hkeep _ rfl ⟨rfl, rfl, rfl⟩

end PeriodicWork
