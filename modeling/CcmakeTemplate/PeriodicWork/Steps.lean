import CcmakeTemplate.PeriodicWork.Model

/-!
# What one step of a `periodicWork` can do

The step functions of the model, inverted once. Steps that change nothing but the
program point are collected in `TimerGo`, `WorkerGo` and `StopGo`. A step inside a
call on a semaphore carries the `SemStep` it is.
-/

namespace PeriodicWork

open Concurrency Semaphore

variable {F : Type}

theorem semCall_cases {s s' : State F} {t : Thread} {fails : Bool} {wake : Option Thread}
    {k : ℕ} {pc pc' : SemPc} (h : s.semCall t fails wake k pc = some (s', pc')) :
    ∃ sem, SemStep t (s.sems k) pc sem pc' ∧ s' = s.setSem k sem := by
  unfold State.semCall at h
  obtain ⟨⟨sem, pc''⟩, hsem, heq⟩ := Option.map_eq_some_iff.mp h
  cases heq
  exact ⟨sem, semStep_cases hsem, rfl⟩

/-! ## Timers -/

inductive TimerGo (s : State F) : TimerPc → TimerPc → Prop
  | present (first : Bool) (h : s.sem_ ≠ none) : TimerGo s (.semTest first) (.semDeref first)
  | absent (first : Bool) (h : s.sem_ = none) : TimerGo s (.semTest first) (afterTick first)
  | null (first : Bool) (h : s.sem_ = none) : TimerGo s (.semDeref first) .fault
  | ticked (first : Bool) (k : ℕ) : TimerGo s (.release first k .out) (afterTick first)
  | stops (hquit : s.threadQuit = true) : TimerGo s .loop .ended
  | goesOn (hquit : s.threadQuit = false) : TimerGo s .loop .addPeriod
  | quitSet (timedOut : Bool) (hquit : s.threadQuit = true) :
      TimerGo s (.testQuit timedOut) .quitTest
  | quitUnset (timedOut : Bool) (hquit : s.threadQuit = false) :
      TimerGo s (.testQuit timedOut) (.testChanged timedOut)
  | changedSet (timedOut : Bool) (h : s.periodChanged_ = true) :
      TimerGo s (.testChanged timedOut) .quitTest
  | sleep (h : s.periodChanged_ = false) : TimerGo s (.testChanged false) .block
  | breaks (hquit : s.threadQuit = true) : TimerGo s .quitTest .leaveQuit
  | stays (hquit : s.threadQuit = false) : TimerGo s .quitTest .unlock
  | changed (h : s.periodChanged_ = true) : TimerGo s .changedTest .clearChanged
  | unchanged (h : s.periodChanged_ = false) : TimerGo s .changedTest (.semTest false)

inductive TimerStep (i : ℕ) (s : State F) : State F → Prop
  | go {pc : TimerPc} (h : TimerGo s (s.timerPc i) pc) : TimerStep i s (s.goTimer i pc)
  | tries {first : Bool} {k : ℕ} (hpc : s.timerPc i = .semDeref first) (hsem : s.sem_ = some k) :
      TimerStep i s
        ({ s with tries := Function.update s.tries i (s.tries i + 1) }.goTimer i
          (.release first k SemOp.tryRelease.entry))
  | sem {first : Bool} {k : ℕ} {pc pc' : SemPc} {sem : CountingSemaphore Thread}
      (hpc : s.timerPc i = .release first k pc)
      (h : SemStep (.job .timer i) (s.sems k) pc sem pc') :
      TimerStep i s ((s.setSem k sem).goTimer i (.release first k pc'))
  | reads (hpc : s.timerPc i = .now ∨ s.timerPc i = .resetNow) :
      TimerStep i s ((s.setNextRun i s.clock).goTimer i .loop)
  | plans (hpc : s.timerPc i = .addPeriod) :
      TimerStep i s
        (({ s with planned := Function.update s.planned i s.periodMs }.setNextRun i
          (s.nextRun i + s.periodMs * 1000000)).goTimer i .lock)
  | lock {timedOut : Bool}
      (hpc : s.timerPc i = .lock ∧ timedOut = false ∨ s.timerPc i = .relock timedOut)
      (hfree : s.workLock = none) :
      TimerStep i s
        ({ s with workLock := some (.job .timer i) }.goTimer i (.testQuit timedOut))
  | expires (hpc : s.timerPc i = .testChanged true) (h : s.periodChanged_ = false) :
      TimerStep i s
        ({ s with expired := Function.update s.expired i (s.expired i + 1) }.goTimer i .quitTest)
  | block (hpc : s.timerPc i = .block) :
      TimerStep i s ({ s with
        workLock := none
        workCv := s.workCv.block (.job .timer i) }.goTimer i .waiting)
  | wakes {timedOut : Bool} (hpc : s.timerPc i = .waiting)
      (hcv : .job .timer i ∈ s.workCv → timedOut = true)
      (htime : timedOut = true → s.nextRun i ≤ s.clock) :
      TimerStep i s
        ({ s with workCv := s.workCv.erase (.job .timer i) }.goTimer i (.relock timedOut))
  | leaves (hpc : s.timerPc i = .leaveQuit) :
      TimerStep i s ({ s with workLock := none }.goTimer i .ended)
  | unlock (hpc : s.timerPc i = .unlock) :
      TimerStep i s ({ s with workLock := none }.goTimer i .changedTest)
  | clears (hpc : s.timerPc i = .clearChanged) :
      TimerStep i s ({ s with periodChanged_ := false }.goTimer i .resetNow)

theorem timerJobStep_lock {i : ℕ} {s t : State F} {timedOut : Bool}
    (hpc : s.timerPc i = .lock ∧ timedOut = false ∨ s.timerPc i = .relock timedOut)
    (h : ((s.workLock.lock (.job .timer i)).map fun m =>
      { s with workLock := m }.goTimer i (.testQuit timedOut)) = some t) : TimerStep i s t := by
  obtain ⟨m, hm, rfl⟩ := Option.map_eq_some_iff.mp h
  obtain ⟨hfree, rfl⟩ := Mutex.lock_eq_some.mp hm
  exact .lock hpc hfree

theorem timerJobStep_cases {i : ℕ} {fails timedOut : Bool} {wake : Option Thread}
    {s t : State F} (h : timerJobStep i fails wake timedOut s = some t) : TimerStep i s t := by
  cases hpc : s.timerPc i with
  | semTest first =>
      simp only [timerJobStep, hpc] at h
      cases h
      refine .go (hpc ▸ ?_)
      split
      · rename_i hsem
        exact .present first (Option.isSome_iff_ne_none.mp hsem)
      · rename_i hsem
        exact .absent first (Option.not_isSome_iff_eq_none.mp hsem)
  | semDeref first =>
      simp only [timerJobStep, hpc] at h
      split at h
      · rename_i hsem
        cases h
        exact .go (hpc ▸ .null first hsem)
      · rename_i k hsem
        cases h
        exact .tries hpc hsem
  | release first k pc =>
      by_cases hout : pc = .out
      · subst hout
        simp only [timerJobStep, hpc] at h
        cases h
        exact .go (hpc ▸ .ticked first k)
      · simp only [timerJobStep, hpc] at h
        obtain ⟨⟨s', pc'⟩, hsem, rfl⟩ := Option.map_eq_some_iff.mp h
        obtain ⟨sem, hstep, rfl⟩ := semCall_cases hsem
        exact .sem hpc hstep
  | now =>
      simp only [timerJobStep, hpc] at h
      cases h
      exact .reads (.inl hpc)
  | loop =>
      simp only [timerJobStep, hpc] at h
      cases h
      refine .go (hpc ▸ ?_)
      split
      · rename_i hquit
        exact .stops hquit
      · rename_i hquit
        exact .goesOn (Bool.not_eq_true _ ▸ hquit)
  | addPeriod =>
      simp only [timerJobStep, hpc] at h
      cases h
      exact .plans hpc
  | lock =>
      simp only [timerJobStep, hpc] at h
      exact timerJobStep_lock (.inl ⟨hpc, rfl⟩) h
  | testQuit timedOut =>
      simp only [timerJobStep, hpc] at h
      cases h
      refine .go (hpc ▸ ?_)
      split
      · rename_i hquit
        exact .quitSet timedOut hquit
      · rename_i hquit
        exact .quitUnset timedOut (Bool.not_eq_true _ ▸ hquit)
  | testChanged timedOut =>
      simp only [timerJobStep, hpc] at h
      split at h
      · rename_i hchanged
        cases h
        exact .go (hpc ▸ .changedSet timedOut hchanged)
      · rename_i hchanged
        rw [Bool.not_eq_true] at hchanged
        cases timedOut with
        | true =>
            cases h
            exact .expires hpc hchanged
        | false =>
            cases h
            exact .go (hpc ▸ .sleep hchanged)
  | block =>
      simp only [timerJobStep, hpc] at h
      cases h
      exact .block hpc
  | waiting =>
      simp only [timerJobStep, hpc] at h
      split at h
      · rename_i hwake
        cases h
        exact .wakes hpc hwake.1 hwake.2
      · cases h
  | relock timedOut =>
      simp only [timerJobStep, hpc] at h
      exact timerJobStep_lock (.inr hpc) h
  | quitTest =>
      simp only [timerJobStep, hpc] at h
      cases h
      refine .go (hpc ▸ ?_)
      split
      · rename_i hquit
        exact .breaks hquit
      · rename_i hquit
        exact .stays (Bool.not_eq_true _ ▸ hquit)
  | leaveQuit =>
      simp only [timerJobStep, hpc] at h
      cases h
      exact .leaves hpc
  | unlock =>
      simp only [timerJobStep, hpc] at h
      cases h
      exact .unlock hpc
  | changedTest =>
      simp only [timerJobStep, hpc] at h
      cases h
      refine .go (hpc ▸ ?_)
      split
      · rename_i hchanged
        exact .changed hchanged
      · rename_i hchanged
        exact .unchanged (Bool.not_eq_true _ ▸ hchanged)
  | clearChanged =>
      simp only [timerJobStep, hpc] at h
      cases h
      exact .clears hpc
  | resetNow =>
      simp only [timerJobStep, hpc] at h
      cases h
      exact .reads (.inr hpc)
  | ended | fault => simp [timerJobStep, hpc] at h

/-! ## `setPeriod` and `setCallback` -/

inductive SetStep (t : Thread) (s : State F) :
    SetPc F → State F → Option (SetPc F) → Prop
  | periodStore (period : ℕ) :
      SetStep t s (.periodStore period) { s with periodMs := period } (some .periodChanged)
  | periodChanged :
      SetStep t s .periodChanged { s with periodChanged_ := true } (some .periodNotify)
  | periodNotify {wake : Option Thread} {cv : CondVar Thread}
      (hcv : s.workCv.notifyOne wake = some cv) :
      SetStep t s .periodNotify { s with workCv := cv } none
  | lock (f : Option F) (hfree : s.workLock = none) :
      SetStep t s (.callbackLock f) { s with workLock := some t } (some (.callbackAssign f))
  | assign (f : Option F) :
      SetStep t s (.callbackAssign f) { s with task := f } (some .callbackUnlock)
  | unlock : SetStep t s .callbackUnlock { s with workLock := none } none

theorem setStep_cases {t : Thread} {wake : Option Thread} {pc : SetPc F} {s s' : State F}
    {call : Option (SetPc F)} (h : setStep t wake pc s = some (s', call)) :
    SetStep t s pc s' call := by
  cases pc with
  | periodStore period =>
      cases h
      exact .periodStore period
  | periodChanged =>
      cases h
      exact .periodChanged
  | periodNotify =>
      obtain ⟨cv, hcv, heq⟩ := Option.map_eq_some_iff.mp h
      cases heq
      exact .periodNotify hcv
  | callbackLock f =>
      obtain ⟨m, hm, heq⟩ := Option.map_eq_some_iff.mp h
      cases heq
      obtain ⟨hfree, rfl⟩ := Mutex.lock_eq_some.mp hm
      exact .lock f hfree
  | callbackAssign f =>
      cases h
      exact .assign f
  | callbackUnlock =>
      cases h
      exact .unlock

/-! ## Workers -/

inductive WorkerGo (s : State F) : WorkerPc F → WorkerPc F → Prop
  | stops (hquit : s.threadQuit = true) : WorkerGo s .loop .ended
  | goesOn (hquit : s.threadQuit = false) : WorkerGo s .loop .semTest
  | present (h : s.sem_ ≠ none) : WorkerGo s .semTest .semDeref
  | absent (h : s.sem_ = none) : WorkerGo s .semTest .ended
  | null (h : s.sem_ = none) : WorkerGo s .semDeref .fault
  | deref {k : ℕ} (h : s.sem_ = some k) : WorkerGo s .semDeref (.acquire k SemOp.acquire.entry)
  | acquired (k : ℕ) : WorkerGo s (.acquire k .out) .quitTest
  | breaks (hquit : s.threadQuit = true) : WorkerGo s .quitTest .ended
  | copies : WorkerGo s .copyTask (.unlockTask s.task)
  | noTask : WorkerGo s (.callTask none) .distribute
  | returns (f : F) : WorkerGo s (.inTask f none) .distribute

/-- The points at which a worker does something visible. -/
inductive WorkerDoes (s : State F) : WorkerPc F → Event F → WorkerPc F → Prop
  | begins (hquit : s.threadQuit = false) : WorkerDoes s .quitTest .began .lockTask
  | calls (f : F) : WorkerDoes s (.callTask (some f)) (.called f) (.inTask f none)
  | distributes : WorkerDoes s .distribute .distributed .loop

inductive WorkerStep (i : ℕ) (s : State F) : State F → Prop
  | go {pc : WorkerPc F} (h : WorkerGo s (s.workerPc i) pc) : WorkerStep i s (s.goWorker i pc)
  | does {event : Event F} {pc : WorkerPc F} (h : WorkerDoes s (s.workerPc i) event pc) :
      WorkerStep i s ((s.record i event).goWorker i pc)
  | sem {k : ℕ} {pc pc' : SemPc} {sem : CountingSemaphore Thread}
      (hpc : s.workerPc i = .acquire k pc)
      (h : SemStep (.job .worker i) (s.sems k) pc sem pc') :
      WorkerStep i s ((s.setSem k sem).goWorker i (.acquire k pc'))
  | lock (hpc : s.workerPc i = .lockTask) (hfree : s.workLock = none) :
      WorkerStep i s ({ s with workLock := some (.job .worker i) }.goWorker i .copyTask)
  | unlock {localTask : Option F} (hpc : s.workerPc i = .unlockTask localTask) :
      WorkerStep i s ({ s with workLock := none }.goWorker i (.callTask localTask))
  | nested {f : F} {pc : SetPc F} {s' : State F} {call : Option (SetPc F)}
      (hpc : s.workerPc i = .inTask f (some pc)) (h : SetStep (.job .worker i) s pc s' call) :
      WorkerStep i s (s'.goWorker i (.inTask f call))

theorem workerJobStep_cases {i : ℕ} {fails : Bool} {wake : Option Thread} {s t : State F}
    (h : workerJobStep i fails wake s = some t) : WorkerStep i s t := by
  cases hpc : s.workerPc i with
  | loop =>
      simp only [workerJobStep, hpc] at h
      cases h
      refine .go (hpc ▸ ?_)
      split
      · rename_i hquit
        exact .stops hquit
      · rename_i hquit
        exact .goesOn (Bool.not_eq_true _ ▸ hquit)
  | semTest =>
      simp only [workerJobStep, hpc] at h
      cases h
      refine .go (hpc ▸ ?_)
      split
      · rename_i hsem
        exact .present (Option.isSome_iff_ne_none.mp hsem)
      · rename_i hsem
        exact .absent (Option.not_isSome_iff_eq_none.mp hsem)
  | semDeref =>
      simp only [workerJobStep, hpc] at h
      split at h
      · rename_i hsem
        cases h
        exact .go (hpc ▸ .null hsem)
      · rename_i k hsem
        cases h
        exact .go (hpc ▸ .deref hsem)
  | acquire k pc =>
      by_cases hout : pc = .out
      · subst hout
        simp only [workerJobStep, hpc] at h
        cases h
        exact .go (hpc ▸ .acquired k)
      · simp only [workerJobStep, hpc] at h
        obtain ⟨⟨s', pc'⟩, hsem, rfl⟩ := Option.map_eq_some_iff.mp h
        obtain ⟨sem, hstep, rfl⟩ := semCall_cases hsem
        exact .sem hpc hstep
  | quitTest =>
      simp only [workerJobStep, hpc] at h
      split at h
      · rename_i hquit
        cases h
        exact .go (hpc ▸ .breaks hquit)
      · rename_i hquit
        cases h
        exact .does (hpc ▸ .begins (Bool.not_eq_true _ ▸ hquit))
  | lockTask =>
      simp only [workerJobStep, hpc] at h
      obtain ⟨m, hm, rfl⟩ := Option.map_eq_some_iff.mp h
      obtain ⟨hfree, rfl⟩ := Mutex.lock_eq_some.mp hm
      exact .lock hpc hfree
  | copyTask =>
      simp only [workerJobStep, hpc] at h
      cases h
      exact .go (hpc ▸ .copies)
  | unlockTask localTask =>
      simp only [workerJobStep, hpc] at h
      cases h
      exact .unlock hpc
  | callTask localTask =>
      cases localTask with
      | none =>
          simp only [workerJobStep, hpc] at h
          cases h
          exact .go (hpc ▸ .noTask)
      | some f =>
          simp only [workerJobStep, hpc] at h
          cases h
          exact .does (hpc ▸ .calls f)
  | inTask f call =>
      cases call with
      | none =>
          simp only [workerJobStep, hpc] at h
          cases h
          exact .go (hpc ▸ .returns f)
      | some pc =>
          simp only [workerJobStep, hpc] at h
          obtain ⟨⟨s', call⟩, hset, rfl⟩ := Option.map_eq_some_iff.mp h
          exact .nested hpc (setStep_cases hset)
  | distribute =>
      simp only [workerJobStep, hpc] at h
      cases h
      exact .does (hpc ▸ .distributes)
  | ended | fault => simp [workerJobStep, hpc] at h

/-! ## `stop` and `start` -/

inductive StopGo (s : State F) : StopPc → StopPc → Prop
  | present (h : s.sem_ ≠ none) : StopGo s .semTest .semDeref
  | absent (h : s.sem_ = none) : StopGo s .semTest (.joinTest .timer)
  | deref {k : ℕ} (h : s.sem_ = some k) : StopGo s .semDeref (.sem k SemOp.stop.entry)
  | stopped (k : ℕ) : StopGo s (.sem k .out) (.joinTest .timer)
  | joinPresent (j : Job) (h : s.thread_ j ≠ none) : StopGo s (.joinTest j) (.joinable j)
  | joinAbsent (j : Job) (h : s.thread_ j = none) : StopGo s (.joinTest j) (afterJoin j)
  | joinable {j : Job} {i : ℕ} (h : s.thread_ j = some i) (hobj : s.object j i = {}) :
      StopGo s (.joinable j) (.join j)
  | unjoinable {j : Job} {i : ℕ} (h : s.thread_ j = some i)
      (hobj : s.object j i = { joined := true }) : StopGo s (.joinable j) (afterJoin j)
  | deleteAbsent (j : Job) (h : s.thread_ j = none) : StopGo s (.delete j) (afterDelete j)

/-- The dereferences of a null pointer and the misuses of a `std::thread`. -/
inductive StopFaults (s : State F) : StopPc → Prop
  | semDeref (h : s.sem_ = none) : StopFaults s .semDeref
  | joinableNull {j : Job} (h : s.thread_ j = none) : StopFaults s (.joinable j)
  | joinableDeleted {j : Job} {i : ℕ} (h : s.thread_ j = some i)
      (hobj : (s.object j i).deleted = true) : StopFaults s (.joinable j)
  | joinNull {j : Job} (h : s.thread_ j = none) : StopFaults s (.join j)
  | joinSpent {j : Job} {i : ℕ} (h : s.thread_ j = some i) (hobj : s.object j i ≠ {}) :
      StopFaults s (.join j)
  | deleteSpent {j : Job} {i : ℕ} (h : s.thread_ j = some i)
      (hobj : s.object j i ≠ { joined := true }) : StopFaults s (.delete j)

inductive StopStep (t : Thread) (s : State F) (again : Bool) :
    StopPc → State F → CallPc F → Prop
  | go {pc pc' : StopPc} (h : StopGo s pc pc') : StopStep t s again pc s (.stop again pc')
  | fault {pc : StopPc} (h : StopFaults s pc) : StopStep t s again pc s .fault
  | lock (hfree : s.workLock = none) :
      StopStep t s again .lock { s with workLock := some t } (.stop again .setQuit)
  | setQuit : StopStep t s again .setQuit { s with threadQuit := true } (.stop again .unlock)
  | unlock : StopStep t s again .unlock { s with workLock := none } (.stop again .notify)
  | notify {wake : Option Thread} {cv : CondVar Thread} (hcv : s.workCv.notifyOne wake = some cv) :
      StopStep t s again .notify { s with workCv := cv } (.stop again .semTest)
  | sem {k : ℕ} {pc pc' : SemPc} {sem : CountingSemaphore Thread}
      (h : SemStep t (s.sems k) pc sem pc') :
      StopStep t s again (.sem k pc) (s.setSem k sem) (.stop again (.sem k pc'))
  | join {j : Job} {i : ℕ} (h : s.thread_ j = some i) (hobj : s.object j i = {})
      (hended : s.ended j i = true) :
      StopStep t s again (.join j) (s.setObject j i { joined := true }) (.stop again (afterJoin j))
  | delete {j : Job} {i : ℕ} (h : s.thread_ j = some i)
      (hobj : s.object j i = { joined := true }) :
      StopStep t s again (.delete j) (s.setObject j i { joined := true, deleted := true })
        (.stop again (afterDelete j))
  | null (j : Job) : StopStep t s again (.null j) (s.setThread j none) (.stop again (afterNull j))
  | resetNull (h : s.sem_ = none) : StopStep t s again .resetSem s (afterStop again)
  | reset {k : ℕ} (h : s.sem_ = some k) :
      StopStep t s again .resetSem { s with sem_ := none } (.stop again (.deleteSem k))
  | deleteSem (k : ℕ) :
      StopStep t s again (.deleteSem k)
        { s with semDeleted := Function.update s.semDeleted k true } (afterStop again)

theorem stopStep_cases {t : Thread} {fails : Bool} {wake : Option Thread} {again : Bool}
    {pc : StopPc} {s s' : State F} {pc' : CallPc F}
    (h : stopStep t fails wake again pc s = some (s', pc')) : StopStep t s again pc s' pc' := by
  cases pc with
  | lock =>
      obtain ⟨m, hm, heq⟩ := Option.map_eq_some_iff.mp h
      cases heq
      obtain ⟨hfree, rfl⟩ := Mutex.lock_eq_some.mp hm
      exact .lock hfree
  | setQuit =>
      cases h
      exact .setQuit
  | unlock =>
      cases h
      exact .unlock
  | notify =>
      obtain ⟨cv, hcv, heq⟩ := Option.map_eq_some_iff.mp h
      cases heq
      exact .notify hcv
  | semTest =>
      cases h
      refine .go ?_
      split
      · rename_i hsem
        exact .present (Option.isSome_iff_ne_none.mp hsem)
      · rename_i hsem
        exact .absent (Option.not_isSome_iff_eq_none.mp hsem)
  | semDeref =>
      simp only [stopStep] at h
      split at h
      · rename_i hsem
        cases h
        exact .fault (.semDeref hsem)
      · rename_i k hsem
        cases h
        exact .go (.deref hsem)
  | sem k pc =>
      by_cases hout : pc = .out
      · subst hout
        cases h
        exact .go (.stopped k)
      · simp only [stopStep] at h
        obtain ⟨⟨s'', pc''⟩, hsem, heq⟩ := Option.map_eq_some_iff.mp h
        cases heq
        obtain ⟨sem, hstep, rfl⟩ := semCall_cases hsem
        exact .sem hstep
  | joinTest j =>
      cases h
      refine .go ?_
      split
      · rename_i hthread
        exact .joinPresent j (Option.isSome_iff_ne_none.mp hthread)
      · rename_i hthread
        exact .joinAbsent j (Option.not_isSome_iff_eq_none.mp hthread)
  | joinable j =>
      simp only [stopStep] at h
      split at h
      · rename_i hthread
        cases h
        exact .fault (.joinableNull hthread)
      · rename_i i hthread
        rcases hobj : s.object j i with ⟨joined, deleted⟩
        rw [hobj] at h
        cases deleted with
        | true =>
            cases h
            exact .fault (.joinableDeleted hthread (by rw [hobj]))
        | false =>
            cases joined with
            | true =>
                cases h
                exact .go (.unjoinable hthread hobj)
            | false =>
                cases h
                exact .go (.joinable hthread hobj)
  | join j =>
      simp only [stopStep] at h
      split at h
      · rename_i hthread
        cases h
        exact .fault (.joinNull hthread)
      · rename_i i hthread
        split at h
        · rename_i hspent
          cases h
          refine .fault (.joinSpent hthread ?_)
          intro hobj
          simp [hobj] at hspent
        · rename_i hfresh
          split at h
          · rename_i hended
            cases h
            have hobj : s.object j i = {} := by
              simp only [Bool.or_eq_true, not_or, Bool.not_eq_true] at hfresh
              rcases hold : s.object j i with ⟨joined, deleted⟩
              rw [hold] at hfresh
              obtain ⟨rfl, rfl⟩ := hfresh
              rfl
            rw [hobj]
            exact .join hthread hobj hended
          · cases h
  | delete j =>
      simp only [stopStep] at h
      split at h
      · rename_i hthread
        cases h
        exact .go (.deleteAbsent j hthread)
      · rename_i i hthread
        split at h
        · rename_i hspent
          cases h
          refine .fault (.deleteSpent hthread ?_)
          intro hobj
          simp [hobj] at hspent
        · rename_i hjoined
          cases h
          have hobj : s.object j i = { joined := true } := by
            simp only [Bool.or_eq_true, not_or, Bool.not_eq_true, Bool.not_eq_false'] at hjoined
            rcases hold : s.object j i with ⟨joined, deleted⟩
            rw [hold] at hjoined
            obtain ⟨rfl, rfl⟩ := hjoined
            rfl
          rw [hobj]
          exact .delete hthread hobj
  | null j =>
      cases h
      exact .null j
  | resetSem =>
      simp only [stopStep] at h
      split at h
      · rename_i hsem
        cases h
        exact .resetNull hsem
      · rename_i k hsem
        cases h
        exact .reset hsem
  | deleteSem k =>
      cases h
      exact .deleteSem k

inductive StartStep (maxLag : ℕ) (s : State F) : StartPc → State F → CallPc F → Prop
  | quit : StartStep maxLag s .quit { s with threadQuit := false } (.start .changed)
  | changed : StartStep maxLag s .changed { s with periodChanged_ := false } (.start .sem)
  | sem {pc : StartPc} (h : s.sem_ = none ∧ pc = .create .timer ∨
      ∃ k, s.sem_ = some k ∧ pc = .deleteSem k) :
      StartStep maxLag s .sem
        ({ s with sem_ := some s.semCnt, semCnt := s.semCnt + 1 }.setSem s.semCnt
          (CountingSemaphore.new (ptrdiff maxLag))) (.start pc)
  | deleteSem (k : ℕ) :
      StartStep maxLag s (.deleteSem k)
        { s with semDeleted := Function.update s.semDeleted k true } (.start (.create .timer))
  | create (j : Job) :
      StartStep maxLag s (.create j)
        (startThread ({ s with
          created := Function.update s.created j (s.created j + 1) }.setObject j (s.created j) {})
            (s.created j) j) (.start (.assign j (s.created j)))
  | assign (j : Job) (i : ℕ) :
      StartStep maxLag s (.assign j i) (s.setThread j (some i)) (afterAssign j)

theorem startStep_cases {maxLag : ℕ} {pc : StartPc} {s s' : State F} {pc' : CallPc F}
    (h : startStep maxLag pc s = some (s', pc')) : StartStep maxLag s pc s' pc' := by
  cases pc with
  | quit =>
      cases h
      exact .quit
  | changed =>
      cases h
      exact .changed
  | sem =>
      cases h
      refine .sem ?_
      cases s.sem_ with
      | none => exact .inl ⟨rfl, rfl⟩
      | some k => exact .inr ⟨k, rfl, rfl⟩
  | deleteSem k =>
      cases h
      exact .deleteSem k
  | create j =>
      cases h
      exact .create j
  | assign j i =>
      cases h
      exact .assign j i

inductive CallStep (maxLag : ℕ) (t : Thread) (s : State F) :
    CallPc F → State F → CallPc F → Prop
  | set {pc pc' : SetPc F} {s' : State F} (h : SetStep t s pc s' (some pc')) :
      CallStep maxLag t s (.set pc) s' (.set pc')
  | setReturns {pc : SetPc F} {s' : State F} (h : SetStep t s pc s' none) :
      CallStep maxLag t s (.set pc) s' .out
  | stop {again : Bool} {pc : StopPc} {s' : State F} {pc' : CallPc F}
      (h : StopStep t s again pc s' pc') : CallStep maxLag t s (.stop again pc) s' pc'
  | start {pc : StartPc} {s' : State F} {pc' : CallPc F} (h : StartStep maxLag s pc s' pc') :
      CallStep maxLag t s (.start pc) s' pc'

theorem callStep_cases {maxLag : ℕ} {t : Thread} {fails : Bool} {wake : Option Thread}
    {pc pc' : CallPc F} {s s' : State F}
    (h : callStep maxLag t fails wake pc s = some (s', pc')) : CallStep maxLag t s pc s' pc' := by
  cases pc with
  | out | fault => cases h
  | set pc =>
      obtain ⟨⟨s'', call⟩, hset, heq⟩ := Option.map_eq_some_iff.mp h
      cases heq
      cases call with
      | none => exact .setReturns (setStep_cases hset)
      | some pc' => exact .set (setStep_cases hset)
  | stop again pc => exact .stop (stopStep_cases h)
  | start pc => exact .start (startStep_cases h)

/-! ## The whole machine -/

inductive Step (maxLag : ℕ) (s : State F) : Action F → State F → Prop
  | timer {i : ℕ} {fails timedOut : Bool} {wake : Option Thread} {t : State F}
      (hi : i < s.created .timer) (h : TimerStep i s t) :
      Step maxLag s (.timer i fails wake timedOut) t
  | worker {i : ℕ} {fails : Bool} {wake : Option Thread} {t : State F}
      (hi : i < s.created .worker) (h : WorkerStep i s t) :
      Step maxLag s (.worker i fails wake) t
  | client {c : ℕ} {fails : Bool} {wake : Option Thread} {s' : State F} {pc : CallPc F}
      (h : CallStep maxLag (.client c) s (s.clientPc c) s' pc) :
      Step maxLag s (.client c fails wake) (s'.goClient c pc)
  | set {c : ℕ} {op : SetOp F} (hpc : s.clientPc c = .out) :
      Step maxLag s (.set c op) (s.goClient c (.set op.entry))
  | nest {i : ℕ} {op : SetOp F} {f : F} (hpc : s.workerPc i = .inTask f none)
      (hi : i < s.created .worker) :
      Step maxLag s (.nest i op) (s.goWorker i (.inTask f (some op.entry)))
  | starts {c : ℕ} (hpc : s.clientPc c = .out) :
      Step maxLag s (.start c) (s.goClient c (.stop true .lock))
  | stops {c : ℕ} (hpc : s.clientPc c = .out) :
      Step maxLag s (.stop c) (s.goClient c (.stop false .lock))
  | tick (time : ℕ) : Step maxLag s (.tick time) { s with clock := s.clock + time }
  | spurious (t : Thread) :
      Step maxLag s (.spurious t) { s with
        workCv := s.workCv.erase t
        sems := fun k => { s.sems k with cv_ := (s.sems k).cv_.erase t } }

theorem step_cases {maxLag : ℕ} {s t : State F} {a : Action F} (h : step maxLag s a = some t) :
    Step maxLag s a t := by
  cases a with
  | timer i fails wake timedOut =>
      simp only [step] at h
      split at h
      · rename_i hi
        exact .timer hi (timerJobStep_cases h)
      · cases h
  | worker i fails wake =>
      simp only [step] at h
      split at h
      · rename_i hi
        exact .worker hi (workerJobStep_cases h)
      · cases h
  | client c fails wake =>
      obtain ⟨⟨s', pc⟩, hcall, rfl⟩ := Option.map_eq_some_iff.mp h
      exact .client (callStep_cases hcall)
  | set c op =>
      simp only [step] at h
      split at h
      · rename_i hpc
        cases h
        exact .set hpc
      · cases h
  | nest i op =>
      simp only [step] at h
      split at h
      · rename_i f hpc
        split at h
        · rename_i hi
          cases h
          exact .nest hpc hi
        · cases h
      · cases h
  | start c =>
      simp only [step] at h
      split at h
      · rename_i hpc
        cases h
        exact .starts hpc
      · cases h
  | stop c =>
      simp only [step] at h
      split at h
      · rename_i hpc
        cases h
        exact .stops hpc
      · cases h
  | tick time =>
      cases h
      exact .tick time
  | spurious t =>
      cases h
      exact .spurious t

end PeriodicWork
