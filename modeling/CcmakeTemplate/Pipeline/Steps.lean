import CcmakeTemplate.Pipeline.Model

/-!
# What one step of a thread can do

The step functions of the model, inverted once: each relation below lists the
effects a step can have, with the tests it passed. Invariants are proved by
cases on these relations and never unfold a step function.

Steps that change nothing but the thread's own program point are collected in
`ProcessGo`, `CallbackGo` and `CallGo`.
-/

namespace Pipeline

open Concurrency

variable {I O F : Type}

/-! ## Process workers -/

inductive ProcessGo (process : I → O) (s : State I O F) (i : ℕ) :
    ProcessPc I O → ProcessPc I O → Prop
  | stop (hquit : (s.info .process i).quit = true) : ProcessGo process s i .loop .exit
  | again (hquit : (s.info .process i).quit = false) : ProcessGo process s i .loop .idle
  | ready (h : (s.info .process i).quit = true ∨ s.queue_process ≠ []) :
      ProcessGo process s i .check .busy
  | sleep (hquit : (s.info .process i).quit = false) (hq : s.queue_process = []) :
      ProcessGo process s i .check .block
  | quit (hquit : (s.info .process i).quit = true) : ProcessGo process s i .branch .leaveQuit
  | empty (hquit : (s.info .process i).quit = false) (hq : s.queue_process = []) :
      ProcessGo process s i .branch .leaveEmpty
  | call (job : I) (halive : s.phase = .alive) :
      ProcessGo process s i (.callProcess job) (.lockOutput (process job))
  | callback (hcb : s.outputCallback ≠ none) : ProcessGo process s i .testCallback .notify
  | noCallback (hcb : s.outputCallback = none) : ProcessGo process s i .testCallback .loop

/-- The statements that write `contract->status`. -/
inductive ProcessSets : ProcessPc I O → ThreadStatus → ProcessPc I O → Prop
  | start : ProcessSets .start .IDLE .loop
  | idle : ProcessSets .idle .IDLE .lockProcess
  | busy : ProcessSets .busy .BUSY .branch
  | exit : ProcessSets .exit .EXITED .ended

/-- The ends of the critical section on `mutex_process`. -/
inductive ProcessLeaves : ProcessPc I O → ProcessPc I O → Prop
  | quit : ProcessLeaves .leaveQuit .exit
  | empty : ProcessLeaves .leaveEmpty .loop
  | take (job : I) : ProcessLeaves (.leaveTake job) (.callProcess job)

inductive ProcessStep (process : I → O) (i : ℕ) (s : State I O F) : State I O F → Prop
  | go {pc : ProcessPc I O} (h : ProcessGo process s i (s.processPc i) pc) :
      ProcessStep process i s (s.goProcess i pc)
  | sets {status : ThreadStatus} {pc : ProcessPc I O}
      (h : ProcessSets (s.processPc i) status pc) :
      ProcessStep process i s ((s.setStatus .process i status).goProcess i pc)
  | lockProcess (hpc : s.processPc i = .lockProcess ∨
      s.processPc i = .wait ∧ .worker .process i ∉ s.cv_jobAdd)
      (hfree : s.mutex_process = none) :
      ProcessStep process i s
        ({ s with mutex_process := some (.worker .process i) }.goProcess i .check)
  | leave {pc : ProcessPc I O} (h : ProcessLeaves (s.processPc i) pc) :
      ProcessStep process i s ({ s with mutex_process := none }.goProcess i pc)
  | block (hpc : s.processPc i = .block) :
      ProcessStep process i s ({ s with
        mutex_process := none
        cv_jobAdd := s.cv_jobAdd.block (.worker .process i) }.goProcess i .wait)
  | take {job : I} {rest : List I} (hpc : s.processPc i = .branch)
      (hquit : (s.info .process i).quit = false) (hq : s.queue_process = job :: rest) :
      ProcessStep process i s ({ s with queue_process := rest }.goProcess i (.leaveTake job))
  | pureCall {job : I} (hpc : s.processPc i = .callProcess job) (hgone : s.phase ≠ .alive) :
      ProcessStep process i s
        ({ s with pureCalls := s.pureCalls ++ [job] }.goProcess i (.pureVirtualCall job))
  | lockOutput {product : O} (hpc : s.processPc i = .lockOutput product)
      (hfree : s.mutex_output = none) :
      ProcessStep process i s
        ({ s with mutex_output := some (.worker .process i) }.goProcess i (.push product))
  | push {product : O} (hpc : s.processPc i = .push product) :
      ProcessStep process i s
        ({ s with queue_output := s.queue_output ++ [product] }.goProcess i .unlockOutput)
  | unlockOutput (hpc : s.processPc i = .unlockOutput) :
      ProcessStep process i s ({ s with mutex_output := none }.goProcess i .testCallback)
  | notify {wake : Option Thread} {cv : CondVar Thread} (hpc : s.processPc i = .notify)
      (hcv : s.cv_processFinish.notifyOne wake = some cv) :
      ProcessStep process i s ({ s with cv_processFinish := cv }.goProcess i .loop)

theorem processStep_cases {process : I → O} {i : ℕ} {wake : Option Thread}
    {s t : State I O F} (h : processStep process i wake s = some t) :
    ProcessStep process i s t := by
  cases hpc : s.processPc i with
  | start =>
      simp only [processStep, hpc] at h
      cases h
      exact .sets (hpc ▸ .start)
  | loop =>
      simp only [processStep, hpc] at h
      cases h
      refine .go (hpc ▸ ?_)
      split
      · rename_i hquit
        exact .stop hquit
      · rename_i hquit
        exact .again (by simpa using hquit)
  | idle =>
      simp only [processStep, hpc] at h
      cases h
      exact .sets (hpc ▸ .idle)
  | lockProcess =>
      simp only [processStep, hpc] at h
      obtain ⟨m, hm, rfl⟩ := Option.map_eq_some_iff.mp h
      obtain ⟨hfree, rfl⟩ := Mutex.lock_eq_some.mp hm
      exact .lockProcess (.inl hpc) hfree
  | check =>
      simp only [processStep, hpc] at h
      cases h
      refine .go (hpc ▸ ?_)
      split
      · rename_i hready
        exact .ready (by simpa using hready)
      · rename_i hsleep
        simp only [Bool.or_eq_true, Bool.not_eq_true', not_or, Bool.not_eq_true,
          Bool.not_eq_false, List.isEmpty_iff] at hsleep
        exact .sleep hsleep.1 hsleep.2
  | block =>
      simp only [processStep, hpc] at h
      cases h
      exact .block hpc
  | wait =>
      simp only [processStep, hpc] at h
      split at h
      · cases h
      · rename_i hawake
        obtain ⟨m, hm, rfl⟩ := Option.map_eq_some_iff.mp h
        obtain ⟨hfree, rfl⟩ := Mutex.lock_eq_some.mp hm
        exact .lockProcess (.inr ⟨hpc, hawake⟩) hfree
  | busy =>
      simp only [processStep, hpc] at h
      cases h
      exact .sets (hpc ▸ .busy)
  | branch =>
      simp only [processStep, hpc] at h
      split at h
      · rename_i hquit
        cases h
        exact .go (hpc ▸ .quit hquit)
      · rename_i hquit
        have hquit : (s.info .process i).quit = false := by simpa using hquit
        split at h
        · rename_i hq
          cases h
          exact .go (hpc ▸ .empty hquit hq)
        · rename_i job rest hq
          cases h
          exact .take hpc hquit hq
  | leaveQuit =>
      simp only [processStep, hpc] at h
      cases h
      exact .leave (hpc ▸ .quit)
  | leaveEmpty =>
      simp only [processStep, hpc] at h
      cases h
      exact .leave (hpc ▸ .empty)
  | leaveTake job =>
      simp only [processStep, hpc] at h
      cases h
      exact .leave (hpc ▸ .take job)
  | callProcess job =>
      simp only [processStep, hpc] at h
      split at h
      · rename_i halive
        cases h
        exact .go (hpc ▸ .call job halive)
      · rename_i hgone
        cases h
        exact .pureCall hpc hgone
  | lockOutput product =>
      simp only [processStep, hpc] at h
      obtain ⟨m, hm, rfl⟩ := Option.map_eq_some_iff.mp h
      obtain ⟨hfree, rfl⟩ := Mutex.lock_eq_some.mp hm
      exact .lockOutput hpc hfree
  | push product =>
      simp only [processStep, hpc] at h
      cases h
      exact .push hpc
  | unlockOutput =>
      simp only [processStep, hpc] at h
      cases h
      exact .unlockOutput hpc
  | testCallback =>
      simp only [processStep, hpc] at h
      cases h
      refine .go (hpc ▸ ?_)
      split
      · rename_i hcb
        exact .callback (by simpa [Option.isSome_iff_ne_none] using hcb)
      · rename_i hcb
        exact .noCallback (by simpa using hcb)
  | notify =>
      simp only [processStep, hpc] at h
      obtain ⟨cv, hcv, rfl⟩ := Option.map_eq_some_iff.mp h
      exact .notify hpc hcv
  | exit =>
      simp only [processStep, hpc] at h
      cases h
      exact .sets (hpc ▸ .exit)
  | ended =>
      simp only [processStep, hpc] at h
      cases h
  | pureVirtualCall job =>
      simp only [processStep, hpc] at h
      cases h

/-! ## Public methods -/

/-- The tests of `hireFireWorker` and `~threadInfo` that only choose the next
statement. -/
inductive HireGo (s : State I O F) (crew : Crew) (count : ℕ) : HirePc → HirePc → Prop
  | enough (h : count ≤ (s.workerList crew).length) : HireGo s crew count .hire .early
  | notEarly (h : s.callbackWorkerList.length ≠ count) : HireGo s crew count .early .fire
  | tooMany {id : ℕ} {rest : List ℕ} (hlist : s.workerList crew = id :: rest)
      (h : count < (id :: rest).length) : HireGo s crew count .fire (.status id)
  | exited {id : ℕ} (h : (s.info crew id).status = .EXITED) :
      HireGo s crew count (.status id) (.join id)
  | notExited {id : ℕ} (h : (s.info crew id).status ≠ .EXITED) :
      HireGo s crew count (.status id) (.setQuit id)
  | joined {id : ℕ} (h : s.ended crew id = true) : HireGo s crew count (.join id) .popFront

/-- The two ways out of `hireFireWorker`. -/
inductive HireReturns (s : State I O F) (crew : Crew) (count : ℕ) : HirePc → Prop
  | early (h : s.callbackWorkerList.length = count) : HireReturns s crew count .early
  | done (h : (s.workerList crew).length ≤ count) : HireReturns s crew count .fire

/-- Steps of a public method that change nothing but its program point. -/
inductive CallGo (s : State I O F) : CallPc I F → CallPc I F → Prop
  | noProduct (hq : s.queue_output = []) : CallGo s .getProductTake .getProductUnlock
  | sizes : CallGo s .countSizes
      (.countScan s.processWorkerList s.queue_process.length s.queue_output.length 0)
  | scanned (p f n : ℕ) : CallGo s (.countScan [] p f n) (.countUnlock p f n)
  | scan (id : ℕ) (rest : List ℕ) (p f n : ℕ) :
      CallGo s (.countScan (id :: rest) p f n)
        (.countScan rest p f (if (s.info .process id).status = .BUSY then n + 1 else n))
  | hire {crew : Crew} {count : ℕ} {ret : Return} {pc pc' : HirePc}
      (h : HireGo s crew count pc pc') :
      CallGo s (.hireFire crew count pc ret) (.hireFire crew count pc' ret)

/-- The ends of the critical sections of the public methods. -/
inductive CallUnlocksProcess : CallPc I F → CallPc I F → Prop
  | addJob : CallUnlocksProcess .addJobUnlock .out
  | clear : CallUnlocksProcess .clearProcessUnlock (.hireFire .process 0 .hire .destructorOutput)

inductive CallUnlocksOutput : CallPc I F → CallPc I F → Prop
  | getProduct : CallUnlocksOutput .getProductUnlock .out
  | clear : CallUnlocksOutput .clearOutputUnlock (.hireFire .callback 0 .hire .destructorEnd)

inductive CallLocksProcess : CallPc I F → CallPc I F → Prop
  | addJob (meterial : I) : CallLocksProcess (.addJobLock meterial) (.addJobPush meterial)
  | clear : CallLocksProcess .clearProcessLock .clearProcessSwap

inductive CallLocksOutput : CallPc I F → CallPc I F → Prop
  | getProduct : CallLocksOutput .getProductLock .getProductTake
  | clear : CallLocksOutput .clearOutputLock .clearOutputSwap

inductive CallStep (t : Thread) (s : State I O F) :
    CallPc I F → State I O F → CallPc I F → Prop
  | go {pc pc' : CallPc I F} (h : CallGo s pc pc') : CallStep t s pc s pc'
  | lockProcess {pc pc' : CallPc I F} (h : CallLocksProcess pc pc')
      (hfree : s.mutex_process = none) :
      CallStep t s pc { s with mutex_process := some t } pc'
  | unlockProcess {pc pc' : CallPc I F} (h : CallUnlocksProcess pc pc') :
      CallStep t s pc { s with mutex_process := none } pc'
  | lockOutput {pc pc' : CallPc I F} (h : CallLocksOutput pc pc')
      (hfree : s.mutex_output = none) :
      CallStep t s pc { s with mutex_output := some t } pc'
  | unlockOutput {pc pc' : CallPc I F} (h : CallUnlocksOutput pc pc') :
      CallStep t s pc { s with mutex_output := none } pc'
  | lockBoth (hfree : s.mutex_process = none) (hfree' : s.mutex_output = none) :
      CallStep t s .countLock { s with mutex_process := some t, mutex_output := some t }
        .countSizes
  | unlockBoth (p f n : ℕ) :
      CallStep t s (.countUnlock p f n) { s with mutex_process := none, mutex_output := none }
        .out
  | add (job : I) :
      CallStep t s (.addJobPush job)
        { s with queue_process := s.queue_process ++ [job], added := s.added ++ [job] }
        .addJobNotify
  | notify {wake : Option Thread} {cv : CondVar Thread}
      (hcv : s.cv_jobAdd.notifyOne wake = some cv) :
      CallStep t s .addJobNotify { s with cv_jobAdd := cv } .addJobUnlock
  | fetch {product : O} {rest : List O} (hq : s.queue_output = product :: rest) :
      CallStep t s .getProductTake
        { s with queue_output := rest, fetched := s.fetched ++ [product] } .getProductUnlock
  | lockCallback (method : Option F) (hw : s.mutex_outputCallback.writer = none)
      (hr : s.mutex_outputCallback.readers = []) :
      CallStep t s (.setCallbackLock method)
        { s with mutex_outputCallback := { s.mutex_outputCallback with writer := some t } }
        (.setCallbackAssign method)
  | assign (method : Option F) :
      CallStep t s (.setCallbackAssign method) { s with outputCallback := method }
        .setCallbackUnlock
  | unlockCallback :
      CallStep t s .setCallbackUnlock
        { s with mutex_outputCallback := s.mutex_outputCallback.unlock } .out
  | create {crew : Crew} {count : ℕ} {ret : Return} (h : (s.workerList crew).length < count) :
      CallStep t s (.hireFire crew count .hire ret)
        (startWorker ({ s with
          hired := Function.update s.hired crew (s.hired crew + 1) }.setInfo crew
            (s.hired crew) {}) (s.hired crew) crew)
        (.hireFire crew count (.pushBack (s.hired crew)) ret)
  | pushBack {crew : Crew} {count id : ℕ} {ret : Return} :
      CallStep t s (.hireFire crew count (.pushBack id) ret)
        { s with workerList := Function.update s.workerList crew (s.workerList crew ++ [id]) }
        (.hireFire crew count .hire ret)
  | setQuit {crew : Crew} {count id : ℕ} {ret : Return} :
      CallStep t s (.hireFire crew count (.setQuit id) ret)
        (s.setInfo crew id { s.info crew id with quit := true })
        (.hireFire crew count (.notifyAll id) ret)
  | notifyAll {crew : Crew} {count id : ℕ} {ret : Return} :
      CallStep t s (.hireFire crew count (.notifyAll id) ret) (notifyAll s crew)
        (.hireFire crew count (.status id) ret)
  | popFront {crew : Crew} {count : ℕ} {ret : Return} :
      CallStep t s (.hireFire crew count .popFront ret)
        { s with workerList := Function.update s.workerList crew (s.workerList crew).tail }
        (.hireFire crew count .fire ret)
  | returns {crew : Crew} {count : ℕ} {ret : Return} {pc : HirePc}
      (h : HireReturns s crew count pc) :
      CallStep t s (.hireFire crew count pc ret) (resume s ret).1 (resume s ret).2
  | clearProcess :
      CallStep t s .clearProcessSwap { s with queue_process := [] } .clearProcessUnlock
  | clearOutput :
      CallStep t s .clearOutputSwap { s with queue_output := [] } .clearOutputUnlock

theorem CallStep.of_resume {t : Thread} {s s' : State I O F} {crew : Crew} {count : ℕ}
    {ret : Return} {pc : HirePc} {pc' : CallPc I F} (h : HireReturns s crew count pc)
    (heq : some (resume s ret) = some (s', pc')) :
    CallStep t s (.hireFire crew count pc ret) s' pc' := by
  have hstep : CallStep t s (.hireFire crew count pc ret) _ _ := .returns h
  rw [Option.some.inj heq] at hstep
  exact hstep

theorem hireStep_cases {t : Thread} {crew : Crew} {count : ℕ} {ret : Return} {pc : HirePc}
    {s s' : State I O F} {pc' : CallPc I F}
    (h : hireStep crew count ret pc s = some (s', pc')) :
    CallStep t s (.hireFire crew count pc ret) s' pc' := by
  cases pc with
  | hire =>
      simp only [hireStep] at h
      split at h
      · rename_i hlt
        cases h
        exact .create hlt
      · rename_i hge
        cases h
        exact .go (.hire (.enough (by omega)))
  | pushBack id =>
      cases h
      exact .pushBack
  | early =>
      simp only [hireStep] at h
      split at h
      · rename_i heq
        exact .of_resume (.early heq) h
      · rename_i hne
        cases h
        exact .go (.hire (.notEarly hne))
  | fire =>
      simp only [hireStep] at h
      split at h
      · rename_i hnil
        exact .of_resume (.done (by simp [hnil])) h
      · rename_i id rest hcons
        split at h
        · rename_i hlt
          cases h
          exact .go (.hire (.tooMany hcons hlt))
        · rename_i hge
          exact .of_resume (.done (by rw [hcons]; omega)) h
  | status id =>
      simp only [hireStep] at h
      split at h
      · rename_i hex
        cases h
        exact .go (.hire (.exited hex))
      · rename_i hex
        cases h
        exact .go (.hire (.notExited hex))
  | setQuit id =>
      cases h
      exact .setQuit
  | notifyAll id =>
      cases h
      exact .notifyAll
  | join id =>
      simp only [hireStep] at h
      split at h
      · rename_i hended
        cases h
        exact .go (.hire (.joined hended))
      · cases h
  | popFront =>
      cases h
      exact .popFront

theorem callStep_cases {t : Thread} {wake : Option Thread} {pc pc' : CallPc I F}
    {s s' : State I O F} (h : callStep t wake pc s = some (s', pc')) :
    CallStep t s pc s' pc' := by
  cases pc with
  | out => cases h
  | addJobLock job =>
      simp only [callStep] at h
      obtain ⟨m, hm, heq⟩ := Option.map_eq_some_iff.mp h
      cases heq
      obtain ⟨hfree, rfl⟩ := Mutex.lock_eq_some.mp hm
      exact .lockProcess (.addJob job) hfree
  | addJobPush job =>
      cases h
      exact .add job
  | addJobNotify =>
      simp only [callStep] at h
      obtain ⟨cv, hcv, heq⟩ := Option.map_eq_some_iff.mp h
      cases heq
      exact .notify hcv
  | addJobUnlock =>
      cases h
      exact .unlockProcess .addJob
  | getProductLock =>
      simp only [callStep] at h
      obtain ⟨m, hm, heq⟩ := Option.map_eq_some_iff.mp h
      cases heq
      obtain ⟨hfree, rfl⟩ := Mutex.lock_eq_some.mp hm
      exact .lockOutput .getProduct hfree
  | getProductTake =>
      simp only [callStep] at h
      split at h
      · rename_i hq
        cases h
        exact .go (.noProduct hq)
      · rename_i product rest hq
        cases h
        exact .fetch hq
  | getProductUnlock =>
      cases h
      exact .unlockOutput .getProduct
  | countLock =>
      simp only [callStep] at h
      obtain ⟨m, hm, h⟩ := Option.bind_eq_some_iff.mp h
      obtain ⟨m', hm', heq⟩ := Option.map_eq_some_iff.mp h
      cases heq
      obtain ⟨hfree, rfl⟩ := Mutex.lock_eq_some.mp hm
      obtain ⟨hfree', rfl⟩ := Mutex.lock_eq_some.mp hm'
      exact .lockBoth hfree hfree'
  | countSizes =>
      cases h
      exact .go .sizes
  | countScan rest p f n =>
      cases rest with
      | nil =>
          cases h
          exact .go (.scanned p f n)
      | cons id rest =>
          cases h
          exact .go (.scan id rest p f n)
  | countUnlock p f n =>
      cases h
      exact .unlockBoth p f n
  | setCallbackLock method =>
      simp only [callStep] at h
      obtain ⟨m, hm, heq⟩ := Option.map_eq_some_iff.mp h
      cases heq
      obtain ⟨hw, hr, rfl⟩ := SharedMutex.lock_cases hm
      exact .lockCallback method hw hr
  | setCallbackAssign method =>
      cases h
      exact .assign method
  | setCallbackUnlock =>
      cases h
      exact .unlockCallback
  | hireFire crew count pc ret => exact hireStep_cases h
  | clearProcessLock =>
      simp only [callStep] at h
      obtain ⟨m, hm, heq⟩ := Option.map_eq_some_iff.mp h
      cases heq
      obtain ⟨hfree, rfl⟩ := Mutex.lock_eq_some.mp hm
      exact .lockProcess .clear hfree
  | clearProcessSwap =>
      cases h
      exact .clearProcess
  | clearProcessUnlock =>
      cases h
      exact .unlockProcess .clear
  | clearOutputLock =>
      simp only [callStep] at h
      obtain ⟨m, hm, heq⟩ := Option.map_eq_some_iff.mp h
      cases heq
      obtain ⟨hfree, rfl⟩ := Mutex.lock_eq_some.mp hm
      exact .lockOutput .clear hfree
  | clearOutputSwap =>
      cases h
      exact .clearOutput
  | clearOutputUnlock =>
      cases h
      exact .unlockOutput .clear

/-! ## Callback workers -/

inductive CallbackGo (s : State I O F) (i : ℕ) : CallbackPc I O F → CallbackPc I O F → Prop
  | stop (hquit : (s.info .callback i).quit = true) : CallbackGo s i .loop .exit
  | again (hquit : (s.info .callback i).quit = false) : CallbackGo s i .loop .idle
  | refused (hw : s.mutex_outputCallback.writer ≠ none) : CallbackGo s i .tryShared .block
  | tested (ready : Bool)
      (h : ready = ((s.info .callback i).quit ||
        (!s.queue_output.isEmpty && s.outputCallback.isSome))) :
      CallbackGo s i .check (.unlockCheck ready)
  | quit (hquit : (s.info .callback i).quit = true) : CallbackGo s i .branch .leaveQuit
  | empty (hquit : (s.info .callback i).quit = false) (hq : s.queue_output = []) :
      CallbackGo s i .branch .leaveEmpty
  | noCallback (product : O) (hcb : s.outputCallback = none) :
      CallbackGo s i (.test product) (.unlockShared (some product))
  | returned (f : F) (product : O) :
      CallbackGo s i (.inCallback f product .out) (.unlockShared none)

inductive CallbackSets : CallbackPc I O F → ThreadStatus → CallbackPc I O F → Prop
  | start : CallbackSets .start .IDLE .loop
  | idle : CallbackSets .idle .IDLE .lockOutput
  | busy : CallbackSets .busy .BUSY .branch
  | exit : CallbackSets .exit .EXITED .ended

inductive CallbackLocks (s : State I O F) (i : ℕ) :
    CallbackPc I O F → CallbackPc I O F → Prop
  | first : CallbackLocks s i .lockOutput .tryShared
  | woken (h : .worker .callback i ∉ s.cv_processFinish) : CallbackLocks s i .wait .tryShared
  | requeue (product : O) : CallbackLocks s i (.lockRequeue product) (.requeue product)

inductive CallbackLeaves : CallbackPc I O F → CallbackPc I O F → Prop
  | quit : CallbackLeaves .leaveQuit .exit
  | empty : CallbackLeaves .leaveEmpty .loop
  | take (product : O) : CallbackLeaves (.leaveTake product) (.lockShared product)
  | requeue : CallbackLeaves .unlockRequeue .loop

inductive CallbackLocksShared : CallbackPc I O F → CallbackPc I O F → Prop
  | check : CallbackLocksShared .tryShared .check
  | test (product : O) : CallbackLocksShared (.lockShared product) (.test product)

inductive CallbackUnlocksShared : CallbackPc I O F → CallbackPc I O F → Prop
  | ready : CallbackUnlocksShared (.unlockCheck true) .busy
  | sleep : CallbackUnlocksShared (.unlockCheck false) .block
  | done : CallbackUnlocksShared (.unlockShared none) .loop
  | fail (product : O) : CallbackUnlocksShared (.unlockShared (some product)) (.lockRequeue product)

inductive CallbackStep (i : ℕ) (s : State I O F) : State I O F → Prop
  | go {pc : CallbackPc I O F} (h : CallbackGo s i (s.callbackPc i) pc) :
      CallbackStep i s (s.goCallback i pc)
  | sets {status : ThreadStatus} {pc : CallbackPc I O F}
      (h : CallbackSets (s.callbackPc i) status pc) :
      CallbackStep i s ((s.setStatus .callback i status).goCallback i pc)
  | lock {pc : CallbackPc I O F} (h : CallbackLocks s i (s.callbackPc i) pc)
      (hfree : s.mutex_output = none) :
      CallbackStep i s ({ s with mutex_output := some (.worker .callback i) }.goCallback i pc)
  | leave {pc : CallbackPc I O F} (h : CallbackLeaves (s.callbackPc i) pc) :
      CallbackStep i s ({ s with mutex_output := none }.goCallback i pc)
  | lockShared {pc : CallbackPc I O F} (h : CallbackLocksShared (s.callbackPc i) pc)
      (hw : s.mutex_outputCallback.writer = none) :
      CallbackStep i s ({ s with mutex_outputCallback :=
        { s.mutex_outputCallback with
          readers := .worker .callback i :: s.mutex_outputCallback.readers } }.goCallback i pc)
  | unlockShared {pc : CallbackPc I O F} (h : CallbackUnlocksShared (s.callbackPc i) pc) :
      CallbackStep i s ({ s with mutex_outputCallback :=
        s.mutex_outputCallback.unlockShared (.worker .callback i) }.goCallback i pc)
  | block (hpc : s.callbackPc i = .block) :
      CallbackStep i s ({ s with
        mutex_output := none
        cv_processFinish := s.cv_processFinish.block (.worker .callback i) }.goCallback i .wait)
  | pick {product : O} {rest : List O} (hpc : s.callbackPc i = .branch)
      (hquit : (s.info .callback i).quit = false) (hq : s.queue_output = product :: rest) :
      CallbackStep i s ({ s with queue_output := rest }.goCallback i (.leaveTake product))
  | invoke {product : O} {f : F} (hpc : s.callbackPc i = .test product)
      (hcb : s.outputCallback = some f) :
      CallbackStep i s ({ s with invoked := s.invoked ++ [(f, product)] }.goCallback i
        (.inCallback f product .out))
  | nested {f : F} {product : O} {call call' : CallPc I F} {s' : State I O F}
      (hpc : s.callbackPc i = .inCallback f product call)
      (h : CallStep (.worker .callback i) s call s' call') :
      CallbackStep i s (s'.goCallback i (.inCallback f product call'))
  | requeue {product : O} (hpc : s.callbackPc i = .requeue product) :
      CallbackStep i s
        ({ s with queue_output := s.queue_output ++ [product] }.goCallback i .unlockRequeue)

theorem callbackStep_cases {i : ℕ} {wake : Option Thread} {s t : State I O F}
    (h : callbackStep i wake s = some t) : CallbackStep i s t := by
  cases hpc : s.callbackPc i with
  | start =>
      simp only [callbackStep, hpc] at h
      cases h
      exact .sets (hpc ▸ .start)
  | loop =>
      simp only [callbackStep, hpc] at h
      cases h
      refine .go (hpc ▸ ?_)
      split
      · rename_i hquit
        exact .stop hquit
      · rename_i hquit
        exact .again (by simpa using hquit)
  | idle =>
      simp only [callbackStep, hpc] at h
      cases h
      exact .sets (hpc ▸ .idle)
  | lockOutput =>
      simp only [callbackStep, hpc] at h
      obtain ⟨m, hm, rfl⟩ := Option.map_eq_some_iff.mp h
      obtain ⟨hfree, rfl⟩ := Mutex.lock_eq_some.mp hm
      exact .lock (hpc ▸ .first) hfree
  | tryShared =>
      simp only [callbackStep, hpc] at h
      split at h
      · rename_i hm
        cases h
        exact .go (hpc ▸ .refused (SharedMutex.lockShared_eq_none.mp hm))
      · rename_i m hm
        cases h
        obtain ⟨hw, rfl⟩ := SharedMutex.lockShared_cases hm
        exact .lockShared (hpc ▸ .check) hw
  | check =>
      simp only [callbackStep, hpc] at h
      cases h
      exact .go (hpc ▸ .tested _ rfl)
  | unlockCheck ready =>
      simp only [callbackStep, hpc] at h
      cases h
      cases ready with
      | true => exact .unlockShared (hpc ▸ .ready)
      | false => exact .unlockShared (hpc ▸ .sleep)
  | block =>
      simp only [callbackStep, hpc] at h
      cases h
      exact .block hpc
  | wait =>
      simp only [callbackStep, hpc] at h
      split at h
      · cases h
      · rename_i hawake
        obtain ⟨m, hm, rfl⟩ := Option.map_eq_some_iff.mp h
        obtain ⟨hfree, rfl⟩ := Mutex.lock_eq_some.mp hm
        exact .lock (hpc ▸ .woken hawake) hfree
  | busy =>
      simp only [callbackStep, hpc] at h
      cases h
      exact .sets (hpc ▸ .busy)
  | branch =>
      simp only [callbackStep, hpc] at h
      split at h
      · rename_i hquit
        cases h
        exact .go (hpc ▸ .quit hquit)
      · rename_i hquit
        have hquit : (s.info .callback i).quit = false := by simpa using hquit
        split at h
        · rename_i hq
          cases h
          exact .go (hpc ▸ .empty hquit hq)
        · rename_i product rest hq
          cases h
          exact .pick hpc hquit hq
  | leaveQuit =>
      simp only [callbackStep, hpc] at h
      cases h
      exact .leave (hpc ▸ .quit)
  | leaveEmpty =>
      simp only [callbackStep, hpc] at h
      cases h
      exact .leave (hpc ▸ .empty)
  | leaveTake product =>
      simp only [callbackStep, hpc] at h
      cases h
      exact .leave (hpc ▸ .take product)
  | lockShared product =>
      simp only [callbackStep, hpc] at h
      obtain ⟨m, hm, rfl⟩ := Option.map_eq_some_iff.mp h
      obtain ⟨hw, rfl⟩ := SharedMutex.lockShared_cases hm
      exact .lockShared (hpc ▸ .test product) hw
  | test product =>
      simp only [callbackStep, hpc] at h
      split at h
      · rename_i hcb
        cases h
        exact .go (hpc ▸ .noCallback product hcb)
      · rename_i f hcb
        cases h
        exact .invoke hpc hcb
  | inCallback f product call =>
      cases call with
      | out =>
          simp only [callbackStep, hpc] at h
          cases h
          exact .go (hpc ▸ .returned f product)
      | _ =>
          simp only [callbackStep, hpc] at h
          obtain ⟨⟨s', call'⟩, hcall, rfl⟩ := Option.map_eq_some_iff.mp h
          exact .nested hpc (callStep_cases hcall)
  | unlockShared back =>
      simp only [callbackStep, hpc] at h
      cases h
      cases back with
      | none => exact .unlockShared (hpc ▸ .done)
      | some product => exact .unlockShared (hpc ▸ .fail product)
  | lockRequeue product =>
      simp only [callbackStep, hpc] at h
      obtain ⟨m, hm, rfl⟩ := Option.map_eq_some_iff.mp h
      obtain ⟨hfree, rfl⟩ := Mutex.lock_eq_some.mp hm
      exact .lock (hpc ▸ .requeue product) hfree
  | requeue product =>
      simp only [callbackStep, hpc] at h
      cases h
      exact .requeue hpc
  | unlockRequeue =>
      simp only [callbackStep, hpc] at h
      cases h
      exact .leave (hpc ▸ .requeue)
  | exit =>
      simp only [callbackStep, hpc] at h
      cases h
      exact .sets (hpc ▸ .exit)
  | ended =>
      simp only [callbackStep, hpc] at h
      cases h

/-! ## The machine -/

inductive Step (process : I → O) (s : State I O F) : Action I F → State I O F → Prop
  | process {i : ℕ} {wake : Option Thread} {t : State I O F} (hi : i < s.hired .process)
      (h : ProcessStep process i s t) : Step process s (.process i wake) t
  | callback {i : ℕ} {wake : Option Thread} {t : State I O F} (hi : i < s.hired .callback)
      (h : CallbackStep i s t) : Step process s (.callback i wake) t
  | client {c : ℕ} {wake : Option Thread} {t : State I O F} {pc : CallPc I F}
      (h : CallStep (.client c) s (s.clientPc c) t pc) :
      Step process s (.client c wake) (t.goClient c pc)
  | call {c : ℕ} {op : Op I F} (halive : s.phase = .alive) (hpc : s.clientPc c = .out) :
      Step process s (.call c op) (s.goClient c op.entry)
  | nest {i : ℕ} {op : Op I F} {f : F} {product : O}
      (hpc : s.callbackPc i = .inCallback f product .out) (hi : i < s.hired .callback)
      (hop : op.nestable = true) :
      Step process s (.nest i op) (s.goCallback i (.inCallback f product op.entry))
  | destroy {c : ℕ} (halive : s.phase = .alive) (hpc : s.clientPc c = .out) :
      Step process s (.destroy c) ({ s with phase := .destroying }.goClient c .clearProcessLock)
  | spurious {t : Thread} :
      Step process s (.spurious t) { s with
        cv_jobAdd := s.cv_jobAdd.erase t
        cv_processFinish := s.cv_processFinish.erase t }

theorem step_cases {process : I → O} {s t : State I O F} {a : Action I F}
    (h : step process s a = some t) : Step process s a t := by
  cases a with
  | process i wake =>
      simp only [step] at h
      split at h
      · rename_i hi
        exact .process hi (processStep_cases h)
      · cases h
  | callback i wake =>
      simp only [step] at h
      split at h
      · rename_i hi
        exact .callback hi (callbackStep_cases h)
      · cases h
  | client c wake =>
      obtain ⟨⟨s', pc⟩, hcall, rfl⟩ := Option.map_eq_some_iff.mp h
      exact .client (callStep_cases hcall)
  | call c op =>
      simp only [step] at h
      split at h
      · rename_i halive hpc
        cases h
        exact .call halive hpc
      · cases h
  | nest i op =>
      simp only [step] at h
      split at h
      · rename_i f product hpc
        split at h
        · rename_i hok
          cases h
          exact .nest hpc hok.1 hok.2
        · cases h
      · cases h
  | destroy c =>
      simp only [step] at h
      split at h
      · rename_i halive hpc
        cases h
        exact .destroy halive hpc
      · cases h
  | spurious t =>
      cases h
      exact .spurious

end Pipeline
