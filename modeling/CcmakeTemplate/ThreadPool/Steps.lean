import CcmakeTemplate.ThreadPool.Model

/-!
# What one step of a `thread_pool` can do

The step functions of the model, inverted once. `CallGo`, `WorkerGo` and `ClientGo`
change nothing but the program point; taking and releasing `queue_mutex_` is one case
each.
-/

namespace ThreadPool

open Concurrency

variable {T : Type}

/-! ## `enqueue`, `enqueue_future` and `pending_tasks` -/

inductive CallGo (s : State T) : CallPc T → CallPc T → Prop
  | stopped (how : Submit) (task : T) (h : s.stop_ = true) :
      CallGo s (.test how task) (.refuse how task)
  | open (how : Submit) (task : T) (h : s.stop_ = false) :
      CallGo s (.test how task) (.emplace task)
  | size : CallGo s .pendingSize (.pendingUnlock s.tasks_.length)

inductive CallLocks : CallPc T → CallPc T → Prop
  | submit (how : Submit) (task : T) : CallLocks (.lock how task) (.test how task)
  | pending : CallLocks .pendingLock .pendingSize

inductive CallUnlocks : CallPc T → Option (CallPc T) → Prop
  | submit : CallUnlocks .unlock (some .notify)
  | pending (size : ℕ) : CallUnlocks (.pendingUnlock size) none

inductive CallStep (t : Thread) (s : State T) :
    CallPc T → State T → Option (CallPc T) → Prop
  | go {pc pc' : CallPc T} (h : CallGo s pc pc') : CallStep t s pc s (some pc')
  | lock {pc pc' : CallPc T} (h : CallLocks pc pc') (hfree : s.queue_mutex_ = none) :
      CallStep t s pc { s with queue_mutex_ := some t } (some pc')
  | unlock {pc : CallPc T} {call : Option (CallPc T)} (h : CallUnlocks pc call) :
      CallStep t s pc { s with queue_mutex_ := none } call
  | refuse (how : Submit) (task : T) :
      CallStep t s (.refuse how task) { s with
        queue_mutex_ := none
        refused := s.refused ++ [(task, how.refusal)] } none
  | emplace (task : T) :
      CallStep t s (.emplace task)
        { s with tasks_ := s.tasks_ ++ [task], accepted := s.accepted ++ [task] } (some .unlock)
  | notify {wake : Option Thread} {cv : CondVar Thread}
      (h : s.condition_.notifyOne wake = some cv) :
      CallStep t s .notify { s with condition_ := cv } none

theorem callStep_lock {t : Thread} {pc pc' : CallPc T} {s s' : State T} {call : Option (CallPc T)}
    (hpc : CallLocks pc pc')
    (h : ((s.queue_mutex_.lock t).map fun m => ({ s with queue_mutex_ := m }, some pc')) =
      some (s', call)) : CallStep t s pc s' call := by
  obtain ⟨m, hm, heq⟩ := Option.map_eq_some_iff.mp h
  cases heq
  obtain ⟨hfree, rfl⟩ := Mutex.lock_eq_some.mp hm
  exact .lock hpc hfree

theorem callStep_cases {t : Thread} {wake : Option Thread} {pc : CallPc T} {s s' : State T}
    {call : Option (CallPc T)} (h : callStep t wake pc s = some (s', call)) :
    CallStep t s pc s' call := by
  cases pc with
  | lock how task => exact callStep_lock (.submit how task) h
  | test how task =>
      cases h
      refine .go ?_
      split
      · rename_i hstop
        exact .stopped how task hstop
      · rename_i hstop
        exact .open how task (Bool.not_eq_true _ ▸ hstop)
  | refuse how task =>
      cases h
      exact .refuse how task
  | emplace task =>
      cases h
      exact .emplace task
  | unlock =>
      cases h
      exact .unlock .submit
  | notify =>
      obtain ⟨cv, hcv, heq⟩ := Option.map_eq_some_iff.mp h
      cases heq
      exact .notify hcv
  | pendingLock => exact callStep_lock .pending h
  | pendingSize =>
      cases h
      exact .go .size
  | pendingUnlock size =>
      cases h
      exact .unlock (.pending size)

/-! ## The workers -/

inductive WorkerGo (s : State T) : WorkerPc T → WorkerPc T → Prop
  | ready (h : s.stop_ = true ∨ s.tasks_ ≠ []) : WorkerGo s .check .exitTest
  | sleep (hstop : s.stop_ = false) (hempty : s.tasks_ = []) : WorkerGo s .check .block
  | exits (hstop : s.stop_ = true) (hempty : s.tasks_ = []) : WorkerGo s .exitTest .leaveExit
  | takes (h : s.stop_ = false ∨ s.tasks_ ≠ []) : WorkerGo s .exitTest .take

inductive WorkerUnlocks : WorkerPc T → WorkerPc T → Prop
  | exit : WorkerUnlocks .leaveExit .ended
  | take (task : T) (n : ℕ) : WorkerUnlocks (.leaveTake task n) (.run task n)

inductive WorkerStep (i : ℕ) (s : State T) : State T → Prop
  | go {pc : WorkerPc T} (h : WorkerGo s (s.workerPc i) pc) : WorkerStep i s (s.goWorker i pc)
  | lock (hpc : s.workerPc i = .lock ∨ s.workerPc i = .waiting ∧ .worker i ∉ s.condition_)
      (hfree : s.queue_mutex_ = none) :
      WorkerStep i s ({ s with queue_mutex_ := some (.worker i) }.goWorker i .check)
  | unlock {pc : WorkerPc T} (h : WorkerUnlocks (s.workerPc i) pc) :
      WorkerStep i s ({ s with queue_mutex_ := none }.goWorker i pc)
  | block (hpc : s.workerPc i = .block) :
      WorkerStep i s ({ s with
        queue_mutex_ := none
        condition_ := s.condition_.block (.worker i) }.goWorker i .waiting)
  | take {task : T} {rest : List T} (hpc : s.workerPc i = .take) (h : s.tasks_ = task :: rest) :
      WorkerStep i s ({ s with tasks_ := rest, taken := s.taken ++ [task] }.goWorker i
        (.leaveTake task s.taken.length))
  | begins {task : T} {n : ℕ} (hpc : s.workerPc i = .run task n) :
      WorkerStep i s ({ s with begun := s.begun ++ [(task, n)] }.goWorker i
        (.running task n none))
  | ends {task : T} {n : ℕ} (hpc : s.workerPc i = .running task n none) :
      WorkerStep i s ({ s with finished := s.finished ++ [(task, n)] }.goWorker i .lock)
  | nested {task : T} {n : ℕ} {pc : CallPc T} {s' : State T} {call : Option (CallPc T)}
      (hpc : s.workerPc i = .running task n (some pc)) (h : CallStep (.worker i) s pc s' call) :
      WorkerStep i s (s'.goWorker i (.running task n call))

theorem workerStep_cases {i : ℕ} {wake : Option Thread} {s t : State T}
    (h : workerStep i wake s = some t) : WorkerStep i s t := by
  cases hpc : s.workerPc i with
  | lock =>
      simp only [workerStep, hpc] at h
      obtain ⟨m, hm, rfl⟩ := Option.map_eq_some_iff.mp h
      obtain ⟨hfree, rfl⟩ := Mutex.lock_eq_some.mp hm
      exact .lock (.inl hpc) hfree
  | check =>
      simp only [workerStep, hpc] at h
      cases h
      refine .go (hpc ▸ ?_)
      split
      · rename_i hready
        exact .ready (by simpa using hready)
      · rename_i hsleep
        simp only [Bool.or_eq_true, Bool.not_eq_true', not_or, Bool.not_eq_true,
          Bool.not_eq_false, List.isEmpty_iff] at hsleep
        exact .sleep hsleep.1 hsleep.2
  | block =>
      simp only [workerStep, hpc] at h
      cases h
      exact .block hpc
  | waiting =>
      simp only [workerStep, hpc] at h
      split at h
      · cases h
      · rename_i hawake
        obtain ⟨m, hm, rfl⟩ := Option.map_eq_some_iff.mp h
        obtain ⟨hfree, rfl⟩ := Mutex.lock_eq_some.mp hm
        exact .lock (.inr ⟨hpc, hawake⟩) hfree
  | exitTest =>
      simp only [workerStep, hpc] at h
      cases h
      refine .go (hpc ▸ ?_)
      split
      · rename_i hexit
        rw [Bool.and_eq_true, List.isEmpty_iff] at hexit
        exact .exits hexit.1 hexit.2
      · rename_i hstay
        rw [Bool.and_eq_true, List.isEmpty_iff, not_and_or, Bool.not_eq_true] at hstay
        exact .takes hstay
  | leaveExit =>
      simp only [workerStep, hpc] at h
      cases h
      exact .unlock (hpc ▸ .exit)
  | take =>
      simp only [workerStep, hpc] at h
      split at h
      · cases h
      · rename_i task rest htasks
        cases h
        exact .take hpc htasks
  | leaveTake task n =>
      simp only [workerStep, hpc] at h
      cases h
      exact .unlock (hpc ▸ .take task n)
  | run task n =>
      simp only [workerStep, hpc] at h
      cases h
      exact .begins hpc
  | running task n call =>
      cases call with
      | none =>
          simp only [workerStep, hpc] at h
          cases h
          exact .ends hpc
      | some pc =>
          simp only [workerStep, hpc] at h
          obtain ⟨⟨s', call⟩, hcall, rfl⟩ := Option.map_eq_some_iff.mp h
          exact .nested hpc (callStep_cases hcall)
  | ended => simp [workerStep, hpc] at h

/-! ## The clients -/

inductive ClientStep (threads c : ℕ) (s : State T) : State T → Prop
  | call {pc pc' : CallPc T} {s' : State T} (hpc : s.clientPc c = .call pc)
      (h : CallStep (.client c) s pc s' (some pc')) :
      ClientStep threads c s (s'.goClient c (.call pc'))
  | returns {pc : CallPc T} {s' : State T} (hpc : s.clientPc c = .call pc)
      (h : CallStep (.client c) s pc s' none) : ClientStep threads c s (s'.goClient c .out)
  | spawn (hpc : s.clientPc c = .construct) (h : s.workers_ < max threads 1) :
      ClientStep threads c s ({ s with workers_ := s.workers_ + 1 }.goWorker s.workers_ .lock)
  | constructed (hpc : s.clientPc c = .construct) (h : max threads 1 ≤ s.workers_) :
      ClientStep threads c s ({ s with phase := .alive }.goClient c .out)
  | destroyLock (hpc : s.clientPc c = .destroyLock) (hfree : s.queue_mutex_ = none) :
      ClientStep threads c s ({ s with queue_mutex_ := some (.client c) }.goClient c .destroySet)
  | destroySet (hpc : s.clientPc c = .destroySet) :
      ClientStep threads c s ({ s with stop_ := true }.goClient c .destroyUnlock)
  | destroyUnlock (hpc : s.clientPc c = .destroyUnlock) :
      ClientStep threads c s ({ s with queue_mutex_ := none }.goClient c .destroyNotify)
  | destroyNotify (hpc : s.clientPc c = .destroyNotify) :
      ClientStep threads c s ({ s with condition_ := [] }.goClient c (.destroyJoin 0))
  | join {i : ℕ} (hpc : s.clientPc c = .destroyJoin i) (hi : i < s.workers_)
      (hended : s.workerPc i = .ended) :
      ClientStep threads c s (s.goClient c (.destroyJoin (i + 1)))
  | destroyed {i : ℕ} (hpc : s.clientPc c = .destroyJoin i) (hi : s.workers_ ≤ i) :
      ClientStep threads c s ({ s with phase := .destroyed }.goClient c .out)

theorem clientStep_cases {threads c : ℕ} {wake : Option Thread} {s t : State T}
    (h : clientStep threads c wake s = some t) : ClientStep threads c s t := by
  cases hpc : s.clientPc c with
  | out => simp [clientStep, hpc] at h
  | call pc =>
      simp only [clientStep, hpc] at h
      obtain ⟨⟨s', call⟩, hcall, rfl⟩ := Option.map_eq_some_iff.mp h
      cases call with
      | none => exact .returns hpc (callStep_cases hcall)
      | some pc' => exact .call hpc (callStep_cases hcall)
  | construct =>
      simp only [clientStep, hpc] at h
      split at h
      · rename_i hlt
        cases h
        exact .spawn hpc hlt
      · rename_i hge
        cases h
        exact .constructed hpc (Nat.not_lt.mp hge)
  | destroyLock =>
      simp only [clientStep, hpc] at h
      obtain ⟨m, hm, rfl⟩ := Option.map_eq_some_iff.mp h
      obtain ⟨hfree, rfl⟩ := Mutex.lock_eq_some.mp hm
      exact .destroyLock hpc hfree
  | destroySet =>
      simp only [clientStep, hpc] at h
      cases h
      exact .destroySet hpc
  | destroyUnlock =>
      simp only [clientStep, hpc] at h
      cases h
      exact .destroyUnlock hpc
  | destroyNotify =>
      simp only [clientStep, hpc] at h
      cases h
      exact .destroyNotify hpc
  | destroyJoin i =>
      simp only [clientStep, hpc] at h
      split at h
      · rename_i hi
        split at h
        · rename_i hended
          cases h
          exact .join hpc hi hended
        · cases h
      · rename_i hi
        cases h
        exact .destroyed hpc (Nat.not_lt.mp hi)

/-! ## The whole machine -/

inductive Step (threads : ℕ) (s : State T) : Action T → State T → Prop
  | worker {i : ℕ} {wake : Option Thread} {t : State T} (hi : i < s.workers_)
      (h : WorkerStep i s t) : Step threads s (.worker i wake) t
  | client {c : ℕ} {wake : Option Thread} {t : State T} (h : ClientStep threads c s t) :
      Step threads s (.client c wake) t
  | call {c : ℕ} {op : Op T} (hphase : s.phase = .alive ∨ s.phase = .destroying)
      (hpc : s.clientPc c = .out) : Step threads s (.call c op) (s.goClient c (.call op.entry))
  | nest {i n : ℕ} {op : Op T} {task : T} (hpc : s.workerPc i = .running task n none)
      (hi : i < s.workers_) :
      Step threads s (.nest i op) (s.goWorker i (.running task n (some op.entry)))
  | destroy {c : ℕ} (hphase : s.phase = .alive) (hpc : s.clientPc c = .out) :
      Step threads s (.destroy c) ({ s with phase := .destroying }.goClient c .destroyLock)
  | spurious (t : Thread) :
      Step threads s (.spurious t) { s with condition_ := s.condition_.erase t }

theorem step_cases {threads : ℕ} {s t : State T} {a : Action T} (h : step threads s a = some t) :
    Step threads s a t := by
  cases a with
  | worker i wake =>
      simp only [step] at h
      split at h
      · rename_i hi
        exact .worker hi (workerStep_cases h)
      · cases h
  | client c wake => exact .client (clientStep_cases h)
  | call c op =>
      simp only [step] at h
      split at h
      · rename_i hphase hpc
        cases h
        exact .call (.inl hphase) hpc
      · rename_i hphase hpc
        cases h
        exact .call (.inr hphase) hpc
      · cases h
  | nest i op =>
      simp only [step] at h
      split at h
      · rename_i task n hpc
        split at h
        · rename_i hi
          cases h
          exact .nest hpc hi
        · cases h
      · cases h
  | destroy c =>
      simp only [step] at h
      split at h
      · rename_i hphase hpc
        cases h
        exact .destroy hphase hpc
      · cases h
  | spurious t =>
      cases h
      exact .spurious t

end ThreadPool
