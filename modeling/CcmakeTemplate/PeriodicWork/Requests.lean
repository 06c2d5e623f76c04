import CcmakeTemplate.Concurrency.Deadlock
import CcmakeTemplate.PeriodicWork.Locks

/-!
# What the threads of a `periodicWork` wait for

A thread may wait for `workLock`, for the mutex of a semaphore or, in a join, for the end of
a timer or a worker. Whoever owns one of these mutexes is inside a method or a thread
function of `periodicWork` and asks for nothing.
-/

namespace Semaphore

/-- The caller asks for the mutex, unless it still sleeps. -/
def SemPc.asks : SemPc → Bool
  | .acquireLock | .waiting | .releaseLock | .stopLock => true
  | _ => false

theorem SemPc.inside_asks {pc : SemPc} (h : pc.inside = true) : pc.asks = false := by
  cases pc <;> first | rfl | cases h

end Semaphore

namespace PeriodicWork

open Concurrency Semaphore

variable {F : Type}

/-! ## Who waits for whom -/

inductive Request where
  | workLock
  | semMutex (k : ℕ)
  | ended (j : Job) (i : ℕ)
deriving DecidableEq

def TimerPc.asks : TimerPc → Request → Bool
  | .lock, .workLock | .relock _, .workLock => true
  | .release _ k pc, .semMutex k' => k = k' && pc.asks
  | _, _ => false

def SetPc.asks : SetPc F → Request → Bool
  | .callbackLock _, .workLock => true
  | _, _ => false

def WorkerPc.asks : WorkerPc F → Request → Bool
  | .lockTask, .workLock => true
  | .inTask _ (some pc), r => pc.asks r
  | .acquire k pc, .semMutex k' => k = k' && pc.asks
  | _, _ => false

def StopPc.asks : StopPc → Request → Bool
  | .lock, .workLock => true
  | .sem k pc, .semMutex k' => k = k' && pc.asks
  | .join j, .ended j' _ => j = j'
  | _, _ => false

def CallPc.asks : CallPc F → Request → Bool
  | .set pc, r => pc.asks r
  | .stop _ pc, r => pc.asks r
  | _, _ => false

/-- The thread runs code from elsewhere: a client between its calls, a worker in its
callback or in `tickObservers_.distribute()`. -/
def WorkerPc.outside : WorkerPc F → Bool
  | .inTask _ none | .distribute => true
  | _ => false

def CallPc.outside : CallPc F → Bool
  | .out => true
  | _ => false

namespace State

def reaches (s : State F) (r : Request) : Thread → Bool
  | .job .timer i => (s.timerPc i).asks r
  | .job .worker i => (s.workerPc i).asks r
  | .client c => (s.clientPc c).asks r

/-- A thread that sleeps in a condition variable asks for nothing yet. -/
def asks (s : State F) (t : Thread) (r : Request) : Prop :=
  s.reaches r t = true ∧
    match r with
    | .workLock => True
    | .semMutex k => t ∉ (s.sems k).cv_
    | .ended j i => s.thread_ j = some i

def blocks (s : State F) (u : Thread) : Request → Prop
  | .workLock => s.workLock = some u
  | .semMutex k => k < s.semCnt ∧ (s.sems k).mtx_ = some u
  | .ended j i => u = .job j i ∧ s.ended j i = false

def outside (s : State F) : Thread → Bool
  | .job .timer _ => false
  | .job .worker i => (s.workerPc i).outside
  | .client c => (s.clientPc c).outside

end State

/-! ## Owners ask for nothing -/

theorem WorkerPc.outside_asks {pc : WorkerPc F} (h : pc.outside = true) (r : Request) :
    pc.asks r = false := by
  cases pc with
  | inTask f call =>
      cases call with
      | none => cases r <;> rfl
      | some pc => cases h
  | distribute => cases r <;> rfl
  | _ => cases h

theorem CallPc.outside_asks {pc : CallPc F} (h : pc.outside = true) (r : Request) :
    pc.asks r = false := by
  cases pc with
  | out => cases r <;> rfl
  | _ => cases h

/-- A thread between its calls asks for nothing. -/
theorem outside_asks {s : State F} {t : Thread} (h : s.outside t = true) (r : Request) :
    ¬ s.asks t r := by
  rintro ⟨hasks, -⟩
  rcases t with ⟨⟨⟩, i⟩ | c
  · cases h
  · rw [State.reaches, WorkerPc.outside_asks h] at hasks
    cases hasks
  · rw [State.reaches, CallPc.outside_asks h] at hasks
    cases hasks

theorem TimerPc.inside_asks {pc : TimerPc} (h : pc.inside = true) (r : Request) :
    pc.asks r = false := by
  cases pc with
  | testQuit | testChanged | block | quitTest | leaveQuit | unlock => cases r <;> rfl
  | _ => cases h

theorem SetPc.inside_asks {pc : SetPc F} (h : pc.inside = true) (r : Request) :
    pc.asks r = false := by
  cases pc with
  | callbackAssign | callbackUnlock => cases r <;> rfl
  | _ => cases h

theorem WorkerPc.inside_asks {pc : WorkerPc F} (h : pc.inside = true) :
    (∀ r, pc.asks r = false) ∧ pc.outside = false := by
  cases pc with
  | copyTask | unlockTask => exact ⟨fun r => (by cases r <;> rfl), rfl⟩
  | inTask f call =>
      cases call with
      | none => cases h
      | some pc => exact ⟨SetPc.inside_asks h, rfl⟩
  | _ => cases h

theorem CallPc.inside_asks {pc : CallPc F} (h : pc.inside = true) :
    (∀ r, pc.asks r = false) ∧ pc.outside = false := by
  cases pc with
  | set pc => exact ⟨SetPc.inside_asks h, rfl⟩
  | stop again pc =>
      cases pc with
      | setQuit | unlock => exact ⟨fun r => (by cases r <;> rfl), rfl⟩
      | _ => cases h
  | _ => cases h

/-- Inside a critical section of `workLock` a thread asks for nothing. -/
theorem inside_asks {s : State F} {t : Thread} (h : s.inside t = true) :
    (∀ r, ¬ s.asks t r) ∧ s.outside t = false := by
  suffices hreach : (∀ r, s.reaches r t = false) ∧ s.outside t = false by
    refine ⟨fun r hasks => ?_, hreach.2⟩
    cases (hreach.1 r).symm.trans hasks.1
  rcases t with ⟨⟨⟩, i⟩ | c
  · exact ⟨TimerPc.inside_asks h, rfl⟩
  · exact WorkerPc.inside_asks h
  · exact CallPc.inside_asks h

/-- Inside a critical section of a semaphore a thread asks for nothing. -/
theorem callers_asks {s : State F} (hs : InCall s) {k : ℕ} {t : Thread}
    (h : (s.callers k t).inside = true) :
    (∀ r, ¬ s.asks t r) ∧ s.outside t = false := by
  have hcall := hs.callsSem (u := t) (k := k) (by rintro hno; rw [hno] at h; cases h)
  have hasks := SemPc.inside_asks h
  generalize s.callers k t = pc at h hcall hasks
  cases hcall with
  | timer hpc =>
      refine ⟨fun r ⟨hreach, _⟩ => ?_, rfl⟩
      cases r <;> simp [State.reaches, hpc, TimerPc.asks, hasks] at hreach
  | worker hpc =>
      refine ⟨fun r ⟨hreach, _⟩ => ?_, by simp [State.outside, hpc, WorkerPc.outside]⟩
      cases r <;> simp [State.reaches, hpc, WorkerPc.asks, hasks] at hreach
  | client hpc =>
      refine ⟨fun r ⟨hreach, _⟩ => ?_, by simp [State.outside, hpc, CallPc.outside]⟩
      cases r <;> simp [State.reaches, hpc, CallPc.asks, StopPc.asks, hasks] at hreach

/-- Whoever stands in the way of others, but for the end of a thread, is inside a method or
a thread function and asks for nothing. -/
theorem owner_asks {callback : Option F} {period maxLag : ℕ} {s : State F}
    (h : (machine callback period maxLag).ReachBy OneControl s) {t : Thread} {r' : Request}
    (hblocks : s.blocks t r') (hlock : ∀ j i, r' ≠ .ended j i) :
    (∀ r, ¬ s.asks t r) ∧ s.outside t = false := by
  cases r' with
  | workLock => exact inside_asks ((workLock_exact h t).mp hblocks)
  | semMutex k => exact callers_asks (.of_reach h) ((served h hblocks.1).held t hblocks.2)
  | ended j i => exact absurd rfl (hlock j i)

/-- Only clients join. -/
theorem joins_client {s : State F} {t : Thread} {j : Job} {i : ℕ} (h : s.asks t (.ended j i)) :
    ∃ c, t = .client c := by
  have hreach : s.reaches (.ended j i) t = true := h.1
  rcases t with ⟨⟨⟩, i'⟩ | c
  · simp only [State.reaches] at hreach
    generalize s.timerPc i' = pc at hreach
    cases pc <;> cases hreach
  · simp only [State.reaches] at hreach
    generalize s.workerPc i' = pc at hreach
    cases pc with
    | inTask f call =>
        cases call with
        | none => cases hreach
        | some pc => cases pc <;> cases hreach
    | _ => cases hreach
  · exact ⟨c, rfl⟩

/-! ## Threads outside -/

theorem Step.workerPc_other {maxLag : ℕ} {s t : State F} {a : Action F} (h : Step maxLag s a t)
    (hs : Settled s) {i : ℕ} (hi : a.mover ≠ some (.job .worker i)) :
    t.workerPc i = s.workerPc i := by
  have hother : ∀ j, some (Thread.job .worker j) ≠ some (.job .worker i) → i ≠ j := by
    rintro j hj rfl
    exact hj rfl
  cases h with
  | timer _ h => cases h <;> rfl
  | worker _ h =>
      have hne := hother _ hi
      cases h with
      | nested hpc h => exact (Function.update_of_ne hne ..).trans (by rw [h.frame.2.1])
      | _ => exact Function.update_of_ne hne ..
  | client h => rw [(h.threads hs).2]
  | nest => exact Function.update_of_ne (hother _ hi) ..
  | set | starts | stops | tick | spurious => rfl

theorem Step.clientPc_other {maxLag : ℕ} {s t : State F} {a : Action F} (h : Step maxLag s a t)
    {c : ℕ} (hc : a.mover ≠ some (.client c)) : t.clientPc c = s.clientPc c := by
  have hother : ∀ d, some (Thread.client d) ≠ some (.client c) → c ≠ d := by
    rintro d hd rfl
    exact hd rfl
  cases h with
  | timer _ h | worker _ h => rw [h.owned.2]
  | client h => exact (Function.update_of_ne (hother _ hc) ..).trans (by rw [h.clientPc])
  | set | starts | stops => exact Function.update_of_ne (hother _ hc) ..
  | nest | tick | spurious => rfl

theorem Step.outside_other {maxLag : ℕ} {s t : State F} {a : Action F} (h : Step maxLag s a t)
    (hs : Settled s) {u : Thread} (hu : a.mover ≠ some u) : t.outside u = s.outside u := by
  rcases u with ⟨⟨⟩, i⟩ | c
  · rfl
  · rw [State.outside, State.outside, h.workerPc_other hs hu]
  · rw [State.outside, State.outside, h.clientPc_other hu]

end PeriodicWork
