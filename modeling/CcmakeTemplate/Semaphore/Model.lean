import CcmakeTemplate.Concurrency.Machine
import CcmakeTemplate.Concurrency.Sync
import Mathlib.Logic.Function.Basic
import Mathlib.Data.Int.Order.Basic

/-!
# `counting_semaphore`

One step for each load, compare-exchange, store, lock, unlock, wait and
notification of `counting_semaphore.h`. The atomics are sequentially consistent.
A thread's place in a call is a `SemPc`, so that other components can run a call
of theirs inside their own step function.

The fields under "history" record what happened. No step reads them.
-/

namespace Semaphore

open Concurrency

structure CountingSemaphore (τ : Type) where
  max_count_ : ℤ
  count_ : ℤ
  stopped_ : Bool
  mtx_ : Mutex τ
  cv_ : CondVar τ
  /-- History: the successful exchanges of `try_release`. -/
  accepted : ℕ
  /-- History: the successful exchanges of `acquire`. -/
  taken : ℕ
  /-- History: for each `try_release` that returned `false`, the count it had loaded
  and the `stopped_` it had read. -/
  rejected : List (ℤ × Bool)

/-- Program points of the three methods; `out` is outside all of them. -/
inductive SemPc where
  | out
  | acquireLoad
  | acquireExchange (c : ℤ)
  | acquireStopped
  | acquireLock
  | waitCount
  | waitStopped
  | waitBlock
  | waiting
  | acquireUnlock
  | releaseLoad
  | releaseStopped (c : ℤ)
  | releaseExchange (c : ℤ)
  | releaseLock
  | releaseNotify
  | releaseUnlock
  | stopStore
  | stopLock
  | stopNotify
  | stopUnlock
deriving DecidableEq

inductive SemOp where
  | acquire | tryRelease | stop
deriving DecidableEq

def SemOp.entry : SemOp → SemPc
  | .acquire => .acquireLoad
  | .tryRelease => .releaseLoad
  | .stop => .stopStore

variable {τ : Type} [DecidableEq τ]

/-- `counting_semaphore(max_count)`. -/
def CountingSemaphore.new (max_count : ℤ) : CountingSemaphore τ where
  max_count_ := max_count
  count_ := 0
  stopped_ := false
  mtx_ := none
  cv_ := []
  accepted := 0
  taken := 0
  rejected := []

omit [DecidableEq τ] in
theorem CountingSemaphore.new_max_count (max_count : ℤ) :
    (CountingSemaphore.new max_count : CountingSemaphore τ).max_count_ = max_count := rfl

/-- One step of thread `t`. The scheduler chooses whether a weak exchange fails
spuriously and which sleeper a `notify_one` wakes. -/
def semStep (t : τ) (fails : Bool) (wake : Option τ) (pc : SemPc) (s : CountingSemaphore τ) :
    Option (CountingSemaphore τ × SemPc) :=
  match pc with
  | .out => none
  | .acquireLoad =>
      if s.count_ > 0 then some (s, .acquireExchange s.count_) else some (s, .acquireStopped)
  | .acquireExchange c =>
      if s.count_ = c ∧ fails = false then
        some ({ s with count_ := c - 1, taken := s.taken + 1 }, .out)
      else some (s, .acquireLoad)
  | .acquireStopped => if s.stopped_ then some (s, .out) else some (s, .acquireLock)
  | .acquireLock => (s.mtx_.lock t).map fun m => ({ s with mtx_ := m }, .waitCount)
  | .waitCount => if s.count_ > 0 then some (s, .acquireUnlock) else some (s, .waitStopped)
  | .waitStopped => if s.stopped_ then some (s, .acquireUnlock) else some (s, .waitBlock)
  | .waitBlock => some ({ s with mtx_ := none, cv_ := s.cv_.block t }, .waiting)
  | .waiting =>
      if t ∈ s.cv_ then none
      else (s.mtx_.lock t).map fun m => ({ s with mtx_ := m }, .waitCount)
  | .acquireUnlock => some ({ s with mtx_ := none }, .acquireLoad)
  | .releaseLoad => some (s, .releaseStopped s.count_)
  | .releaseStopped c =>
      if s.stopped_ ∨ c ≥ s.max_count_ then
        some ({ s with rejected := s.rejected ++ [(c, s.stopped_)] }, .out)
      else some (s, .releaseExchange c)
  | .releaseExchange c =>
      if s.count_ = c ∧ fails = false then
        some ({ s with count_ := c + 1, accepted := s.accepted + 1 },
          if c = 0 then .releaseLock else .out)
      else some (s, .releaseLoad)
  | .releaseLock => (s.mtx_.lock t).map fun m => ({ s with mtx_ := m }, .releaseNotify)
  | .releaseNotify =>
      (s.cv_.notifyOne wake).map fun cv => ({ s with cv_ := cv }, .releaseUnlock)
  | .releaseUnlock => some ({ s with mtx_ := none }, .out)
  | .stopStore => some ({ s with stopped_ := true }, .stopLock)
  | .stopLock => (s.mtx_.lock t).map fun m => ({ s with mtx_ := m }, .stopNotify)
  | .stopNotify => some ({ s with cv_ := [] }, .stopUnlock)
  | .stopUnlock => some ({ s with mtx_ := none }, .out)

/-! ## What one step can do -/

/-- Steps that change nothing but the program point. -/
inductive SemGo (s : CountingSemaphore τ) : SemPc → SemPc → Prop
  | loadPositive (h : 0 < s.count_) : SemGo s .acquireLoad (.acquireExchange s.count_)
  | loadZero (h : s.count_ ≤ 0) : SemGo s .acquireLoad .acquireStopped
  | acquireAgain (c : ℤ) : SemGo s (.acquireExchange c) .acquireLoad
  | acquireStops (h : s.stopped_ = true) : SemGo s .acquireStopped .out
  | acquireSlow (h : s.stopped_ = false) : SemGo s .acquireStopped .acquireLock
  | countReady (h : 0 < s.count_) : SemGo s .waitCount .acquireUnlock
  | countZero (h : s.count_ ≤ 0) : SemGo s .waitCount .waitStopped
  | stopReady (h : s.stopped_ = true) : SemGo s .waitStopped .acquireUnlock
  | sleep (h : s.stopped_ = false) : SemGo s .waitStopped .waitBlock
  | load : SemGo s .releaseLoad (.releaseStopped s.count_)
  | room (c : ℤ) (hstop : s.stopped_ = false) (h : c < s.max_count_) :
      SemGo s (.releaseStopped c) (.releaseExchange c)
  | releaseAgain (c : ℤ) : SemGo s (.releaseExchange c) .releaseLoad

inductive SemLocks (t : τ) (s : CountingSemaphore τ) : SemPc → SemPc → Prop
  | acquire : SemLocks t s .acquireLock .waitCount
  | woken (h : t ∉ s.cv_) : SemLocks t s .waiting .waitCount
  | release : SemLocks t s .releaseLock .releaseNotify
  | stop : SemLocks t s .stopLock .stopNotify

inductive SemUnlocks : SemPc → SemPc → Prop
  | acquire : SemUnlocks .acquireUnlock .acquireLoad
  | release : SemUnlocks .releaseUnlock .out
  | stop : SemUnlocks .stopUnlock .out

inductive SemStep (t : τ) (s : CountingSemaphore τ) :
    SemPc → CountingSemaphore τ → SemPc → Prop
  | go {pc pc' : SemPc} (h : SemGo s pc pc') : SemStep t s pc s pc'
  | lock {pc pc' : SemPc} (h : SemLocks t s pc pc') (hfree : s.mtx_ = none) :
      SemStep t s pc { s with mtx_ := some t } pc'
  | unlock {pc pc' : SemPc} (h : SemUnlocks pc pc') : SemStep t s pc { s with mtx_ := none } pc'
  | take {c : ℤ} (h : s.count_ = c) :
      SemStep t s (.acquireExchange c) { s with count_ := c - 1, taken := s.taken + 1 } .out
  | accept {c : ℤ} (h : s.count_ = c) :
      SemStep t s (.releaseExchange c) { s with count_ := c + 1, accepted := s.accepted + 1 }
        (if c = 0 then .releaseLock else .out)
  | reject {c : ℤ} (h : s.stopped_ = true ∨ s.max_count_ ≤ c) :
      SemStep t s (.releaseStopped c) { s with rejected := s.rejected ++ [(c, s.stopped_)] } .out
  | block : SemStep t s .waitBlock { s with mtx_ := none, cv_ := s.cv_.block t } .waiting
  | notifyOne {wake : Option τ} {cv : CondVar τ} (h : s.cv_.notifyOne wake = some cv) :
      SemStep t s .releaseNotify { s with cv_ := cv } .releaseUnlock
  | store : SemStep t s .stopStore { s with stopped_ := true } .stopLock
  | notifyAll : SemStep t s .stopNotify { s with cv_ := [] } .stopUnlock

theorem semStep_lock {t : τ} {s s' : CountingSemaphore τ} {pc pc' pc'' : SemPc}
    (hpc : SemLocks t s pc pc'')
    (h : ((s.mtx_.lock t).map fun m => ({ s with mtx_ := m }, pc'')) = some (s', pc')) :
    SemStep t s pc s' pc' := by
  obtain ⟨m, hm, heq⟩ := Option.map_eq_some_iff.mp h
  cases heq
  obtain ⟨hfree, rfl⟩ := Mutex.lock_eq_some.mp hm
  exact .lock hpc hfree

theorem semStep_cases {t : τ} {fails : Bool} {wake : Option τ} {pc pc' : SemPc}
    {s s' : CountingSemaphore τ} (h : semStep t fails wake pc s = some (s', pc')) :
    SemStep t s pc s' pc' := by
  cases pc with
  | out => cases h
  | acquireLoad =>
      simp only [semStep] at h
      split at h
      · rename_i hpos
        cases h
        exact .go (.loadPositive hpos)
      · rename_i hzero
        cases h
        exact .go (.loadZero (not_lt.mp hzero))
  | acquireExchange c =>
      simp only [semStep] at h
      split at h
      · rename_i heq
        cases h
        exact .take heq.1
      · cases h
        exact .go (.acquireAgain c)
  | acquireStopped =>
      simp only [semStep] at h
      split at h
      · rename_i hstop
        cases h
        exact .go (.acquireStops hstop)
      · rename_i hstop
        cases h
        exact .go (.acquireSlow (Bool.not_eq_true _ ▸ hstop))
  | acquireLock => exact semStep_lock .acquire h
  | waitCount =>
      simp only [semStep] at h
      split at h
      · rename_i hpos
        cases h
        exact .go (.countReady hpos)
      · rename_i hzero
        cases h
        exact .go (.countZero (not_lt.mp hzero))
  | waitStopped =>
      simp only [semStep] at h
      split at h
      · rename_i hstop
        cases h
        exact .go (.stopReady hstop)
      · rename_i hstop
        cases h
        exact .go (.sleep (Bool.not_eq_true _ ▸ hstop))
  | waitBlock =>
      cases h
      exact .block
  | waiting =>
      simp only [semStep] at h
      split at h
      · cases h
      · rename_i hawake
        exact semStep_lock (.woken hawake) h
  | acquireUnlock =>
      cases h
      exact .unlock .acquire
  | releaseLoad =>
      cases h
      exact .go .load
  | releaseStopped c =>
      simp only [semStep] at h
      split at h
      · rename_i hfull
        cases h
        exact .reject hfull
      · rename_i hroom
        cases h
        rw [not_or] at hroom
        exact .go (.room c (Bool.not_eq_true _ ▸ hroom.1) (not_le.mp hroom.2))
  | releaseExchange c =>
      simp only [semStep] at h
      split at h
      · rename_i heq
        cases h
        exact .accept heq.1
      · cases h
        exact .go (.releaseAgain c)
  | releaseLock => exact semStep_lock .release h
  | releaseNotify =>
      simp only [semStep] at h
      obtain ⟨cv, hcv, heq⟩ := Option.map_eq_some_iff.mp h
      cases heq
      exact .notifyOne hcv
  | releaseUnlock =>
      cases h
      exact .unlock .release
  | stopStore =>
      cases h
      exact .store
  | stopLock => exact semStep_lock .stop h
  | stopNotify =>
      cases h
      exact .notifyAll
  | stopUnlock =>
      cases h
      exact .unlock .stop

end Semaphore
