import CcmakeTemplate.Concurrency.Machine
import CcmakeTemplate.Concurrency.Sync
import CcmakeTemplate.Spdlog.CircularQ
import Mathlib.Logic.Function.Basic

/-!
# `mpmc_blocking_queue` as a machine

There is one step for each lock, unlock, wait, notification and access to the ring of
`details/mpmc_blocking_q.h`. A predicate is evaluated in one step with the mutex held. The
notification comes after the unlock, as in the variant of the file for all compilers but
MinGW.

`wait_for` looks at its predicate, sleeps, and looks again whenever it wakes up. When its
time is over, a last look decides.

`τ` stands for the threads and `α` for the items.
-/

namespace BlockingQueue

open Concurrency Spdlog

variable {τ α : Type}

/-! ## Data -/

structure MpmcBlockingQueue (τ α : Type) where
  queue_mutex_ : Mutex τ
  push_cv_ : CondVar τ
  pop_cv_ : CondVar τ
  q_ : CircularQ α
  discard_counter_ : ℕ
  /-- History: the items pushed, in order. -/
  pushed : List α
  /-- History: the items dequeued, in order. -/
  taken : List α
  /-- History: the items overrun, in order. -/
  overrun : List α

/-- `mpmc_blocking_queue(max_items)`. -/
def MpmcBlockingQueue.new [Inhabited α] (max_items : ℕ) : MpmcBlockingQueue τ α where
  queue_mutex_ := none
  push_cv_ := []
  pop_cv_ := []
  q_ := .new max_items
  discard_counter_ := 0
  pushed := []
  taken := []
  overrun := []

inductive Op (α : Type) where
  | enqueue (item : α)
  | enqueueNowait (item : α)
  | enqueueIfHaveRoom (item : α)
  | dequeue
  | dequeueFor
  | size
  | overrunCounter
  | resetOverrunCounter
  | discardCounter
  | resetDiscardCounter
deriving DecidableEq

/-- What a method returns; `dequeue_for` answers an item or that its time was over. -/
inductive Answer (α : Type) where
  | done
  | item (x : α)
  | timedOut
  | count (n : ℕ)
deriving DecidableEq

/-- What is read or reset under the mutex in one step. -/
inductive Inspect where
  | size | overrunCounter | resetOverrunCounter
deriving DecidableEq

/-- Program points. `timed` tells `dequeue_for` from `dequeue`. -/
inductive QueuePc (α : Type) where
  | enqueueLock (item : α)
  | enqueueCheck (item : α)
  | enqueueBlock (item : α)
  | enqueueWaiting (item : α)
  | enqueuePush (item : α)
  | nowaitLock (item : α)
  | nowaitPush (item : α)
  | roomLock (item : α)
  | roomCheck (item : α)
  | roomPush (item : α)
  | roomUnlock
  | roomDiscard
  | pushUnlock
  | pushNotify
  | dequeueLock (timed : Bool)
  | dequeueCheck (timed : Bool)
  | dequeueBlock (timed : Bool)
  | dequeueWaiting (timed : Bool)
  | dequeueExpired
  | dequeueLastCheck
  | dequeueGiveUp
  | dequeueTake
  | popUnlock (item : α)
  | popNotify (item : α)
  | inspectLock (what : Inspect)
  | inspectRead (what : Inspect)
  | inspectUnlock (what : Inspect) (n : ℕ)
  | discardRead
  | discardReset
deriving DecidableEq

def Op.entry : Op α → QueuePc α
  | .enqueue item => .enqueueLock item
  | .enqueueNowait item => .nowaitLock item
  | .enqueueIfHaveRoom item => .roomLock item
  | .dequeue => .dequeueLock false
  | .dequeueFor => .dequeueLock true
  | .size => .inspectLock .size
  | .overrunCounter => .inspectLock .overrunCounter
  | .resetOverrunCounter => .inspectLock .resetOverrunCounter
  | .discardCounter => .discardRead
  | .resetDiscardCounter => .discardReset

/-- After a step the thread is at the next program point, or the method returns. -/
abbrev Next (α : Type) := QueuePc α ⊕ Answer α

/-! ## Accesses to the ring -/

/-- The item that the next push overruns, if any. -/
def victim (q : CircularQ α) (item : α) : List α :=
  if q.full then ((q.items ++ [item]).head?).toList else []

/-- `q_.push_back(std::move(item))`. -/
def MpmcBlockingQueue.pushBack (s : MpmcBlockingQueue τ α) (item : α) :
    MpmcBlockingQueue τ α :=
  { s with
    q_ := s.q_.pushBack item
    pushed := s.pushed ++ [item]
    overrun := s.overrun ++ victim s.q_ item }

/-- `popped_item = std::move(q_.front()); q_.pop_front()`; `none` when this has no defined
behaviour. -/
def MpmcBlockingQueue.popFront (s : MpmcBlockingQueue τ α) :
    Option (α × MpmcBlockingQueue τ α) :=
  match s.q_.front, s.q_.popFront with
  | some item, some q => some (item, { s with q_ := q, taken := s.taken ++ [item] })
  | _, _ => none

def Inspect.read (s : MpmcBlockingQueue τ α) : Inspect → ℕ
  | .size => s.q_.size
  | .overrunCounter => s.q_.overrunCounter
  | .resetOverrunCounter => 0

def Inspect.apply (s : MpmcBlockingQueue τ α) : Inspect → MpmcBlockingQueue τ α
  | .resetOverrunCounter => { s with q_ := s.q_.resetOverrunCounter }
  | _ => s

def Inspect.answer (n : ℕ) : Inspect → Answer α
  | .resetOverrunCounter => .done
  | _ => .count n

/-! ## One step of a method -/

section

variable [DecidableEq τ]

/-- The mutex is taken and the thread goes on at `pc`. -/
def MpmcBlockingQueue.lockThen (s : MpmcBlockingQueue τ α) (t : τ) (pc : QueuePc α) :
    Option (MpmcBlockingQueue τ α × Next α) :=
  (s.queue_mutex_.lock t).map fun m => ({ s with queue_mutex_ := m }, .inl pc)

/-- One step of thread `t`; `wake` is the sleeper that a notification unblocks. -/
def queueStep (t : τ) (wake : Option τ) (s : MpmcBlockingQueue τ α) :
    QueuePc α → Option (MpmcBlockingQueue τ α × Next α)
  | .enqueueLock item => s.lockThen t (.enqueueCheck item)
  | .enqueueCheck item =>
      some (s, .inl (if s.q_.full then .enqueueBlock item else .enqueuePush item))
  | .enqueueBlock item =>
      some ({ s with queue_mutex_ := none, pop_cv_ := s.pop_cv_.block t },
        .inl (.enqueueWaiting item))
  | .enqueueWaiting item =>
      if t ∈ s.pop_cv_ then none else s.lockThen t (.enqueueCheck item)
  | .enqueuePush item => some (s.pushBack item, .inl .pushUnlock)
  | .nowaitLock item => s.lockThen t (.nowaitPush item)
  | .nowaitPush item => some (s.pushBack item, .inl .pushUnlock)
  | .roomLock item => s.lockThen t (.roomCheck item)
  | .roomCheck item => some (s, .inl (if s.q_.full then .roomUnlock else .roomPush item))
  | .roomPush item => some (s.pushBack item, .inl .pushUnlock)
  | .roomUnlock => some ({ s with queue_mutex_ := none }, .inl .roomDiscard)
  | .roomDiscard =>
      some ({ s with discard_counter_ := (s.discard_counter_ + 1) % sizeTRange }, .inr .done)
  | .pushUnlock => some ({ s with queue_mutex_ := none }, .inl .pushNotify)
  | .pushNotify =>
      (s.push_cv_.notifyOne wake).map fun cv => ({ s with push_cv_ := cv }, .inr .done)
  | .dequeueLock timed => s.lockThen t (.dequeueCheck timed)
  | .dequeueCheck timed =>
      some (s, .inl (if s.q_.empty then .dequeueBlock timed else .dequeueTake))
  | .dequeueBlock timed =>
      some ({ s with queue_mutex_ := none, push_cv_ := s.push_cv_.block t },
        .inl (.dequeueWaiting timed))
  | .dequeueWaiting timed =>
      if t ∈ s.push_cv_ then none else s.lockThen t (.dequeueCheck timed)
  | .dequeueExpired => s.lockThen t .dequeueLastCheck
  | .dequeueLastCheck => some (s, .inl (if s.q_.empty then .dequeueGiveUp else .dequeueTake))
  | .dequeueGiveUp => some ({ s with queue_mutex_ := none }, .inr .timedOut)
  | .dequeueTake => s.popFront.map fun (item, s') => (s', .inl (.popUnlock item))
  | .popUnlock item => some ({ s with queue_mutex_ := none }, .inl (.popNotify item))
  | .popNotify item =>
      (s.pop_cv_.notifyOne wake).map fun cv => ({ s with pop_cv_ := cv }, .inr (.item item))
  | .inspectLock what => s.lockThen t (.inspectRead what)
  | .inspectRead what => some (what.apply s, .inl (.inspectUnlock what (what.read s)))
  | .inspectUnlock what n => some ({ s with queue_mutex_ := none }, .inr (what.answer n))
  | .discardRead => some (s, .inr (.count s.discard_counter_))
  | .discardReset => some ({ s with discard_counter_ := 0 }, .inr .done)

/-! ## The machine -/

/-- The queue and the program points of the threads that are inside its methods. -/
structure State (τ α : Type) where
  queue : MpmcBlockingQueue τ α
  pc : τ → Option (QueuePc α)

/-- What the scheduler picks. A sleeper may wake up by itself, and the time of a
`dequeue_for` may be over. -/
inductive Action (τ α : Type) where
  | call (t : τ) (op : Op α)
  | step (t : τ) (wake : Option τ)
  | spurious (t : τ)
  | timeout (t : τ)

abbrev State.go (s : State τ α) (t : τ) (pc : Option (QueuePc α)) : State τ α :=
  { s with pc := Function.update s.pc t pc }

/-- The thread leaves both condition variables. -/
def MpmcBlockingQueue.unblock (s : MpmcBlockingQueue τ α) (t : τ) :
    MpmcBlockingQueue τ α :=
  { s with push_cv_ := s.push_cv_.erase t, pop_cv_ := s.pop_cv_.erase t }

def step (s : State τ α) : Action τ α → Option (State τ α)
  | .call t op =>
      match s.pc t with
      | none => some (s.go t (some op.entry))
      | some _ => none
  | .step t wake =>
      (s.pc t).bind fun pc => (queueStep t wake s.queue pc).map fun (queue, next) =>
        { s with queue := queue }.go t next.getLeft?
  | .spurious t => some { s with queue := s.queue.unblock t }
  | .timeout t =>
      match s.pc t with
      | some (.dequeueWaiting true) =>
          some ({ s with queue := s.queue.unblock t }.go t (some .dequeueExpired))
      | _ => none

def machine (τ α : Type) [DecidableEq τ] [Inhabited α] (max_items : ℕ) :
    Machine (State τ α) (Action τ α) where
  init := fun s => s = { queue := .new max_items, pc := fun _ => none }
  step := step

end

end BlockingQueue
