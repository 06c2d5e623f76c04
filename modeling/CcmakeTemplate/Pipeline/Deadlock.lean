import CcmakeTemplate.Concurrency.Deadlock
import CcmakeTemplate.Pipeline.Sharing

/-!
# No cycle of locks

The three locks are taken in one order. A callback worker that runs the callback
shares `mutex_outputCallback` and may ask for `mutex_process` or `mutex_output`
there. Whoever owns one of these two asks for nothing: the predicate of the
callback workers only tries the shared lock, and `std::scoped_lock` asks for both
mutexes while it owns neither.

The exclusive owner of `mutex_outputCallback` stands in the way of both kinds of
locking, a shared owner in the way of the exclusive one, and a `setCallback` that
still waits may stand in the way of new shared owners.
-/

namespace Pipeline

open Concurrency

variable {I O F : Type}

/-! ## Who waits for whom -/

/-- What a blocking lock statement asks for. -/
inductive Request where
  | process
  | output
  | shared
  | exclusive
deriving DecidableEq

def CallPc.asks : CallPc I F → Request → Bool
  | .addJobLock _, .process | .clearProcessLock, .process => true
  | .getProductLock, .output | .clearOutputLock, .output => true
  | .countLock, .process | .countLock, .output => true
  | .setCallbackLock _, .exclusive => true
  | _, _ => false

def ProcessPc.asks : ProcessPc I O → Request → Bool
  | .lockProcess, .process | .wait, .process => true
  | .lockOutput _, .output => true
  | _, _ => false

def CallbackPc.asks : CallbackPc I O F → Request → Bool
  | .lockOutput, .output | .wait, .output | .lockRequeue _, .output => true
  | .lockShared _, .shared => true
  | .inCallback _ _ call, r => call.asks r
  | _, _ => false

namespace State

/-- A thread that sleeps in a condition variable asks for nothing yet. -/
def asks (s : State I O F) (t : Thread) (r : Request) : Prop :=
  t ∉ s.cv_jobAdd ∧ t ∉ s.cv_processFinish ∧
    match t with
    | .worker .process i => (s.processPc i).asks r = true
    | .worker .callback i => (s.callbackPc i).asks r = true
    | .client c => (s.clientPc c).asks r = true

def blocks (s : State I O F) (u : Thread) : Request → Prop
  | .process => s.mutex_process = some u
  | .output => s.mutex_output = some u
  | .shared => s.mutex_outputCallback.writer = some u ∨ s.asks u .exclusive
  | .exclusive =>
      s.mutex_outputCallback.writer = some u ∨ u ∈ s.mutex_outputCallback.readers

end State

/-! ## The order of the locks -/

def Request.level : Request → ℕ
  | .shared => 0
  | .exclusive => 1
  | .process | .output => 2

theorem CallPc.inside_asks {pc : CallPc I F} {crew : Crew} (h : pc.inside crew = true)
    (r : Request) : pc.asks r = false := by
  cases pc with
  | addJobLock | getProductLock | countLock | setCallbackLock | clearProcessLock
  | clearOutputLock => cases crew <;> cases h
  | _ => cases r <;> rfl

theorem ProcessPc.inside_asks {pc : ProcessPc I O} {crew : Crew} (h : pc.inside crew = true)
    (r : Request) : pc.asks r = false := by
  cases pc with
  | lockProcess | wait | lockOutput => cases crew <;> cases h
  | _ => cases r <;> rfl

theorem CallbackPc.inside_asks {pc : CallbackPc I O F} {crew : Crew} (h : pc.inside crew = true)
    (r : Request) : pc.asks r = false := by
  cases pc with
  | lockOutput | wait | lockRequeue | lockShared => cases crew <;> cases h
  | inCallback f product call =>
      have hcall : call.inside crew = true := by cases crew <;> exact h
      exact CallPc.inside_asks hcall r
  | _ => cases r <;> rfl

/-- The owner of one of the two mutexes asks for nothing. -/
theorem owner_asks {s : State I O F} {crew : Crew} {t : Thread} (h : s.holds crew t = true)
    (r : Request) : ¬ s.asks t r := by
  rintro ⟨-, -, hasks⟩
  cases t with
  | client c => simp [CallPc.inside_asks h r] at hasks
  | worker crew' i =>
      cases crew' with
      | process => simp [ProcessPc.inside_asks h r] at hasks
      | callback => simp [CallbackPc.inside_asks h r] at hasks

/-- The exclusive owner of `mutex_outputCallback` asks for nothing. -/
theorem writer_asks {s : State I O F} {t : Thread} (h : s.excludes t = true) (r : Request) :
    ¬ s.asks t r := by
  rintro ⟨-, -, hasks⟩
  cases t with
  | worker crew i => cases h
  | client c =>
      simp only [State.excludes] at h
      simp only at hasks
      generalize s.clientPc c = pc at h hasks
      cases pc with
      | setCallbackAssign | setCallbackUnlock => cases r <;> cases hasks
      | _ => cases h

/-- A shared owner asks only for one of the two mutexes, from inside the callback. -/
theorem reader_asks {s : State I O F} {t : Thread}
    (hnested : NestedWithin (· ≠ .setCallback) s.callbackPc) (h : s.shares t = true)
    {r : Request} (hasks : s.asks t r) : r.level = 2 := by
  obtain ⟨-, -, hasks⟩ := hasks
  cases t with
  | client c => cases h
  | worker crew i =>
      cases crew with
      | process => cases h
      | callback =>
          simp only [State.shares] at h
          simp only at hasks
          cases hpc : s.callbackPc i with
          | inCallback f product call =>
              rw [hpc] at hasks
              cases r with
              | process | output => rfl
              | shared => cases call <;> cases hasks
              | exclusive =>
                  cases call with
                  | setCallbackLock method => exact absurd rfl (hnested i f product _ hpc)
                  | _ => cases hasks
          | check | unlockCheck | test | unlockShared =>
              rw [hpc] at hasks
              cases r <;> cases hasks
          | _ =>
              rw [hpc] at h
              cases h

/-- A `setCallback` that waits for its lock asks for nothing else. -/
theorem pending_asks {s : State I O F} {t : Thread}
    (hnested : NestedWithin (· ≠ .setCallback) s.callbackPc) (h : s.asks t .exclusive)
    {r : Request} (hasks : s.asks t r) : r = .exclusive := by
  obtain ⟨-, -, h⟩ := h
  obtain ⟨-, -, hasks⟩ := hasks
  cases t with
  | client c =>
      simp only at h hasks
      generalize s.clientPc c = pc at h hasks
      cases pc with
      | setCallbackLock method =>
          cases r with
          | exclusive => rfl
          | _ => cases hasks
      | _ => cases h
  | worker crew i =>
      cases crew with
      | process =>
          simp only at h
          generalize s.processPc i = pc at h
          cases pc <;> cases h
      | callback =>
          simp only at h
          cases hpc : s.callbackPc i with
          | inCallback f product call =>
              rw [hpc] at h
              cases call with
              | setCallbackLock method => exact absurd rfl (hnested i f product _ hpc)
              | _ => cases h
          | _ =>
              rw [hpc] at h
              cases h

/-- Whoever asks for a lock stands in the way only of those that come before it. -/
theorem asks_above {G : State I O F → Action I F → Prop} {process : I → O} {workerCnt : ℕ}
    {s : State I O F} (h : (machine process workerCnt).ReachBy G s) {t : Thread}
    {r r' : Request} (hasks : s.asks t r) (hblocks : s.blocks t r') : r'.level < r.level := by
  have hnested := nested_not_setCallback h
  have hsharing := sharing h
  cases r' with
  | process => exact absurd hasks (owner_asks (owned_of_reach h .process t hblocks) r)
  | output => exact absurd hasks (owner_asks (owned_of_reach h .callback t hblocks) r)
  | shared =>
      rcases hblocks with hwriter | hpending
      · exact absurd hasks (writer_asks ((hsharing.writer t).mp hwriter) r)
      · rw [pending_asks hnested hpending hasks]
        exact Nat.zero_lt_one
  | exclusive =>
      rcases hblocks with hwriter | hreader
      · exact absurd hasks (writer_asks ((hsharing.writer t).mp hwriter) r)
      · rw [reader_asks hnested ((hsharing.readers t).mp hreader) hasks]
        exact Nat.one_lt_two

/-- Under every schedule, with any calls by clients and callbacks, no threads wait for
the locks of each other in a cycle. -/
theorem no_lock_cycle {process : I → O} {workerCnt : ℕ} {s : State I O F}
    (h : (machine process workerCnt).Reach s) : Acyclic (WaitsFor s.asks s.blocks) :=
  Acyclic.of_levels Request.level fun _ _ _ => asks_above h

/-- A `setCallback` waits for a callback that waits in `addJob` for a client that owns
`mutex_process`. -/
theorem no_lock_cycle_chain :
    ∃ s : State ℕ ℕ Unit, (s.clientPc 1 = .setCallbackLock none ∧
        s.mutex_outputCallback.readers = [.worker .callback 0] ∧
        s.callbackPc 0 = .inCallback () 2 (.addJobLock 5) ∧ s.mutex_process = some (.client 2)) ∧
      Acyclic (WaitsFor s.asks s.blocks) := by
  obtain ⟨s, hs, hread⟩ := Machine.ReachBy.of_exec (M := machine (· + 1) 1)
    (G := fun _ _ => True) (State.initial 1)
    (runConstructor ++ runCall (.setCallback (some ())) 3 ++ runCall (.addJob 1) 4 ++
      runProcess 14 ++ runCallback 12 ++
      [.nest 0 (.addJob 5), .call 1 (.setCallback none), .call 2 (.addJob 7), .client 2 none])
    (fun s : State ℕ ℕ Unit => s.clientPc 1 = .setCallbackLock none ∧
      s.mutex_outputCallback.readers = [.worker .callback 0] ∧
      s.callbackPc 0 = .inCallback () 2 (.addJobLock 5) ∧ s.mutex_process = some (.client 2))
    rfl (by decide)
  exact ⟨s, hread, no_lock_cycle hs⟩

end Pipeline
