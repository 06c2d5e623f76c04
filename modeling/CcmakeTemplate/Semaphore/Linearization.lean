import CcmakeTemplate.Semaphore.Invariants
import CcmakeTemplate.Concurrency.Linearization

/-!
# The semaphore as an atomic counter

Each call takes effect at one step. A successful exchange is that step where there is one,
and `stop` takes effect with its store. An `acquire` that gives up does so when it reads
`stopped_`. A `try_release` that is refused by a full semaphore has been refused when it
loaded the count, and one that finds a semaphore with room stopped when it reads `stopped_`.
-/

namespace Semaphore

open Concurrency

/-! ## The bounded counter -/

structure Counter where
  count : ℤ
  stopped : Bool
deriving DecidableEq

/-- The three operations, one at a time. `try_release` answers whether it released. -/
inductive Counter.Legal (max_count : ℤ) : SemOp → Counter → Option Bool → Counter → Prop
  | release {q : Counter} (h : q.count < max_count) :
      Legal max_count .tryRelease q (some true) { q with count := q.count + 1 }
  | refuse {q : Counter} (h : max_count ≤ q.count ∨ q.stopped = true) :
      Legal max_count .tryRelease q (some false) q
  | acquire {q : Counter} (h : 0 < q.count) :
      Legal max_count .acquire q none { q with count := q.count - 1 }
  | giveUp {q : Counter} (h : q.stopped = true) : Legal max_count .acquire q none q
  | stop (q : Counter) : Legal max_count .stop q none { q with stopped := true }

variable {τ : Type} [DecidableEq τ]

def CountingSemaphore.counter (s : CountingSemaphore τ) : Counter := ⟨s.count_, s.stopped_⟩

/-! ## The semaphore and its history -/

/-- The method that a program point belongs to, and what the method returns if it returns
from there. -/
def SemPc.answer : SemPc → SemOp × Option Bool
  | .releaseStopped _ => (.tryRelease, some false)
  | .releaseLoad | .releaseExchange _ | .releaseLock | .releaseNotify | .releaseUnlock =>
      (.tryRelease, some true)
  | .stopStore | .stopLock | .stopNotify | .stopUnlock => (.stop, none)
  | _ => (.acquire, none)

/-- What is seen of a step from `pc` to `pc'`. -/
def seen (t : τ) (s s' : CountingSemaphore τ) (pc pc' : SemPc) :
    List (Seen τ SemOp (Option Bool) Counter) :=
  effect t s.counter s'.counter ++
    if pc' = .out then [.returned t pc.answer.1 pc.answer.2] else []

structure Traced where
  sem : CountingSemaphore ℕ
  pc : Table ℕ
  history : List (Seen ℕ SemOp (Option Bool) Counter)

/-- As for `Semaphore.machine`, and sleepers may wake up spuriously. -/
inductive TracedAction where
  | call (t : ℕ) (op : SemOp)
  | step (t : ℕ) (fails : Bool) (wake : Option ℕ)
  | spurious (t : ℕ)

def tracedStep (s : Traced) : TracedAction → Option Traced
  | .call t op =>
      if s.pc t = .out then
        some { s with
          pc := Function.update s.pc t op.entry
          history := s.history ++ [.called t op] }
      else none
  | .step t fails wake =>
      (semStep t fails wake (s.pc t) s.sem).map fun (sem, pc) =>
        { sem := sem
          pc := Function.update s.pc t pc
          history := s.history ++ seen t s.sem sem (s.pc t) pc }
  | .spurious t => some { s with sem := { s.sem with cv_ := s.sem.cv_.erase t } }

def tracedMachine (max_count : ℤ) : Machine Traced TracedAction where
  init := fun s => s = { sem := .new max_count, pc := fun _ => .out, history := [] }
  step := tracedStep

/-! ## One step -/

/-- How far a call has come. -/
def SemPc.phase (max_count : ℤ) : SemPc → Phase SemOp (Option Bool)
  | .out => .idle
  | .releaseStopped c =>
      if max_count ≤ c then .done .tryRelease (some false) else .pending .tryRelease
  | .releaseLoad | .releaseExchange _ => .pending .tryRelease
  | .releaseLock | .releaseNotify | .releaseUnlock => .done .tryRelease (some true)
  | .stopStore => .pending .stop
  | .stopLock | .stopNotify | .stopUnlock => .done .stop none
  | _ => .pending .acquire

section

variable {max_count : ℤ} {t : τ} {s s' : CountingSemaphore τ} {pc pc' : SemPc}

omit [DecidableEq τ] in
/-- The step takes no effect and does not return. -/
theorem advance_stay (hcounter : s'.counter = s.counter)
    (hphase : pc'.phase max_count = pc.phase max_count) (hout : pc' ≠ .out) :
    Advance (Counter.Legal max_count) t s.counter (pc.phase max_count) s'.counter
      (pc'.phase max_count) (seen t s s' pc pc') := by
  have hseen : seen t s s' pc pc' = [] := by
    unfold seen effect
    rw [hcounter, if_pos rfl, if_neg hout, List.append_nil]
  rw [hcounter, hphase, hseen]
  exact .stay _

omit [DecidableEq τ] in
/-- The step takes effect and does not return. -/
theorem advance_commit {op : SemOp} {r : Option Bool} (hpc : pc.phase max_count = .pending op)
    (hlegal : Counter.Legal max_count op s.counter r s'.counter)
    (hpc' : pc'.phase max_count = .done op r) :
    Advance (Counter.Legal max_count) t s.counter (pc.phase max_count) s'.counter
      (pc'.phase max_count) (seen t s s' pc pc') := by
  have hout : pc' ≠ .out := by
    rintro rfl
    cases hpc'
  rw [hpc, hpc', seen, if_neg hout, List.append_nil]
  exact .commit hlegal

omit [DecidableEq τ] in
/-- The step returns and takes no effect any more. -/
theorem advance_ret (hcounter : s'.counter = s.counter)
    (hpc : pc.phase max_count = .done pc.answer.1 pc.answer.2) :
    Advance (Counter.Legal max_count) t s.counter (pc.phase max_count) s'.counter
      (SemPc.out.phase max_count) (seen t s s' pc .out) := by
  have hseen : seen t s s' pc .out = [.returned t pc.answer.1 pc.answer.2] := by
    unfold seen effect
    rw [hcounter, if_pos rfl, if_pos rfl, List.nil_append]
  rw [hcounter, hpc, hseen]
  exact .ret _ _

omit [DecidableEq τ] in
/-- The step takes effect and returns. -/
theorem advance_commitRet (hpc : pc.phase max_count = .pending pc.answer.1)
    (hlegal : Counter.Legal max_count pc.answer.1 s.counter pc.answer.2 s'.counter) :
    Advance (Counter.Legal max_count) t s.counter (pc.phase max_count) s'.counter
      (SemPc.out.phase max_count) (seen t s s' pc .out) := by
  rw [hpc, seen, if_pos rfl]
  exact .commitRet hlegal

omit [DecidableEq τ] in
theorem SemGo.advance (hmax : s.max_count_ = max_count) (h : SemGo s pc pc') :
    Advance (Counter.Legal max_count) t s.counter (pc.phase max_count) s.counter
      (pc'.phase max_count) (seen t s s pc pc') := by
  cases h with
  | acquireStops hstop => exact advance_commitRet rfl (.giveUp hstop)
  | load =>
      by_cases hfull : max_count ≤ s.count_
      · exact advance_commit rfl (.refuse (.inl hfull)) (if_pos hfull)
      · exact advance_stay rfl (if_neg hfull) (by simp)
  | room c hstop hroom =>
      refine advance_stay rfl ?_ (by simp)
      exact (if_neg (by omega)).symm
  | _ => exact advance_stay rfl rfl (by simp)

theorem SemStep.advance (hmax : s.max_count_ = max_count) (hfits : pc.Fits max_count)
    (h : SemStep t s pc s' pc') :
    Advance (Counter.Legal max_count) t s.counter (pc.phase max_count) s'.counter
      (pc'.phase max_count) (seen t s s' pc pc') := by
  cases h with
  | go h => exact h.advance hmax
  | lock h => cases h <;> exact advance_stay rfl rfl (by simp)
  | unlock h =>
      cases h with
      | acquire => exact advance_stay rfl rfl (by simp)
      | release | stop => exact advance_ret rfl rfl
  | @take c h =>
      subst h
      exact advance_commitRet rfl (.acquire hfits)
  | @accept c h =>
      subst h
      have hlegal : Counter.Legal max_count .tryRelease s.counter (some true)
          ⟨s.count_ + 1, s.stopped_⟩ := .release hfits.2
      split
      · exact advance_commit rfl hlegal rfl
      · exact advance_commitRet rfl hlegal
  | @reject c h =>
      by_cases hfull : max_count ≤ c
      · exact advance_ret rfl (if_pos hfull)
      · refine advance_commitRet (if_neg hfull) (.refuse (.inr ?_))
        exact h.resolve_right (by rwa [hmax])
  | store => exact advance_commit rfl (.stop _) rfl
  | block | notifyOne | notifyAll => exact advance_stay rfl rfl (by simp)

end

/-! ## Every run -/

structure Follows (max_count : ℤ) (s : Traced) : Prop where
  counted : Counted s.sem s.pc
  capacity : s.sem.max_count_ = max_count
  run : AtomicRun (Counter.Legal max_count) ⟨0, false⟩ s.history s.sem.counter
    fun t => (s.pc t).phase max_count

theorem phase_update (max_count : ℤ) (table : Table τ) (t : τ) (pc : SemPc) :
    (fun u => (Function.update table t pc u).phase max_count) =
      Function.update (fun u => (table u).phase max_count) t (pc.phase max_count) := by
  funext u
  exact Function.apply_update (fun _ (pc : SemPc) => pc.phase max_count) table t pc u

theorem Follows.step {max_count : ℤ} {s s' : Traced} {a : TracedAction}
    (hs : Follows max_count s) (h : tracedStep s a = some s') : Follows max_count s' := by
  cases a with
  | call t op =>
      simp only [tracedStep] at h
      split at h
      · rename_i hout
        cases h
        refine ⟨hs.counted.call t op, hs.capacity, ?_⟩
        have hrun := hs.run.call (t := t) (by rw [hout]; rfl) op
        rw [phase_update]
        cases op <;> exact hrun
      · cases h
  | step t fails wake =>
      obtain ⟨⟨sem, pc⟩, hsem, rfl⟩ := Option.map_eq_some_iff.mp h
      have hstep := semStep_cases hsem
      refine ⟨hs.counted.step hstep, hstep.max_count.trans hs.capacity, ?_⟩
      have hfits := hs.counted.fits t
      rw [hs.capacity] at hfits
      rw [phase_update]
      exact hs.run.advance (hstep.advance hs.capacity hfits)
  | spurious t =>
      cases h
      exact ⟨{ hs.counted with }, hs.capacity, hs.run⟩

theorem Follows.of_reach {max_count : ℤ} {s : Traced} (h : (tracedMachine max_count).Reach s) :
    Follows max_count s := by
  refine h.invariant (P := Follows max_count) ?_ fun s a t _ hs _ hst => hs.step hst
  rintro s rfl
  exact ⟨Counted.new _, rfl, .start⟩

/-- Under every schedule, the history is one of the atomic bounded counter, each call that
has returned took effect once and between its call and its return, and the count is the
successful releases minus the decrementing acquires, between zero and `max_count`. -/
theorem refines_counter {max_count : ℤ} (hmax : 0 ≤ max_count) {s : Traced}
    (h : (tracedMachine max_count).Reach s) :
    AtomicRun (Counter.Legal max_count) ⟨0, false⟩ s.history s.sem.counter
      (fun t => (s.pc t).phase max_count) ∧
    TakesEffectOnce (Counter.Legal max_count) ⟨0, false⟩ s.history ∧
    (0 ≤ s.sem.count_ ∧ s.sem.count_ ≤ max_count) ∧
    s.sem.count_ = s.sem.accepted - s.sem.taken := by
  have hs := Follows.of_reach h
  have hcapacity : max 0 s.sem.max_count_ = max_count := by
    rw [hs.capacity]
    exact max_eq_right hmax
  exact ⟨hs.run, hs.run.takesEffectOnce, ⟨hs.counted.nonneg, hcapacity ▸ hs.counted.le_max⟩,
    hs.counted.count⟩

/-- A release and an acquire that overlap. -/
theorem refines_counter_overlapping :
    ∃ s : Traced, (tracedMachine 1).Reach s ∧
      s.history = [.called 0 .tryRelease, .changed 0 ⟨0, false⟩ ⟨1, false⟩, .called 1 .acquire,
        .changed 1 ⟨1, false⟩ ⟨0, false⟩, .returned 1 .acquire none,
        .returned 0 .tryRelease (some true)] ∧
      TakesEffectOnce (Counter.Legal 1) ⟨0, false⟩ s.history := by
  obtain ⟨s, hreach, hhistory⟩ := Machine.ReachBy.of_exec
    (M := tracedMachine 1) (G := fun _ _ => True) ⟨.new 1, fun _ => .out, []⟩
    ([.call 0 .tryRelease] ++ List.replicate 3 (.step 0 false none) ++ [.call 1 .acquire] ++
      List.replicate 2 (.step 1 false none) ++ List.replicate 3 (.step 0 false none))
    (fun s => s.history = [.called 0 .tryRelease, .changed 0 ⟨0, false⟩ ⟨1, false⟩,
      .called 1 .acquire, .changed 1 ⟨1, false⟩ ⟨0, false⟩, .returned 1 .acquire none,
      .returned 0 .tryRelease (some true)]) rfl (by decide)
  exact ⟨s, hreach, hhistory, (refines_counter (by decide) hreach).2.1⟩

end Semaphore
