import CcmakeTemplate.AsyncPool.Model
import CcmakeTemplate.BlockingQueue.Wakeup

/-!
# What one step of the pool can do

The step functions of the model, inverted once. Seen from the queue, the workers and the
clients are threads that call its methods, so every run of the pool is a run of the queue.
-/

namespace AsyncPool

open Concurrency BlockingQueue

variable {L S M : Type}

/-! ## The steps -/

inductive WorkerStep (b : Backend L S M) (i : ℕ) (s : State L S M) : State L S M → Prop
  | move {pc pc' : QueuePc (AsyncMsg L M)} {wake : Option Thread}
      {q : MpmcBlockingQueue Thread (AsyncMsg L M)} (hpc : s.workerPc i = .loop pc)
      (h : queueStep (.worker i) wake s.q_ pc = some (q, .inl pc')) :
      WorkerStep b i s ({ s with q_ := q }.goWorker i (.loop pc'))
  | takes {pc : QueuePc (AsyncMsg L M)} {wake : Option Thread}
      {q : MpmcBlockingQueue Thread (AsyncMsg L M)} {msg : AsyncMsg L M}
      (hpc : s.workerPc i = .loop pc)
      (h : queueStep (.worker i) wake s.q_ pc = some (q, .inr (.item msg))) :
      WorkerStep b i s ({ s with q_ := q, returned := s.returned ++ [msg] }.goWorker i
        (process b s.returned.length msg))
  | visit {number : ℕ} {call : SinkCall S M} {calls : List (SinkCall S M)}
      (throws : Option String) (hpc : s.workerPc i = .call number (call :: calls)) :
      WorkerStep b i s ({ s with
        visits := s.visits ++ [(number, call)]
        errors := s.errors ++ throws.toList }.goWorker i (.call number calls))
  | again {number : ℕ} (hpc : s.workerPc i = .call number []) :
      WorkerStep b i s (s.goWorker i (.loop (.dequeueLock false)))

inductive ClientStep (threads_n c : ℕ) (s : State L S M) : State L S M → Prop
  | fails (hpc : s.clientPc c = .construct) (hn : threads_n = 0 ∨ 1000 < threads_n) :
      ClientStep threads_n c s
        ({ s with phase := .failed, errors := s.errors ++ [invalidThreads] }.goClient c .out)
  | hire (hpc : s.clientPc c = .construct) (hlt : s.threads_ < threads_n) :
      ClientStep threads_n c s ({ s with threads_ := s.threads_ + 1 }.goWorker s.threads_
        (.loop (.dequeueLock false)))
  | built (hpc : s.clientPc c = .construct) (hn : threads_n ≠ 0) (hge : threads_n ≤ s.threads_) :
      ClientStep threads_n c s
        ({ s with phase := .alive, owners := [.registry] }.goClient c .out)
  | postMove {pc pc' : QueuePc (AsyncMsg L M)} {wake : Option Thread}
      {q : MpmcBlockingQueue Thread (AsyncMsg L M)} (hpc : s.clientPc c = .post pc)
      (h : queueStep (.client c) wake s.q_ pc = some (q, .inl pc')) :
      ClientStep threads_n c s ({ s with q_ := q }.goClient c (.post pc'))
  | posted {pc : QueuePc (AsyncMsg L M)} {wake : Option Thread}
      {q : MpmcBlockingQueue Thread (AsyncMsg L M)} {answer : Answer (AsyncMsg L M)}
      (hpc : s.clientPc c = .post pc)
      (h : queueStep (.client c) wake s.q_ pc = some (q, .inr answer)) :
      ClientStep threads_n c s ({ s with q_ := q }.goClient c .release)
  | release (hpc : s.clientPc c = .release) : ClientStep threads_n c s (s.drop (.client c) c)
  | terminate {i : ℕ} (hpc : s.clientPc c = .destroyPost i none) (hlt : i < s.threads_) :
      ClientStep threads_n c s (s.goClient c (.destroyPost i (some (.enqueueLock .terminate))))
  | terminated {i : ℕ} (hpc : s.clientPc c = .destroyPost i none) (hge : s.threads_ ≤ i) :
      ClientStep threads_n c s (s.goClient c (.destroyJoin 0))
  | destroyMove {i : ℕ} {pc pc' : QueuePc (AsyncMsg L M)} {wake : Option Thread}
      {q : MpmcBlockingQueue Thread (AsyncMsg L M)}
      (hpc : s.clientPc c = .destroyPost i (some pc))
      (h : queueStep (.client c) wake s.q_ pc = some (q, .inl pc')) :
      ClientStep threads_n c s ({ s with q_ := q }.goClient c (.destroyPost i (some pc')))
  | destroySent {i : ℕ} {pc : QueuePc (AsyncMsg L M)} {wake : Option Thread}
      {q : MpmcBlockingQueue Thread (AsyncMsg L M)} {answer : Answer (AsyncMsg L M)}
      (hpc : s.clientPc c = .destroyPost i (some pc))
      (h : queueStep (.client c) wake s.q_ pc = some (q, .inr answer)) :
      ClientStep threads_n c s ({ s with q_ := q }.goClient c (.destroyPost (i + 1) none))
  | join {i : ℕ} (hpc : s.clientPc c = .destroyJoin i) (hlt : i < s.threads_)
      (hended : s.workerPc i = .ended) :
      ClientStep threads_n c s (s.goClient c (.destroyJoin (i + 1)))
  | joined {i : ℕ} (hpc : s.clientPc c = .destroyJoin i) (hge : s.threads_ ≤ i) :
      ClientStep threads_n c s ({ s with phase := .destroyed }.goClient c .out)

inductive Step (b : Backend L S M) (threads_n : ℕ) (s : State L S M) :
    Action L M → State L S M → Prop
  | worker {i : ℕ} {wake : Option Thread} {throws : Option String} {s' : State L S M}
      (h : WorkerStep b i s s') : Step b threads_n s (.worker i wake throws) s'
  | client {c : ℕ} {wake : Option Thread} {s' : State L S M} (h : ClientStep threads_n c s s') :
      Step b threads_n s (.client c wake) s'
  | refused (c : ℕ) (request : Request L M) (policy : AsyncOverflowPolicy)
      (hgone : s.owners = []) :
      Step b threads_n s (.post c request policy)
        { s with errors := s.errors ++ [request.refusal] }
  | post {c : ℕ} (request : Request L M) (policy : AsyncOverflowPolicy)
      (hpc : s.clientPc c = .out) (hlive : s.owners ≠ []) :
      Step b threads_n s (.post c request policy)
        ({ s with owners := .client c :: s.owners }.goClient c
          (.post (policy.op request.msg).entry))
  | reset {c : ℕ} (hpc : s.clientPc c = .out) (howner : .registry ∈ s.owners) :
      Step b threads_n s (.reset c) (s.drop .registry c)
  | spurious (t : Thread) : Step b threads_n s (.spurious t) { s with q_ := s.q_.unblock t }

variable {b : Backend L S M} {threads_n : ℕ} {s s' : State L S M}

theorem workerStep_cases {i : ℕ} {wake : Option Thread} {throws : Option String}
    (h : workerStep b i wake throws s = some s') : WorkerStep b i s s' := by
  cases hpc : s.workerPc i with
  | loop pc =>
      simp only [workerStep, hpc] at h
      split at h
      · rename_i hq
        cases h
        exact .move hpc hq
      · rename_i hq
        cases h
        exact .takes hpc hq
      · cases h
  | call number calls =>
      cases calls with
      | nil =>
          simp only [workerStep, hpc] at h
          cases h
          exact .again hpc
      | cons call calls =>
          simp only [workerStep, hpc] at h
          cases h
          exact .visit throws hpc
  | ended => simp [workerStep, hpc] at h

theorem clientStep_cases {c : ℕ} {wake : Option Thread}
    (h : clientStep threads_n c wake s = some s') : ClientStep threads_n c s s' := by
  cases hpc : s.clientPc c with
  | out => simp [clientStep, hpc] at h
  | construct =>
      simp only [clientStep, hpc] at h
      split at h
      · rename_i hn
        cases h
        exact .fails hpc hn
      · rename_i hn
        split at h
        · rename_i hlt
          cases h
          exact .hire hpc hlt
        · rename_i hge
          cases h
          exact .built hpc (fun hzero => hn (.inl hzero)) (Nat.le_of_not_lt hge)
  | post pc =>
      simp only [clientStep, hpc] at h
      split at h
      · rename_i hq
        cases h
        exact .postMove hpc hq
      · rename_i hq
        cases h
        exact .posted hpc hq
      · cases h
  | release =>
      simp only [clientStep, hpc] at h
      cases h
      exact .release hpc
  | destroyPost i pc =>
      cases pc with
      | none =>
          simp only [clientStep, hpc] at h
          split at h
          · rename_i hlt
            cases h
            exact .terminate hpc hlt
          · rename_i hge
            cases h
            exact .terminated hpc (Nat.le_of_not_lt hge)
      | some pc =>
          simp only [clientStep, hpc] at h
          split at h
          · rename_i hq
            cases h
            exact .destroyMove hpc hq
          · rename_i hq
            cases h
            exact .destroySent hpc hq
          · cases h
  | destroyJoin i =>
      simp only [clientStep, hpc] at h
      split at h
      · rename_i hlt
        split at h
        · rename_i hended
          cases h
          exact .join hpc hlt hended
        · cases h
      · rename_i hge
        cases h
        exact .joined hpc (Nat.le_of_not_lt hge)

theorem step_cases {a : Action L M} (h : step b threads_n s a = some s') :
    Step b threads_n s a s' := by
  cases a with
  | worker i wake throws => exact .worker (workerStep_cases h)
  | client c wake => exact .client (clientStep_cases h)
  | post c request policy =>
      simp only [step] at h
      split at h
      · cases h
      · rename_i hpc _
        split at h
        · rename_i hgone
          cases h
          exact .refused c request policy hgone
        · rename_i hlive
          cases h
          exact .post request policy hpc hlive
      · cases h
  | reset c =>
      simp only [step] at h
      split at h
      · rename_i hpc
        split at h
        · rename_i howner
          cases h
          exact .reset hpc howner
        · cases h
      · cases h
  | spurious t =>
      cases h
      exact .spurious t

/-! ## The queue of the pool -/

/-- Where the thread is inside the queue. -/
def WorkerPc.queuePc : WorkerPc L S M → Option (QueuePc (AsyncMsg L M))
  | .loop pc => some pc
  | _ => none

def ClientPc.queuePc : ClientPc L M → Option (QueuePc (AsyncMsg L M))
  | .post pc => some pc
  | .destroyPost _ pc => pc
  | _ => none

def State.queuePc (s : State L S M) : Thread → Option (QueuePc (AsyncMsg L M))
  | .worker i => (s.workerPc i).queuePc
  | .client c => (s.clientPc c).queuePc

/-- What is left of the pool when one looks at its queue only. -/
def State.queue (s : State L S M) : BlockingQueue.State Thread (AsyncMsg L M) :=
  ⟨s.q_, s.queuePc⟩

theorem queue_goWorker (s : State L S M) (i : ℕ) (pc : WorkerPc L S M) :
    (s.goWorker i pc).queue = s.queue.go (.worker i) pc.queuePc := by
  refine congrArg (BlockingQueue.State.mk s.q_) (funext fun t => ?_)
  cases t with
  | worker j =>
      by_cases hji : j = i
      · subst hji
        simp [State.queuePc, State.queue]
      · simp [State.queuePc, State.queue, hji]
  | client c => rfl

theorem queue_goClient (s : State L S M) (c : ℕ) (pc : ClientPc L M) :
    (s.goClient c pc).queue = s.queue.go (.client c) pc.queuePc := by
  refine congrArg (BlockingQueue.State.mk s.q_) (funext fun t => ?_)
  cases t with
  | worker i => rfl
  | client d =>
      by_cases hdc : d = c
      · subst hdc
        simp [State.queuePc, State.queue]
      · simp [State.queuePc, State.queue, hdc]

/-- A step of the pool outside the queue, for a thread that stays outside. -/
theorem queue_go_none {q : BlockingQueue.State Thread (AsyncMsg L M)} {t : Thread}
    (h : q.pc t = none) : q.go t none = q := by
  have hsame : Function.update q.pc t none = q.pc := by
    rw [← h, Function.update_eq_self]
  exact congrArg (BlockingQueue.State.mk q.queue) hsame

theorem queue_drop (s : State L S M) (owner : Owner) (c : ℕ)
    (h : (s.clientPc c).queuePc = none) : (s.drop owner c).queue = s.queue := by
  have hpc : s.queue.pc (.client c) = none := h
  unfold State.drop
  split
  · rw [queue_goClient]
    exact queue_go_none hpc
  · rw [queue_goClient]
    exact queue_go_none hpc

theorem process_queuePc (b : Backend L S M) (number : ℕ) (msg : AsyncMsg L M) :
    (process b number msg).queuePc = none := by
  cases msg <;> rfl

/-- A worker that moves has been hired and has not ended. -/
theorem WorkerStep.moves {i : ℕ} (h : WorkerStep b i s s') :
    s.workerPc i ≠ .ended ∧ s'.threads_ = s.threads_ ∧ s'.clientPc = s.clientPc ∧
      s'.phase = s.phase ∧ s'.owners = s.owners ∧
      ∃ pc, s'.workerPc = Function.update s.workerPc i pc := by
  cases h with
  | move hpc h => exact ⟨by simp [hpc], rfl, rfl, rfl, rfl, _, rfl⟩
  | takes hpc h => exact ⟨by simp [hpc], rfl, rfl, rfl, rfl, _, rfl⟩
  | visit throws hpc => exact ⟨by simp [hpc], rfl, rfl, rfl, rfl, _, rfl⟩
  | again hpc => exact ⟨by simp [hpc], rfl, rfl, rfl, rfl, _, rfl⟩

theorem drop_workers (s : State L S M) (owner : Owner) (c : ℕ) :
    (s.drop owner c).workerPc = s.workerPc ∧ (s.drop owner c).threads_ = s.threads_ ∧
      (s.drop owner c).q_ = s.q_ ∧ (s.drop owner c).returned = s.returned ∧
      (s.drop owner c).visits = s.visits := by
  unfold State.drop
  split <;> exact ⟨rfl, rfl, rfl, rfl, rfl⟩

/-- Nobody has been hired behind the first `threads_` workers. -/
def HiredUpTo (s : State L S M) : Prop := ∀ i, s.threads_ ≤ i → s.workerPc i = .ended

theorem HiredUpTo.of_reach {q_max_items : ℕ} {G : State L S M → Action L M → Prop}
    (h : (machine b q_max_items threads_n).ReachBy G s) : HiredUpTo s := by
  refine h.invariant (P := HiredUpTo) ?_ ?_
  · rintro s rfl i -
    rfl
  · intro s a s' _ hs _ hst
    cases step_cases hst with
    | @worker i _ _ _ h =>
        obtain ⟨hne, hthreads, -, -, -, pc, hpcs⟩ := h.moves
        intro j hj
        have hji : j ≠ i := by
          rintro rfl
          exact hne (hs j (hthreads ▸ hj))
        rw [hpcs, Function.update_of_ne hji]
        exact hs j (hthreads ▸ hj)
    | client h =>
        cases h with
        | hire hpc hlt =>
            intro j hj
            have hne : j ≠ s.threads_ := by
              rintro rfl
              exact Nat.not_succ_le_self _ hj
            exact (Function.update_of_ne hne ..).trans (hs j (Nat.le_of_succ_le hj))
        | release hpc =>
            obtain ⟨hpcs, hthreads, -⟩ := drop_workers s (.client _) _
            intro j hj
            rw [hpcs]
            exact hs j (hthreads ▸ hj)
        | _ => exact hs
    | reset hpc howner =>
        obtain ⟨hpcs, hthreads, -⟩ := drop_workers s .registry _
        intro j hj
        rw [hpcs]
        exact hs j (hthreads ▸ hj)
    | refused | post | spurious => exact hs

/-! ## The queue makes every step that the pool makes -/

/-- The calls of the queue's methods by the pool. -/
inductive Calls (a : Action L M) : BlockingQueue.Action Thread (AsyncMsg L M) → Prop
  | dequeue (i : ℕ) : Calls a (.call (.worker i) .dequeue)
  | post (c : ℕ) (request : Request L M) (policy : AsyncOverflowPolicy)
      (h : a = .post c request policy) :
      Calls a (.call (.client c) (policy.op request.msg))
  | terminate (c : ℕ) : Calls a (.call (.client c) (.enqueue .terminate))
  | step (t : Thread) (wake : Option Thread) : Calls a (.step t wake)
  | spurious (t : Thread) : Calls a (.spurious t)

theorem queue_call {q : BlockingQueue.State Thread (AsyncMsg L M)} {t : Thread}
    (hpc : q.pc t = none) (op : Op (AsyncMsg L M)) :
    BlockingQueue.step q (.call t op) = some (q.go t (some op.entry)) := by
  simp [BlockingQueue.step, hpc]

theorem queue_step {q : BlockingQueue.State Thread (AsyncMsg L M)} {t : Thread}
    {wake : Option Thread} {pc : QueuePc (AsyncMsg L M)}
    {queue : MpmcBlockingQueue Thread (AsyncMsg L M)} {next : Next (AsyncMsg L M)}
    (hpc : q.pc t = some pc) (h : queueStep t wake q.queue pc = some (queue, next)) :
    BlockingQueue.step q (.step t wake) =
      some ({ q with queue := queue }.go t next.getLeft?) := by
  simp [BlockingQueue.step, hpc, h]

theorem WorkerStep.queue {i : ℕ} (h : WorkerStep b i s s') (a : Action L M) :
    s'.queue = s.queue ∨ ∃ a', Calls a a' ∧ BlockingQueue.step s.queue a' = some s'.queue := by
  cases h with
  | @move pc pc' wake q hpc h =>
      refine .inr ⟨.step (.worker i) wake, .step _ _, ?_⟩
      have hpc' : s.queue.pc (.worker i) = some pc := congrArg WorkerPc.queuePc hpc
      rw [queue_goWorker]
      exact queue_step hpc' h
  | @takes pc wake q msg hpc h =>
      refine .inr ⟨.step (.worker i) wake, .step _ _, ?_⟩
      have hpc' : s.queue.pc (.worker i) = some pc := congrArg WorkerPc.queuePc hpc
      rw [queue_goWorker, process_queuePc]
      exact queue_step hpc' h
  | visit throws hpc =>
      refine .inl ?_
      rw [queue_goWorker]
      exact queue_go_none (congrArg WorkerPc.queuePc hpc)
  | again hpc =>
      refine .inr ⟨.call (.worker i) .dequeue, .dequeue i, ?_⟩
      rw [queue_goWorker]
      exact queue_call (congrArg WorkerPc.queuePc hpc) .dequeue

theorem ClientStep.queue {c : ℕ} (hired : HiredUpTo s) (h : ClientStep threads_n c s s')
    (a : Action L M) :
    s'.queue = s.queue ∨ ∃ a', Calls a a' ∧ BlockingQueue.step s.queue a' = some s'.queue := by
  cases h with
  | fails hpc | built hpc | terminated hpc | join hpc | joined hpc =>
      refine .inl ?_
      rw [queue_goClient]
      exact queue_go_none (congrArg ClientPc.queuePc hpc)
  | hire hpc hlt =>
      refine .inr ⟨.call (.worker s.threads_) .dequeue, .dequeue _, ?_⟩
      rw [queue_goWorker]
      exact queue_call (congrArg WorkerPc.queuePc (hired _ le_rfl)) .dequeue
  | @postMove pc pc' wake q hpc h | @destroyMove i pc pc' wake q hpc h =>
      refine .inr ⟨.step (.client c) wake, .step _ _, ?_⟩
      have hpc' : s.queue.pc (.client c) = some pc := congrArg ClientPc.queuePc hpc
      rw [queue_goClient]
      exact queue_step hpc' h
  | @posted pc wake q answer hpc h | @destroySent i pc wake q answer hpc h =>
      refine .inr ⟨.step (.client c) wake, .step _ _, ?_⟩
      have hpc' : s.queue.pc (.client c) = some pc := congrArg ClientPc.queuePc hpc
      rw [queue_goClient]
      exact queue_step hpc' h
  | release hpc => exact .inl (queue_drop s _ c (congrArg ClientPc.queuePc hpc))
  | terminate hpc hlt =>
      refine .inr ⟨.call (.client c) (.enqueue .terminate), .terminate c, ?_⟩
      rw [queue_goClient]
      exact queue_call (congrArg ClientPc.queuePc hpc) (.enqueue .terminate)

theorem Step.queue {a : Action L M} (hired : HiredUpTo s) (h : Step b threads_n s a s') :
    s'.queue = s.queue ∨ ∃ a', Calls a a' ∧ BlockingQueue.step s.queue a' = some s'.queue := by
  cases h with
  | worker h => exact h.queue _
  | client h => exact h.queue hired _
  | refused => exact .inl rfl
  | @post c request policy hpc hlive =>
      refine .inr ⟨.call (.client c) (policy.op request.msg), .post c request policy rfl, ?_⟩
      rw [queue_goClient]
      exact queue_call (congrArg ClientPc.queuePc hpc) _
  | reset hpc howner => exact .inl (queue_drop s _ _ (congrArg ClientPc.queuePc hpc))
  | spurious t => exact .inr ⟨.spurious t, .spurious t, rfl⟩

/-- Every run of the pool is a run of its queue. -/
theorem queue_refines (b : Backend L S M) (q_max_items threads_n : ℕ)
    (G : State L S M → Action L M → Prop)
    (H : BlockingQueue.State Thread (AsyncMsg L M) →
      BlockingQueue.Action Thread (AsyncMsg L M) → Prop)
    (hGH : ∀ s a q a', G s a → Calls a a' → H q a') :
    (machine b q_max_items threads_n).Refines G
      (BlockingQueue.machine Thread (AsyncMsg L M) q_max_items) H State.queue where
  init := by
    rintro s rfl
    refine congrArg (BlockingQueue.State.mk _) (funext fun t => ?_)
    cases t with
    | worker i => rfl
    | client c =>
        by_cases hc : c = 0
        · subst hc
          rfl
        · simp [State.queuePc, State.initial, Function.update_of_ne hc, ClientPc.queuePc]
  step := by
    intro s a s' hreach hG hst
    rcases (step_cases hst).queue (HiredUpTo.of_reach hreach) with hsame | ⟨a', ha', hstep⟩
    · exact .inl hsame
    · exact .inr ⟨a', hGH s a _ a' hG ha', hstep⟩

theorem queue_reach {q_max_items : ℕ} {G : State L S M → Action L M → Prop}
    (h : (machine b q_max_items threads_n).ReachBy G s) :
    (BlockingQueue.machine Thread (AsyncMsg L M) q_max_items).Reach s.queue :=
  (queue_refines b q_max_items threads_n G (fun _ _ => True) fun _ _ _ _ _ _ => trivial).reach h

end AsyncPool
