import CcmakeTemplate.AsyncPool.Completion

/-!
# The pool never gets stuck

With room for one message and at least one worker, nobody waits forever: a client that posts
is not left asleep, and the destructor returns. A pool where nobody can move is one whose
workers all sleep beside an empty queue, or one that is destroyed.
-/

namespace AsyncPool

open Concurrency BlockingQueue Spdlog

variable {L S M : Type}

/-- No worker and no client can take a step; new posts are not counted. -/
def Quiet (b : Backend L S M) (threads_n : ℕ) (s : State L S M) : Prop :=
  (∀ i wake throws, workerStep b i wake throws s = none) ∧
    ∀ c wake, clientStep threads_n c wake s = none

section

variable {b : Backend L S M} {q_max_items threads_n : ℕ} {s : State L S M}
  {G : State L S M → Action L M → Prop}

/-- Whoever can move in the queue can move in the pool. -/
theorem Quiet.queue (hmax : q_max_items + 1 < sizeTRange)
    (h : (machine b q_max_items threads_n).ReachBy G s) (hquiet : Quiet b threads_n s) :
    BlockingQueue.Quiet s.queue := by
  intro t wake
  cases hpc : s.queuePc t with
  | none => simp [BlockingQueue.step, State.queue, hpc]
  | some pc =>
      have hknows := knows_of_reach hmax h hpc
      suffices hstep : queueStep t wake s.q_ pc = none by
        simp [BlockingQueue.step, State.queue, hpc, hstep]
      by_contra hne
      obtain ⟨⟨q, next⟩, hstep⟩ := Option.ne_none_iff_exists'.mp hne
      cases t with
      | worker i =>
          have hnone := hquiet.1 i wake none
          cases hworker : s.workerPc i with
          | loop pc' =>
              have hpc' : some pc' = some pc := (congrArg WorkerPc.queuePc hworker).symm.trans hpc
              cases hpc'
              have hof := Dequeueing.of_reach h i pc hworker
              cases (queueStep_cases hstep).dequeues hof hknows with
              | keep hsame hhand => simp [workerStep, hworker, hstep] at hnone
              | take => simp [workerStep, hworker, hstep] at hnone
              | answer hsame hhand => simp [workerStep, hworker, hstep] at hnone
          | call number calls =>
              have hpc' : none = some pc := (congrArg WorkerPc.queuePc hworker).symm.trans hpc
              cases hpc'
          | ended =>
              have hpc' : none = some pc := (congrArg WorkerPc.queuePc hworker).symm.trans hpc
              cases hpc'
      | client c =>
          have hnone := hquiet.2 c wake
          cases hclient : s.clientPc c with
          | post pc' =>
              have hpc' : some pc' = some pc := (congrArg ClientPc.queuePc hclient).symm.trans hpc
              cases hpc'
              cases next <;> simp [clientStep, hclient, hstep] at hnone
          | destroyPost i pc' =>
              have hpc' : pc' = some pc := (congrArg ClientPc.queuePc hclient).symm.trans hpc
              cases hpc'
              cases next <;> simp [clientStep, hclient, hstep] at hnone
          | out | construct | release | destroyJoin =>
              have hpc' : none = some pc := (congrArg ClientPc.queuePc hclient).symm.trans hpc
              cases hpc'

/-- Who cannot move sleeps, has ended or waits for the end of a worker. -/
theorem Quiet.worker (hquiet : Quiet b threads_n s) (i : ℕ) :
    s.queuePc (.worker i) ≠ none ∨ s.workerPc i = .ended := by
  have hnone := hquiet.1 i none none
  cases hpc : s.workerPc i with
  | loop pc =>
      have hsome : s.queuePc (.worker i) = some pc := congrArg WorkerPc.queuePc hpc
      exact .inl (hsome ▸ Option.some_ne_none pc)
  | call number calls => cases calls <;> simp [workerStep, hpc] at hnone
  | ended => exact .inr rfl

theorem Quiet.client (hquiet : Quiet b threads_n s) (c : ℕ) :
    s.queuePc (.client c) ≠ none ∨ s.clientPc c = .out ∨
      ∃ i, s.clientPc c = .destroyJoin i ∧ i < s.threads_ ∧ s.workerPc i ≠ .ended := by
  have hnone := hquiet.2 c none
  cases hpc : s.clientPc c with
  | out => exact .inr (.inl rfl)
  | construct =>
      simp only [clientStep, hpc] at hnone
      split at hnone
      · cases hnone
      · split at hnone <;> cases hnone
  | post pc =>
      have hsome : s.queuePc (.client c) = some pc := congrArg ClientPc.queuePc hpc
      exact .inl (hsome ▸ Option.some_ne_none pc)
  | release => simp [clientStep, hpc] at hnone
  | destroyPost i pc =>
      cases pc with
      | none =>
          simp only [clientStep, hpc] at hnone
          split at hnone <;> cases hnone
      | some pc =>
          have hsome : s.queuePc (.client c) = some pc := congrArg ClientPc.queuePc hpc
          exact .inl (hsome ▸ Option.some_ne_none pc)
  | destroyJoin i =>
      simp only [clientStep, hpc] at hnone
      split at hnone
      · rename_i hlt
        refine .inr (.inr ⟨i, rfl, hlt, fun hended => ?_⟩)
        simp [hended] at hnone
      · cases hnone

/-! ## Sleepers -/

/-- A sleeping worker carries nothing. -/
theorem asleep_hand (hinv : Inv q_max_items s.queue) {i : ℕ}
    (h : .worker i ∈ s.q_.push_cv_ ∨ s.workerPc i = .ended) : (s.workerPc i).hand = none := by
  rcases h with hmem | hended
  · obtain ⟨timed, hpc⟩ := hinv.consumers _ hmem
    change (s.workerPc i).queuePc = some (.dequeueWaiting timed) at hpc
    cases hworker : s.workerPc i with
    | loop pc =>
        rw [hworker] at hpc
        cases hpc
        rfl
    | call number calls => rfl
    | ended => rfl
  · rw [hended]
    rfl

theorem Dequeueing.not_producer (hs : Dequeueing s) (hinv : Inv q_max_items s.queue) (i : ℕ) :
    .worker i ∉ s.q_.pop_cv_ := by
  intro hmem
  obtain ⟨msg, hpc⟩ := hinv.producers _ hmem
  change (s.workerPc i).queuePc = some (.enqueueWaiting msg) at hpc
  cases hworker : s.workerPc i with
  | loop pc =>
      rw [hworker] at hpc
      cases hpc
      cases hs i _ hworker
  | call | ended =>
      rw [hworker] at hpc
      cases hpc

/-- A sleeping client sleeps in `enqueue`: it posts a message, or it is the destructor. -/
theorem Life.sleeper (hs : Life threads_n s) (hinv : Inv q_max_items s.queue) {c : ℕ}
    (h : .client c ∈ s.q_.push_cv_ ∨ .client c ∈ s.q_.pop_cv_) :
    .client c ∈ s.q_.pop_cv_ ∧ (s.phase = .alive ∨
      ∃ i msg, s.clientPc c = .destroyPost i (some (.enqueueWaiting msg)) ∧
        s.phase = .destroying ∧ i < s.threads_) := by
  have hfits := hs.fits c
  rcases h with hmem | hmem
  · obtain ⟨timed, hpc⟩ := hinv.consumers _ hmem
    change (s.clientPc c).queuePc = some (.dequeueWaiting timed) at hpc
    cases hclient : s.clientPc c with
    | post pc =>
        rw [hclient] at hpc hfits
        cases hpc
        obtain ⟨request, policy, hof⟩ := hfits
        cases policy <;> cases timed <;> cases hof
    | destroyPost i pc =>
        rw [hclient] at hpc hfits
        cases hpc
        obtain ⟨-, -, hof⟩ := hfits
        cases timed <;> cases hof
    | out | construct | release | destroyJoin =>
        rw [hclient] at hpc
        cases hpc
  · refine ⟨hmem, ?_⟩
    obtain ⟨msg, hpc⟩ := hinv.producers _ hmem
    change (s.clientPc c).queuePc = some (.enqueueWaiting msg) at hpc
    cases hclient : s.clientPc c with
    | post pc => exact .inl (hs.posting (by rw [hclient]; rfl))
    | destroyPost i pc =>
        rw [hclient] at hpc hfits
        cases hpc
        exact .inr ⟨i, msg, rfl, hfits.1, hfits.2.1⟩
    | out | construct | release | destroyJoin =>
        rw [hclient] at hpc
        cases hpc

/-! ## The quiet pool -/

/-- What a quiet pool looks like. -/
structure AtRest (s : State L S M) : Prop where
  workers : ∀ i, .worker i ∈ s.q_.push_cv_ ∨ s.workerPc i = .ended
  clients : ∀ c, .client c ∈ s.q_.pop_cv_ ∨ s.clientPc c = .out ∨
    ∃ i, s.clientPc c = .destroyJoin i ∧ i < s.threads_ ∧ s.workerPc i ≠ .ended
  consumers : s.q_.push_cv_ ≠ [] → s.q_.q_.items = []
  producers : s.q_.pop_cv_ ≠ [] → s.q_.push_cv_ = []

theorem Quiet.atRest (hmax : q_max_items + 1 < sizeTRange) (hitems : q_max_items ≠ 0)
    (h : (machine b q_max_items threads_n).Reach s) (hquiet : Quiet b threads_n s) :
    AtRest s := by
  have hinv := Inv.of_reach hmax (queue_reach h)
  obtain ⟨hasleep, hconsumers, hproducers⟩ :=
    sleepers_of_quiet hmax (queue_reach h) (hquiet.queue hmax h)
  refine ⟨fun i => ?_, fun c => ?_, hconsumers, fun hne => ?_⟩
  · refine (hquiet.worker i).imp_left fun hpc => ?_
    exact (hasleep (.worker i) hpc).resolve_right
      ((Dequeueing.of_reach h).not_producer hinv i)
  · refine (hquiet.client c).imp_left fun hpc => ?_
    exact ((Life.of_reach h).sleeper hinv (hasleep (.client c) hpc)).1
  · by_contra hsleep
    have hfull : s.q_.q_.items.length = q_max_items := hproducers hne
    have hempty : s.q_.q_.items = [] := hconsumers hsleep
    rw [hempty] at hfull
    exact hitems hfull.symm

/-- In a pool at rest, the `terminate`s that were taken have ended their workers. -/
theorem AtRest.taken (hs : AtRest s) (hinv : Inv q_max_items s.queue) (hhanded : Handed s) :
    terminates s.q_.taken = terminates s.returned :=
  (hhanded.perm (hands_nil fun i _ => asleep_hand hinv (hs.workers i))).countP_eq _

theorem terminates_taken_le (haccounted : Accounted s.q_) :
    terminates s.q_.taken ≤ terminates s.q_.pushed := by
  have hle : terminates (s.q_.taken ++ s.q_.q_.items) ≤ terminates s.q_.pushed :=
    haccounted.order.countP_le
  rw [terminates_append] at hle
  omega

/-- No client waits for anything. -/
theorem AtRest.clients_out (hs : AtRest s) (hmax : q_max_items + 1 < sizeTRange)
    (h : (machine b q_max_items threads_n).Reach s) (c : ℕ) : s.clientPc c = .out := by
  have hinv := Inv.of_reach hmax (queue_reach h)
  have hlife := Life.of_reach h
  have haccounted : Accounted s.q_ := accounted_of_reach hmax (queue_reach h)
  have hterminated := Terminated.of_reach hmax h
  have hended := Ended.of_reach h
  have htaken := hs.taken hinv (Handed.of_reach hmax h)
  have hle := terminates_taken_le haccounted
  rcases hs.clients c with hmem | hout | ⟨i, hpc, hi, hrunning⟩
  · -- somebody sleeps beside a full queue, so all workers have ended
    have hnil := hs.producers (List.ne_nil_of_mem hmem)
    have hall : terminates s.returned = s.threads_ := by
      refine hended.all.mpr fun i _ => (hs.workers i).resolve_left ?_
      rw [hnil]
      exact List.not_mem_nil
    exfalso
    rcases (hlife.sleeper hinv (.inr hmem)).2 with halive | ⟨i, msg, hpc, hphase, hi⟩
    · obtain ⟨hthreads, hn⟩ := hlife.hired (by simp [halive]) (by simp [halive])
      have hzero := hterminated.before (by simp [halive]) (by simp [halive])
      omega
    · have hsent := hterminated.sent c
      rw [hpc] at hsent
      change terminates s.q_.pushed = i + 0 at hsent
      omega
  · exact hout
  · -- a worker that is waited for sleeps beside an empty queue, so all `terminate`s are taken
    exfalso
    have hsleep := (hs.workers i).resolve_right hrunning
    have hempty := hs.consumers (List.ne_nil_of_mem hsleep)
    have hsent := hterminated.sent c
    rw [hpc] at hsent
    change terminates s.q_.pushed = s.threads_ at hsent
    have hperm := haccounted.perm.countP_eq AsyncMsg.isTerminate
    rw [hempty, List.append_nil] at hperm
    have hsplit : terminates s.q_.pushed = terminates s.q_.taken + terminates s.q_.overrun :=
      hperm.trans (terminates_append _ _)
    rw [hterminated.kept] at hsplit
    exact hrunning (hended.all.mp (by omega) i hi)

/-- The constructor throws only for a number of workers that it refuses. -/
theorem failed_of_reach (h : (machine b q_max_items threads_n).ReachBy G s) :
    s.phase = .failed → threads_n = 0 ∨ 1000 < threads_n := by
  refine h.invariant (P := fun s => s.phase = .failed → threads_n = 0 ∨ 1000 < threads_n) ?_ ?_
  · rintro s rfl hfailed
    cases hfailed
  · intro s a s' hreach hs _ hst
    have hdrop : ∀ owner c, (s.drop owner c).phase = .failed →
        threads_n = 0 ∨ 1000 < threads_n := by
      intro owner c
      unfold State.drop
      split
      · intro hfailed
        cases hfailed
      · exact hs
    cases step_cases hst with
    | worker h =>
        rw [h.moves.2.2.2.1]
        exact hs
    | client h =>
        cases h with
        | fails hpc hn => exact fun _ => hn
        | built | joined =>
            intro hfailed
            cases hfailed
        | release => exact hdrop _ _
        | _ => exact hs
    | reset => exact hdrop _ _
    | refused | post | spurious => exact hs

/-- When nobody can move, no client is waiting, and either the pool is alive and all its workers
sleep beside an empty queue, or it is destroyed and all workers have ended. -/
theorem quiet_done (hmax : q_max_items + 1 < sizeTRange) (hitems : q_max_items ≠ 0)
    (hn : threads_n ≠ 0) (hn' : threads_n ≤ 1000)
    (h : (machine b q_max_items threads_n).Reach s) (hquiet : Quiet b threads_n s) :
    (∀ c, s.clientPc c = .out) ∧ s.q_.q_.items = [] ∧
      ((s.phase = .alive ∧ ∀ i < threads_n, .worker i ∈ s.q_.push_cv_) ∨
        s.phase = .destroyed ∧ ∀ i, s.workerPc i = .ended) := by
  have hrest := hquiet.atRest hmax hitems h
  have hout := hrest.clients_out hmax h
  have hlife := Life.of_reach h
  have hidle : ¬ s.phase.managed = true := by
    obtain ⟨m, hexact, hm⟩ := hlife.manager
    intro hmanaged
    obtain ⟨c, rfl⟩ := Option.ne_none_iff_exists'.mp (hm.mpr hmanaged)
    have hmanages : (s.clientPc c).manages = true := (hexact c).mp rfl
    rw [hout c] at hmanages
    cases hmanages
  cases hphase : s.phase with
  | constructing | destroying =>
      rw [hphase] at hidle
      exact absurd rfl hidle
  | failed =>
      have hrefused := failed_of_reach h hphase
      omega
  | alive =>
      have hzero : terminates s.q_.pushed = 0 :=
        (Terminated.of_reach hmax h).before (by simp [hphase]) (by simp [hphase])
      have hle := terminates_taken_le (accounted_of_reach hmax (queue_reach h))
      have htaken := hrest.taken (Inv.of_reach hmax (queue_reach h)) (Handed.of_reach hmax h)
      have hnone : terminates s.returned = 0 := by
        change terminates s.q_.taken ≤ terminates s.q_.pushed at hle
        omega
      obtain ⟨hthreads, -⟩ := hlife.hired (by simp [hphase]) (by simp [hphase])
      have hasleep : ∀ i < threads_n, .worker i ∈ s.q_.push_cv_ := fun i hi =>
        (hrest.workers i).resolve_right ((Ended.of_reach h).nobody hnone (hthreads ▸ hi))
      refine ⟨hout, hrest.consumers ?_, .inl ⟨rfl, hasleep⟩⟩
      exact List.ne_nil_of_mem (hasleep 0 (Nat.pos_of_ne_zero hn))
  | destroyed =>
      exact ⟨hout, (destroyed_queue hmax h hphase).2,
        .inr ⟨rfl, (Joined.of_reach h).ended hphase⟩⟩

end

/-- One worker sleeps and waits for the first message. -/
theorem quiet_done_idle :
    4 + 1 < sizeTRange ∧ ∃ s : State Unit Bool ℕ, (machine twoSinks 4 1).Reach s ∧
      Quiet twoSinks 1 s ∧ s.q_.push_cv_ = [.worker 0] ∧ ∀ c, s.clientPc c = .out := by
  have hmax : 4 + 1 < sizeTRange := by decide
  have h := Machine.ReachBy.start (M := machine twoSinks 4 1) (G := fun _ _ => True)
    (s := State.initial 4) rfl
      |>.next (a := .client 0 none) trivial rfl |>.next (a := .client 0 none) trivial rfl
      |>.next (a := .worker 0 none none) trivial rfl
      |>.next (a := .worker 0 none none) trivial rfl
      |>.next (a := .worker 0 none none) trivial rfl
  refine ⟨hmax, _, h, ?_, rfl, (quiet_done hmax (by decide) (by decide) (by decide) h ?_).1⟩
  all_goals
    refine ⟨fun i wake throws => ?_, fun c wake => ?_⟩
    · cases i <;> rfl
    · cases c <;> rfl

end AsyncPool
