import CcmakeTemplate.AsyncPool.Delivery
import CcmakeTemplate.BlockingQueue.Wakeup

/-!
# How the pool ends

The destructor posts one `terminate` for each worker, behind all that was posted before, and
each worker ends at one of them. So the queue is empty when all workers have ended, and every
message that is not overrun has been through the sinks.
-/

namespace AsyncPool

open Concurrency BlockingQueue Spdlog

variable {L S M : Type}

def AsyncMsg.isTerminate : AsyncMsg L M → Bool
  | .terminate => true
  | _ => false

/-- How many of the messages are `terminate`. -/
def terminates (msgs : List (AsyncMsg L M)) : ℕ := msgs.countP AsyncMsg.isTerminate

theorem terminates_append (msgs msgs' : List (AsyncMsg L M)) :
    terminates (msgs ++ msgs') = terminates msgs + terminates msgs' :=
  List.countP_append

theorem terminates_eq_zero {msgs : List (AsyncMsg L M)} :
    terminates msgs = 0 ↔ ∀ msg ∈ msgs, msg.isTerminate = false := by
  simp only [terminates, List.countP_eq_zero, Bool.not_eq_true]

theorem Request.not_terminate (request : Request L M) : request.msg.isTerminate = false := by
  cases request <;> rfl

/-- The `terminate`s that the client has posted, as its program point tells. -/
def ClientPc.Sent (threads_ n : ℕ) : ClientPc L M → Prop
  | .construct => n = 0
  | .destroyPost i none => n = i
  | .destroyPost i (some pc) => n = i + pc.sent.toNat
  | .destroyJoin _ => n = threads_
  | _ => True

theorem ClientPc.Sent.elsewhere {threads_ n : ℕ} {pc : ClientPc L M} (h : pc.manages = false) :
    pc.Sent threads_ n := by
  cases pc with
  | out | release | post => trivial
  | construct | destroyPost | destroyJoin => cases h

/-- Where the `terminate`s are. -/
structure Terminated (s : State L S M) : Prop where
  sent : ∀ c, (s.clientPc c).Sent s.threads_ (terminates s.q_.pushed)
  before : s.phase ≠ .destroying → s.phase ≠ .destroyed → terminates s.q_.pushed = 0
  after : s.phase = .destroyed → terminates s.q_.pushed = s.threads_
  kept : terminates s.q_.overrun = 0
  last : terminates s.q_.pushed ≠ 0 → s.q_.pushed.getLast? = some .terminate

section

variable {b : Backend L S M} {q_max_items threads_n : ℕ} {s s' : State L S M} {c : ℕ}
  {pc : ClientPc L M} {G : State L S M → Action L M → Prop}

/-! ## One step -/

theorem Terminated.congr (hs : Terminated s) (hpushed : s'.q_.pushed = s.q_.pushed)
    (hoverrun : s'.q_.overrun = s.q_.overrun) (hpcs : s'.clientPc = s.clientPc)
    (hphase : s'.phase = s.phase) (hthreads : s'.threads_ = s.threads_) : Terminated s' where
  sent := by
    rw [hpcs, hthreads, hpushed]
    exact hs.sent
  before := by
    rw [hphase, hpushed]
    exact hs.before
  after := by
    rw [hphase, hpushed, hthreads]
    exact hs.after
  kept := hoverrun ▸ hs.kept
  last := by
    rw [hpushed]
    exact hs.last

/-- A client goes on, and the queue has the same contents. -/
theorem Terminated.go (hs : Terminated s) {q : MpmcBlockingQueue Thread (AsyncMsg L M)}
    (hsame : SameContents s.q_ q) (hpc : pc.Sent s.threads_ (terminates s.q_.pushed)) :
    Terminated ({ s with q_ := q }.goClient c pc) where
  sent := by
    change ∀ d, (Function.update s.clientPc c pc d).Sent s.threads_ (terminates q.pushed)
    rw [hsame.pushed]
    exact forall_update hs.sent hpc
  before := hsame.pushed ▸ hs.before
  after := hsame.pushed ▸ hs.after
  kept := (congrArg terminates hsame.overrun).trans hs.kept
  last := hsame.pushed ▸ hs.last

/-- Another phase; `c` is alone in the constructor or in the destructor. -/
theorem Terminated.settle (hs : Terminated s) (hlife : Life threads_n s)
    (hpc : (s.clientPc c).manages = true) {phase : Phase} {owners : List Owner}
    {errors : List String}
    (hbefore : phase ≠ .destroyed → terminates s.q_.pushed = 0)
    (hafter : phase = .destroyed → terminates s.q_.pushed = s.threads_) :
    Terminated
      ({ s with phase := phase, owners := owners, errors := errors }.goClient c .out) where
  sent := by
    intro d
    by_cases hdc : d = c
    · subst hdc
      rw [goClient_self]
      trivial
    · rw [goClient_of_ne _ _ hdc]
      exact .elsewhere (hlife.alone hpc hdc)
  before := fun _ hdestroyed => hbefore hdestroyed
  after := hafter
  kept := hs.kept
  last := hs.last

theorem Terminated.drop (hs : Terminated s) (hlife : Life threads_n s) {owner : Owner}
    (howner : owner ∈ s.owners) : Terminated (s.drop owner c) := by
  have halive : s.phase = .alive := hlife.alive.mp (List.ne_nil_of_mem howner)
  have hzero : terminates s.q_.pushed = 0 := hs.before (by simp [halive]) (by simp [halive])
  unfold State.drop
  split
  · refine ⟨forall_update hs.sent hzero, fun _ _ => hzero, ?_, hs.kept, hs.last⟩
    intro hdestroyed
    cases hdestroyed
  · exact ⟨forall_update hs.sent trivial, hs.before, hs.after, hs.kept, hs.last⟩

/-- A client posts something else; nothing that is in the queue is a `terminate`. -/
theorem Terminated.post (hs : Terminated s) (hlife : Life threads_n s)
    (haccounted : Accounted s.q_) {pc : QueuePc (AsyncMsg L M)} (hpc : s.clientPc c = .post pc)
    (hmax : s.q_.q_.max_items_ ≠ 0) (request : Request L M) (pc' : QueuePc (AsyncMsg L M)) :
    Terminated ({ s with q_ := s.q_.pushBack request.msg }.goClient c (.post pc')) := by
  have halive : s.phase = .alive := hlife.posting (by rw [hpc]; rfl)
  have hzero : terminates (s.q_.pushed ++ [request.msg]) = 0 := by
    rw [terminates_append, hs.before (by simp [halive]) (by simp [halive]), Nat.zero_add,
      terminates_eq_zero]
    exact fun msg hmsg => List.mem_singleton.mp hmsg ▸ request.not_terminate
  have hvictim : terminates (victim s.q_.q_ request.msg) = 0 := by
    refine terminates_eq_zero.mpr fun msg hmsg => terminates_eq_zero.mp hzero msg ?_
    have hmem : msg ∈ s.q_.q_.items ++ [request.msg] := by
      rw [push_items hmax]
      exact List.mem_append_left _ hmsg
    exact (List.mem_append.mp hmem).elim
      (fun h => List.mem_append_left _ (haccounted.newest.mem h)) (List.mem_append_right _)
  constructor
  · intro d
    by_cases hdc : d = c
    · subst hdc
      rw [goClient_self]
      trivial
    · rw [goClient_of_ne _ _ hdc]
      exact .elsewhere (hlife.nobody (by rw [halive]; rfl) d)
  · exact fun _ _ => hzero
  · intro hdestroyed
    cases halive.symm.trans hdestroyed
  · change terminates (s.q_.overrun ++ victim s.q_.q_ request.msg) = 0
    rw [terminates_append, hs.kept, hvictim]
  · exact fun hne => absurd hzero hne

/-- The destructor posts a `terminate`. -/
theorem Terminated.terminate (hs : Terminated s) (hlife : Life threads_n s) {i : ℕ}
    {pc pc' : QueuePc (AsyncMsg L M)} (hpc : s.clientPc c = .destroyPost i (some pc))
    (hphase : s.phase = .destroying) (hunsent : pc.sent = false) (hsent : pc'.sent = true)
    (hoverrun : (s.q_.pushBack .terminate).overrun = s.q_.overrun) :
    Terminated ({ s with q_ := s.q_.pushBack .terminate }.goClient c
      (.destroyPost i (some pc'))) where
  sent := by
    intro d
    by_cases hdc : d = c
    · subst hdc
      have hold : terminates s.q_.pushed = i + pc.sent.toNat := by
        have hold := hs.sent d
        rwa [hpc] at hold
      rw [goClient_self]
      change terminates (s.q_.pushed ++ [.terminate]) = i + pc'.sent.toNat
      rw [terminates_append, hold, hunsent, hsent]
      rfl
    · rw [goClient_of_ne _ _ hdc]
      refine .elsewhere (hlife.alone (c := c) ?_ hdc)
      rw [hpc]
      rfl
  before := fun hdestroying _ => absurd hphase hdestroying
  after := by
    intro hdestroyed
    cases hphase.symm.trans hdestroyed
  kept := (congrArg terminates hoverrun).trans hs.kept
  last := fun _ => List.getLast?_concat

theorem WorkerStep.keeps_terminated {i : ℕ} (h : WorkerStep b i s s')
    (hof : ∀ pc, s.workerPc i = .loop pc → pc.Of .dequeue ∧ pc.Knows s.q_.q_)
    (hs : Terminated s) : Terminated s' := by
  obtain ⟨-, hthreads, hpcs, hphase, -⟩ := h.moves
  have hsame : s'.q_.pushed = s.q_.pushed ∧ s'.q_.overrun = s.q_.overrun := by
    cases h with
    | move hpc h =>
        obtain ⟨hdequeue, hknows⟩ := hof _ hpc
        cases (queueStep_cases h).dequeues hdequeue hknows with
        | keep hsame => exact ⟨hsame.pushed, hsame.overrun⟩
        | take hfree hitems htaken hpushed hoverrun => exact ⟨hpushed, hoverrun⟩
    | takes hpc h =>
        obtain ⟨hdequeue, hknows⟩ := hof _ hpc
        cases (queueStep_cases h).dequeues hdequeue hknows with
        | answer hsame => exact ⟨hsame.pushed, hsame.overrun⟩
    | visit | again => exact ⟨rfl, rfl⟩
  exact hs.congr hsame.1 hsame.2 hpcs hphase hthreads

theorem ClientStep.keeps_terminated (h : ClientStep threads_n c s s') (hlife : Life threads_n s)
    (haccounted : Accounted s.q_) (hmax : s.q_.q_.max_items_ ≠ 0)
    (hknows : ∀ pc, (s.clientPc c).queuePc = some pc → pc.Knows s.q_.q_) (hs : Terminated s) :
    Terminated s' := by
  have hfits := hlife.fits c
  have hsent := hs.sent c
  cases h with
  | fails hpc hn =>
      rw [hpc] at hsent
      have hmanages : (s.clientPc c).manages = true := by rw [hpc]; rfl
      exact hs.settle hlife hmanages (fun _ => hsent) (by simp)
  | hire hpc hlt =>
      rw [hpc] at hfits
      refine ⟨fun d => ?_, hs.before, ?_, hs.kept, hs.last⟩
      · by_cases hdc : d = c
        · subst hdc
          change (s.clientPc d).Sent (s.threads_ + 1) (terminates s.q_.pushed)
          rw [hpc] at hsent ⊢
          exact hsent
        · refine .elsewhere (hlife.alone (c := c) ?_ hdc)
          rw [hpc]
          rfl
      · intro hdestroyed
        cases hfits.symm.trans hdestroyed
  | built hpc hn hge =>
      rw [hpc] at hsent
      have hmanages : (s.clientPc c).manages = true := by rw [hpc]; rfl
      exact hs.settle hlife hmanages (fun _ => hsent) (by simp)
  | @postMove pc pc' wake q hpc h =>
      rw [hpc] at hfits
      obtain ⟨request, policy, hof⟩ := hfits
      cases (queueStep_cases h).sends hof (policy.op_item _) with
      | keep hsame _ => exact hs.go hsame trivial
      | push _ hpush =>
          subst hpush
          exact hs.post hlife haccounted hpc hmax request _
  | @posted pc wake q answer hpc h =>
      rw [hpc] at hfits
      obtain ⟨request, policy, hof⟩ := hfits
      cases (queueStep_cases h).sends hof (policy.op_item _) with
      | keep hsame _ => exact hs.go hsame trivial
  | release hpc => exact hs.drop hlife ((hlife.owns c).mpr (by rw [hpc]; rfl))
  | @terminate i hpc hlt =>
      rw [hpc] at hsent
      exact hs.go (.refl s.q_) hsent
  | @terminated i hpc hge =>
      rw [hpc] at hfits hsent
      exact hs.go (.refl s.q_) (hsent.trans (Nat.le_antisymm hfits.2 hge))
  | @destroyMove i pc pc' wake q hpc h =>
      rw [hpc] at hfits hsent hknows
      obtain ⟨hphase, hlt, hof⟩ := hfits
      have heffect := queueStep_cases h
      have henqueues := heffect.enqueues hof (hknows pc rfl)
      cases heffect.sends hof rfl with
      | keep hsame hpc' =>
          refine hs.go hsame (hsent.trans ?_)
          rw [hpc' pc' rfl]
      | push hunsent hpush =>
          subst hpush
          exact hs.terminate hlife hpc hphase hunsent rfl henqueues.1
  | @destroySent i pc wake q answer hpc h =>
      rw [hpc] at hfits hsent hknows
      obtain ⟨hphase, hlt, hof⟩ := hfits
      have heffect := queueStep_cases h
      have henqueues := heffect.enqueues hof (hknows pc rfl)
      cases heffect.sends hof rfl with
      | keep hsame _ =>
          refine hs.go hsame (hsent.trans ?_)
          rw [henqueues.2 answer rfl]
          rfl
  | join hpc hlt hended =>
      rw [hpc] at hsent
      exact hs.go (.refl s.q_) hsent
  | joined hpc hge =>
      rw [hpc] at hsent
      have hmanages : (s.clientPc c).manages = true := by rw [hpc]; rfl
      exact hs.settle hlife hmanages (by simp) (fun _ => hsent)

theorem Terminated.of_reach (hmax : q_max_items + 1 < sizeTRange)
    (h : (machine b q_max_items threads_n).ReachBy G s) : Terminated s := by
  refine h.invariant (P := Terminated) ?_ ?_
  · rintro s rfl
    refine ⟨fun c => ?_, fun _ _ => rfl, by simp [State.initial], rfl, by simp [State.initial,
      MpmcBlockingQueue.new, terminates]⟩
    rw [initial_clientPc]
    split
    · rfl
    · trivial
  · intro s a s' hreach hs _ hst
    have hlife := Life.of_reach hreach
    have hinv := Inv.of_reach hmax (queue_reach hreach)
    cases step_cases hst with
    | @worker i _ _ _ h =>
        refine h.keeps_terminated (fun pc hpc => ?_) hs
        refine ⟨Dequeueing.of_reach hreach i pc hpc, hinv.knows (.worker i) pc ?_⟩
        exact congrArg WorkerPc.queuePc hpc
    | client h =>
        refine h.keeps_terminated hlife (accounted_of_reach hmax (queue_reach hreach)) ?_
          (fun pc hpc => hinv.knows (.client _) pc hpc) hs
        have hring : s.q_.q_.max_items_ = q_max_items + 1 := hinv.max_items
        rw [hring]
        exact Nat.succ_ne_zero _
    | refused | spurious => exact hs.congr rfl rfl rfl rfl rfl
    | post request policy hpc hlive =>
        exact ⟨forall_update hs.sent trivial, hs.before, hs.after, hs.kept, hs.last⟩
    | reset hpc howner => exact hs.drop hlife howner

end

end AsyncPool
