import CcmakeTemplate.AsyncPool.Shutdown

/-!
# The end of the workers

As many workers have ended as `terminate`s were returned to them. The destructor returns when
all of them have ended, and it always returns.
-/

namespace AsyncPool

open Concurrency BlockingQueue Spdlog

variable {L S M : Type}

def WorkerPc.finished : WorkerPc L S M → Option Unit
  | .ended => some ()
  | _ => none

/-- The workers that have ended. -/
def State.finished (s : State L S M) : Multiset Unit :=
  inHands s.threads_ fun i => (s.workerPc i).finished

def Ended (s : State L S M) : Prop :=
  s.finished = Multiset.replicate (terminates s.returned) ()

/-- A logger with two sinks, of which the second one takes no odd messages. -/
def twoSinks : Backend Unit Bool ℕ where
  sinks_ := fun _ => [false, true]
  shouldLog := fun sink msg => !sink || msg % 2 == 0
  shouldFlush := fun _ _ => true

section

variable {b : Backend L S M} {q_max_items threads_n : ℕ} {s s' : State L S M}
  {G : State L S M → Action L M → Prop}

theorem finished_go {i : ℕ} {pc : WorkerPc L S M} (h : pc.finished = (s.workerPc i).finished) :
    (s.goWorker i pc).finished = s.finished := inHands_go s.threads_ h

theorem WorkerStep.keeps_ended {i : ℕ} (h : WorkerStep b i s s') (hi : i < s.threads_)
    (hs : Ended s) : Ended s' := by
  cases h with
  | @move pc pc' wake q hpc h =>
      have hgo : (s.goWorker i (.loop pc')).finished = s.finished :=
        finished_go (congrArg WorkerPc.finished hpc).symm
      exact hgo.trans hs
  | @takes pc wake q msg hpc h =>
      have hfree : (s.workerPc i).finished = none := congrArg WorkerPc.finished hpc
      unfold Ended
      change (s.goWorker i (process b s.returned.length msg)).finished =
        Multiset.replicate (terminates (s.returned ++ [msg])) ()
      cases hmsg : msg with
      | terminate =>
          have hgo : (s.goWorker i .ended).finished = {()} + s.finished :=
            inHands_go_take hi hfree rfl
          rw [terminates_append]
          exact hgo.trans (congrArg _ hs)
      | log logger m =>
          have hgo : (s.goWorker i (process b s.returned.length (.log logger m))).finished =
              s.finished :=
            finished_go hfree.symm
          rw [terminates_append]
          exact hgo.trans hs
      | flush logger =>
          have hgo : (s.goWorker i (process b s.returned.length (.flush logger))).finished =
              s.finished :=
            finished_go hfree.symm
          rw [terminates_append]
          exact hgo.trans hs
  | @visit number call calls throws hpc =>
      have hgo : (s.goWorker i (.call number calls)).finished = s.finished :=
        finished_go (congrArg WorkerPc.finished hpc).symm
      exact hgo.trans hs
  | again hpc =>
      have hgo : (s.goWorker i (.loop (.dequeueLock false))).finished = s.finished :=
        finished_go (congrArg WorkerPc.finished hpc).symm
      exact hgo.trans hs

theorem Ended.of_reach (h : (machine b q_max_items threads_n).ReachBy G s) : Ended s := by
  refine h.invariant (P := Ended) ?_ ?_
  · rintro s rfl
    exact inHands_nobody fun _ : ℕ => some ()
  · intro s a s' hreach hs _ hst
    rcases (step_cases hst).worker_or_rests (Life.of_reach hreach) with ⟨i, h⟩ | h
    · exact h.keeps_ended ((HiredUpTo.of_reach hreach).lt h.moves.1) hs
    · have hfinished : s'.finished = s.finished := by
        rcases h.workers with ⟨hpcs, hthreads⟩ | ⟨hpcs, hthreads⟩
        · rw [State.finished, hpcs, hthreads]
          rfl
        · rw [State.finished, hpcs, hthreads]
          exact inHands_go_join s.threads_ rfl
      unfold Ended
      rw [hfinished, h.returned]
      exact hs

theorem finished_iff {pc : WorkerPc L S M} : pc.finished.isSome = true ↔ pc = .ended := by
  cases pc <;> simp [WorkerPc.finished]

/-- All workers have ended when each of them has got a `terminate`. -/
theorem Ended.all (hs : Ended s) :
    terminates s.returned = s.threads_ ↔ ∀ i < s.threads_, s.workerPc i = .ended := by
  have hcard := congrArg Multiset.card hs
  rw [Multiset.card_replicate, State.finished, card_inHands] at hcard
  rw [← hcard]
  constructor
  · intro hall i hi
    have hcard' := hall.trans (Finset.card_range s.threads_).symm
    have hsome : (s.workerPc i).finished.isSome = true :=
      Finset.filter_card_eq hcard' i (Finset.mem_range.mpr hi)
    exact finished_iff.mp hsome
  · intro hall
    rw [Finset.filter_true_of_mem, Finset.card_range]
    exact fun i hi => finished_iff.mpr (hall i (Finset.mem_range.mp hi))

/-- No worker has ended before the first `terminate`. -/
theorem Ended.nobody (hs : Ended s) (hzero : terminates s.returned = 0) {i : ℕ}
    (hi : i < s.threads_) : s.workerPc i ≠ .ended := by
  intro hended
  have hcard := congrArg Multiset.card hs
  rw [hzero, Multiset.card_replicate, State.finished, card_inHands, Finset.card_eq_zero] at hcard
  have hmem : i ∈ (Finset.range s.threads_).filter fun i => (s.workerPc i).finished.isSome = true :=
    Finset.mem_filter.mpr ⟨Finset.mem_range.mpr hi, finished_iff.mpr hended⟩
  rw [hcard] at hmem
  cases hmem

/-! ## The destructor waits for all workers -/

structure Joined (s : State L S M) : Prop where
  waited : ∀ c i, s.clientPc c = .destroyJoin i → ∀ j < i, s.workerPc j = .ended
  ended : s.phase = .destroyed → ∀ i, s.workerPc i = .ended

theorem Joined.go (hs : Joined s) {c : ℕ} (pc : ClientPc L M)
    (hpc : ∀ i, pc = .destroyJoin i → ∀ j < i, s.workerPc j = .ended) :
    Joined (s.goClient c pc) := by
  refine ⟨fun d i hd => ?_, hs.ended⟩
  by_cases hdc : d = c
  · subst hdc
    rw [goClient_self] at hd
    exact hpc i hd
  · rw [goClient_of_ne _ _ hdc] at hd
    exact hs.waited d i hd

theorem Joined.drop (hs : Joined s) (owner : Owner) (c : ℕ) : Joined (s.drop owner c) := by
  have hgo := hs.go (c := c)
  unfold State.drop
  split
  · refine ⟨(hgo (.destroyPost 0 none) (by simp)).waited, ?_⟩
    intro hdestroyed
    cases hdestroyed
  · exact ⟨(hgo .out (by simp)).waited, hs.ended⟩

theorem ClientStep.keeps_joined {c : ℕ} (h : ClientStep threads_n c s s')
    (hlife : Life threads_n s) (hired : HiredUpTo s) (hs : Joined s) : Joined s' := by
  have hout := (hs.go (c := c) .out (by simp)).waited
  have hfits := hlife.fits c
  cases h with
  | fails hpc hn =>
      refine ⟨hout, ?_⟩
      intro hdestroyed
      cases hdestroyed
  | built hpc hn hge =>
      refine ⟨hout, ?_⟩
      intro hdestroyed
      cases hdestroyed
  | hire hpc hlt =>
      rw [hpc] at hfits
      have hmanages : (s.clientPc c).manages = true := by rw [hpc]; rfl
      constructor
      · intro d i hd
        change s.clientPc d = .destroyJoin i at hd
        have hdc : d ≠ c := by
          rintro rfl
          cases hpc.symm.trans hd
        have hnot := hlife.alone hmanages hdc
        rw [hd] at hnot
        cases hnot
      · intro hdestroyed
        cases hfits.symm.trans hdestroyed
  | release hpc => exact hs.drop _ _
  | join hpc hlt hended =>
      refine hs.go _ ?_
      rintro i ⟨⟩ j hj
      rcases Nat.lt_succ_iff_lt_or_eq.mp hj with hj | rfl
      · exact hs.waited c _ hpc j hj
      · exact hended
  | joined hpc hge =>
      refine ⟨hout, fun _ i => ?_⟩
      by_cases hi : i < s.threads_
      · exact hs.waited c _ hpc i (Nat.lt_of_lt_of_le hi hge)
      · exact hired i (Nat.le_of_not_lt hi)
  | postMove hpc h =>
      exact ⟨(hs.go (c := c) (.post _) (by simp)).waited, hs.ended⟩
  | posted hpc h => exact ⟨(hs.go (c := c) .release (by simp)).waited, hs.ended⟩
  | destroyMove hpc h | destroySent hpc h =>
      exact ⟨(hs.go (c := c) (.destroyPost _ _) (by simp)).waited, hs.ended⟩
  | terminate hpc hlt => exact hs.go _ (by simp)
  | terminated hpc hge =>
      refine hs.go _ ?_
      rintro i ⟨⟩ j hj
      cases hj

theorem Joined.of_reach (h : (machine b q_max_items threads_n).ReachBy G s) : Joined s := by
  refine h.invariant (P := Joined) ?_ ?_
  · rintro s rfl
    refine ⟨fun c i hpc => ?_, by simp [State.initial]⟩
    rw [initial_clientPc] at hpc
    split at hpc <;> cases hpc
  · intro s a s' hreach hs _ hst
    cases step_cases hst with
    | @worker i _ _ _ h =>
        obtain ⟨hrunning, hthreads, hpcs, hphase, -, pc, hworkers⟩ := h.moves
        have hstays : ∀ j, s.workerPc j = .ended → s'.workerPc j = .ended := by
          intro j hj
          have hji : j ≠ i := by
            rintro rfl
            exact hrunning hj
          rw [hworkers, Function.update_of_ne hji]
          exact hj
        constructor
        · intro c k hpc j hj
          rw [hpcs] at hpc
          exact hstays j (hs.waited c k hpc j hj)
        · intro hdestroyed j
          exact hstays j (hs.ended (hphase.symm.trans hdestroyed) j)
    | client h =>
        exact h.keeps_joined (Life.of_reach hreach) (HiredUpTo.of_reach hreach) hs
    | refused | spurious => exact ⟨hs.waited, hs.ended⟩
    | @post c request policy hpc hlive =>
        exact ⟨(hs.go (c := c) (.post _) (by simp)).waited, hs.ended⟩
    | reset hpc howner => exact hs.drop _ _

/-! ## The destroyed pool -/

/-- Nobody carries a message while no worker is about to leave the queue. -/
theorem hands_nil (h : ∀ i < s.threads_, (s.workerPc i).hand = none) : s.hands = 0 := by
  unfold State.hands inHands
  refine Finset.sum_eq_zero fun i hi => ?_
  have hfree := h i (Finset.mem_range.mp hi)
  simp [hfree]

theorem Handed.perm (hs : Handed s) (h : s.hands = 0) : s.q_.taken.Perm s.returned := by
  unfold Handed at hs
  rw [h, add_zero] at hs
  exact Multiset.coe_eq_coe.mp hs

/-- Behind the last `terminate` there is nothing. -/
theorem items_nil (hs : Terminated s) (haccounted : Accounted s.q_)
    (hsent : terminates s.q_.pushed ≠ 0)
    (htaken : terminates s.q_.pushed ≤ terminates s.q_.taken) : s.q_.q_.items = [] := by
  by_contra hne
  have hlast : AsyncMsg.terminate ∈ s.q_.q_.items := by
    obtain ⟨front, hfront⟩ := haccounted.newest
    have hlast := hs.last hsent
    rw [← hfront, List.getLast?_append_of_ne_nil _ hne] at hlast
    exact List.mem_of_getLast? hlast
  have hleft : 0 < terminates s.q_.q_.items := by
    refine Nat.pos_of_ne_zero fun hzero => ?_
    cases terminates_eq_zero.mp hzero _ hlast
  have hle : terminates (s.q_.taken ++ s.q_.q_.items) ≤ terminates s.q_.pushed :=
    haccounted.order.countP_le
  rw [terminates_append] at hle
  omega

/-- Every call of a sink is one of the calls of a message that was pushed. The calls of one
message are made in order, each of them at most once, and no message is handed out more often
than it was pushed. -/
theorem delivered_at_most_once (hmax : q_max_items + 1 < sizeTRange)
    (h : (machine b q_max_items threads_n).Reach s) :
    (∀ visit ∈ s.visits, ∃ msg, s.returned[visit.1]? = some msg) ∧
      (∀ number msg, s.returned[number]? = some msg → s.callsMade number <+: b.calls msg) ∧
      (s.returned : Multiset (AsyncMsg L M)) ≤ s.q_.pushed := by
  have hvisited := Visited.of_reach h
  have hhanded : (s.q_.taken : Multiset (AsyncMsg L M)) =
      (s.returned : Multiset (AsyncMsg L M)) + s.hands := Handed.of_reach hmax h
  refine ⟨fun visit hvisit => ?_, fun number msg hmsg => ?_, ?_⟩
  · exact ⟨_, List.getElem?_eq_getElem (hvisited.numbered visit hvisit)⟩
  · rcases hvisited.done number msg hmsg with ⟨i, calls, hpc⟩ | hall
    · obtain ⟨msg', hmsg', hcalls⟩ := hvisited.left i number calls hpc
      cases hmsg.symm.trans hmsg'
      exact hcalls ▸ List.prefix_append _ _
    · exact hall ▸ List.prefix_refl _
  · have haccounted : Accounted s.q_ := accounted_of_reach hmax (queue_reach h)
    have hsub : s.q_.taken.Sublist s.q_.pushed :=
      (List.sublist_append_left _ _).trans haccounted.order
    calc (s.returned : Multiset (AsyncMsg L M))
        ≤ (s.returned : Multiset (AsyncMsg L M)) + s.hands := Multiset.le_add_right _ _
      _ = s.q_.taken := hhanded.symm
      _ ≤ s.q_.pushed := Multiset.coe_le.mpr hsub.subperm

/-- One of two calls has been made. -/
theorem delivered_at_most_once_half :
    4 + 1 < sizeTRange ∧ ∃ s : State Unit Bool ℕ, (machine twoSinks 4 1).Reach s ∧
      s.visits = [(0, .flush false)] ∧ s.callsMade 0 <+: [.flush false, .flush true] := by
  have hmax : 4 + 1 < sizeTRange := by decide
  obtain ⟨s, hreach, hvisits, hreturned⟩ := Machine.ReachBy.of_exec (M := machine twoSinks 4 1)
    (G := fun _ _ => True) (State.initial 4)
    ([.client 0 none, .client 0 none, .post 0 (.flush ()) .block] ++
      List.replicate 6 (.client 0 none) ++ List.replicate 6 (.worker 0 none none))
    (fun s => s.visits = [(0, .flush false)] ∧ s.returned = [.flush ()]) rfl (by decide)
  refine ⟨hmax, s, hreach, hvisits, (delivered_at_most_once hmax hreach).2.1 0 (.flush ()) ?_⟩
  rw [hreturned]
  rfl

/-- The end of the destroyed pool, seen from its queue. -/
theorem destroyed_queue (hmax : q_max_items + 1 < sizeTRange)
    (h : (machine b q_max_items threads_n).ReachBy G s) (hphase : s.phase = .destroyed) :
    s.q_.taken.Perm s.returned ∧ s.q_.q_.items = [] := by
  have hended := (Joined.of_reach h).ended hphase
  have hterminated := Terminated.of_reach hmax h
  obtain ⟨hthreads, hn⟩ := (Life.of_reach h).hired (by simp [hphase]) (by simp [hphase])
  have htaken : s.q_.taken.Perm s.returned := by
    refine (Handed.of_reach hmax h).perm (hands_nil fun i _ => ?_)
    rw [hended i]
    rfl
  have hall : terminates s.returned = s.threads_ :=
    (Ended.of_reach h).all.mpr fun i _ => hended i
  have hsent := hterminated.after hphase
  refine ⟨htaken, items_nil hterminated (accounted_of_reach hmax (queue_reach h)) (by omega) ?_⟩
  rw [hsent, ← hall]
  exact (htaken.countP_eq _).symm.le

/-- When the destructor has returned, nothing is left in the queue, and each message that was
not overrun has been through all of its sinks, exactly once and in order. -/
theorem destroyed_done (hmax : q_max_items + 1 < sizeTRange)
    (h : (machine b q_max_items threads_n).Reach s) (hphase : s.phase = .destroyed) :
    (∀ i, s.workerPc i = .ended) ∧ s.q_.q_.items = [] ∧
      s.q_.pushed.Perm (s.returned ++ s.q_.overrun) ∧
      ∀ number msg, s.returned[number]? = some msg → s.callsMade number = b.calls msg := by
  have hended := (Joined.of_reach h).ended hphase
  obtain ⟨htaken, hitems⟩ := destroyed_queue hmax h hphase
  refine ⟨hended, hitems, ?_, fun number msg hmsg => ?_⟩
  · have hperm := (accounted_of_reach hmax (queue_reach h)).perm
    change s.q_.pushed.Perm (s.q_.taken ++ s.q_.overrun ++ s.q_.q_.items) at hperm
    rw [hitems, List.append_nil] at hperm
    exact hperm.trans (htaken.append_right _)
  · refine ((Visited.of_reach h).done number msg hmsg).resolve_left ?_
    rintro ⟨i, calls, hpc⟩
    cases (hended i).symm.trans hpc

end

/-- One worker, one message, and the end. -/
theorem destroyed_done_one :
    4 + 1 < sizeTRange ∧ ∃ s : State Unit Bool ℕ, (machine twoSinks 4 1).Reach s ∧
      s.phase = .destroyed ∧ s.q_.q_.items = [] ∧
      s.q_.pushed.Perm ([.log () 7, .terminate] ++ s.q_.overrun) ∧
      s.callsMade 0 = [.log false 7, .flush false, .flush true] := by
  have hmax : 4 + 1 < sizeTRange := by decide
  obtain ⟨s, hreach, hphase, hreturned⟩ := Machine.ReachBy.of_exec (M := machine twoSinks 4 1)
    (G := fun _ _ => True) (State.initial 4)
    ([.client 0 none, .client 0 none, .post 0 (.sinkIt () 7) .block] ++
      List.replicate 6 (.client 0 none) ++ List.replicate 9 (.worker 0 none none) ++
      .reset 0 :: List.replicate 7 (.client 0 none) ++ List.replicate 5 (.worker 0 none none) ++
      List.replicate 2 (.client 0 none))
    (fun s => s.phase = .destroyed ∧ s.returned = [.log () 7, .terminate]) rfl (by decide)
  obtain ⟨-, hitems, hperm, hcalls⟩ := destroyed_done hmax hreach hphase
  rw [hreturned] at hperm hcalls
  exact ⟨hmax, s, hreach, hphase, hitems, hperm, hcalls 0 _ rfl⟩

end AsyncPool
