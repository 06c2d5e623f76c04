import CcmakeTemplate.AsyncPool.Completion

/-!
# One worker keeps the order

With one worker, the messages go through the sinks in the order in which they were pushed,
and when nothing is overrun, none of them is left out.
-/

namespace AsyncPool

open Concurrency BlockingQueue Spdlog

variable {L S M : Type}

/-- Nobody posts with `overrun_oldest`. -/
def NeverOverruns (_ : State L S M) : Action L M → Prop
  | .post _ _ policy => policy ≠ .overrunOldest
  | _ => True

instance (s : State L S M) : ∀ a : Action L M, Decidable (NeverOverruns s a)
  | .post _ _ policy => inferInstanceAs (Decidable (policy ≠ .overrunOldest))
  | .worker _ _ _ | .client _ _ | .reset _ | .spurious _ => inferInstanceAs (Decidable True)

section

variable {b : Backend L S M} {q_max_items threads_n : ℕ} {s s' : State L S M}

/-- The queue of a pool where nobody overruns anything. -/
theorem never_overruns_queue (h : (machine b q_max_items threads_n).ReachBy NeverOverruns s) :
    (BlockingQueue.machine Thread (AsyncMsg L M) q_max_items).ReachBy NeverNowait s.queue := by
  refine (queue_refines b q_max_items threads_n _ _ fun s a q a' hG ha => ?_).reach h
  cases ha with
  | post c request policy h =>
      subst h
      cases policy with
      | overrunOldest => exact absurd rfl hG
      | _ => rfl
  | _ => trivial

/-- The calls that a worker still has to make. -/
def WorkerPc.todo : WorkerPc L S M → List (SinkCall S M)
  | .call _ calls => calls
  | _ => []

/-- The only worker works through its messages one after the other. -/
structure InOrder (b : Backend L S M) (s : State L S M) : Prop where
  visits : s.visits.map Prod.snd ++ (s.workerPc 0).todo = s.returned.flatMap b.calls
  taken : s.q_.taken = s.returned ++ (s.workerPc 0).hand.toList

theorem process_todo (b : Backend L S M) (number : ℕ) (msg : AsyncMsg L M) :
    (process b number msg).todo = b.calls msg := by
  cases msg <;> rfl

theorem WorkerStep.inOrder (h : WorkerStep b 0 s s')
    (hof : ∀ pc, s.workerPc 0 = .loop pc → pc.Of .dequeue ∧ pc.Knows s.q_.q_)
    (hs : InOrder b s) : InOrder b s' := by
  obtain ⟨hvisits, htaken⟩ := hs
  cases h with
  | @move pc pc' wake q hpc h =>
      obtain ⟨hdequeue, hknows⟩ := hof pc hpc
      rw [hpc] at hvisits htaken
      have hdequeues := (queueStep_cases h).dequeues hdequeue hknows
      constructor
      · rw [goWorker_self]
        exact hvisits
      · rw [goWorker_self]
        cases hdequeues with
        | keep hsame hhand =>
            refine hsame.taken.trans (htaken.trans ?_)
            exact congrArg (s.returned ++ Option.toList ·) hhand.symm
        | @take msg hfree hitems htaken' =>
            have hnil : s.q_.taken = s.returned := by
              rw [htaken, show (WorkerPc.loop pc : WorkerPc L S M).hand = none from hfree]
              exact List.append_nil _
            exact htaken'.trans (congrArg (· ++ [msg]) hnil)
  | @takes pc wake q msg hpc h =>
      obtain ⟨hdequeue, hknows⟩ := hof pc hpc
      rw [hpc] at hvisits htaken
      have hdequeues := (queueStep_cases h).dequeues hdequeue hknows
      constructor
      · rw [goWorker_self, process_todo]
        change s.visits.map Prod.snd ++ b.calls msg = (s.returned ++ [msg]).flatMap b.calls
        change s.visits.map Prod.snd ++ [] = _ at hvisits
        rw [List.append_nil] at hvisits
        rw [hvisits, List.flatMap_append, List.flatMap_singleton]
      · rw [goWorker_self, process_hand]
        cases hdequeues with
        | answer hsame hhand =>
            refine hsame.taken.trans (htaken.trans ?_)
            rw [show (WorkerPc.loop pc : WorkerPc L S M).hand = some msg from hhand]
            exact (List.append_nil _).symm
  | @visit number call calls throws hpc =>
      rw [hpc] at hvisits htaken
      constructor
      · rw [goWorker_self]
        change (s.visits ++ [(number, call)]).map Prod.snd ++ calls = _
        rw [List.map_append, List.append_assoc]
        exact hvisits
      · rw [goWorker_self]
        exact htaken
  | again hpc =>
      rw [hpc] at hvisits htaken
      constructor
      · rw [goWorker_self]
        exact hvisits
      · rw [goWorker_self]
        exact htaken

theorem InOrder.of_reach {G : State L S M → Action L M → Prop}
    (hmax : q_max_items + 1 < sizeTRange) (h : (machine b q_max_items 1).ReachBy G s) :
    InOrder b s := by
  refine h.invariant (P := InOrder b) ?_ ?_
  · rintro s rfl
    exact ⟨rfl, rfl⟩
  · intro s a s' hreach hs _ hst
    have hired := HiredUpTo.of_reach hreach
    rcases (step_cases hst).worker_or_rests (Life.of_reach hreach) with ⟨i, h⟩ | h
    · have hi := hired.lt h.moves.1
      have hfew := (Life.of_reach hreach).few
      obtain rfl : i = 0 := by omega
      refine h.inOrder (fun pc hpc => ?_) hs
      refine ⟨Dequeueing.of_reach hreach 0 pc hpc, knows_of_reach hmax hreach (t := .worker 0) ?_⟩
      exact congrArg WorkerPc.queuePc hpc
    · have hworker : (s'.workerPc 0).todo = (s.workerPc 0).todo ∧
          (s'.workerPc 0).hand = (s.workerPc 0).hand := by
        rcases h.workers with ⟨hpcs, -⟩ | ⟨hpcs, -⟩
        · rw [hpcs]
          exact ⟨rfl, rfl⟩
        · rw [hpcs]
          by_cases hfirst : 0 = s.threads_
          · rw [← hfirst, Function.update_self, hired 0 hfirst.symm.le]
            exact ⟨rfl, rfl⟩
          · rw [Function.update_of_ne hfirst]
            exact ⟨rfl, rfl⟩
      constructor
      · rw [h.visits, h.returned, hworker.1]
        exact hs.visits
      · rw [h.taken, h.returned, hworker.2]
        exact hs.taken

/-- With one worker, and when no client posts with `overrun_oldest`, the calls of the sinks
are those of the messages pushed, one message after the other. None is left out when the
destructor has returned. -/
theorem one_worker_in_order (hmax : q_max_items + 1 < sizeTRange)
    (h : (machine b q_max_items 1).ReachBy NeverOverruns s) :
    s.visits.map Prod.snd <+: s.q_.pushed.flatMap b.calls ∧
      (s.phase = .destroyed → s.visits.map Prod.snd = s.q_.pushed.flatMap b.calls) := by
  have hqueue := never_overruns_queue h
  have hfifo : s.q_.pushed = s.q_.taken ++ s.q_.q_.items :=
    (accounted_of_reach hmax hqueue.reach).fifo (never_overrun hmax hqueue).1
  obtain ⟨hvisits, htaken⟩ := InOrder.of_reach hmax h
  constructor
  · rw [hfifo, htaken, List.append_assoc, List.flatMap_append, ← hvisits, List.append_assoc]
    exact List.prefix_append _ _
  · intro hphase
    have hended := (Joined.of_reach h).ended hphase 0
    rw [hended] at hvisits htaken
    change s.visits.map Prod.snd ++ [] = _ at hvisits
    change s.q_.taken = s.returned ++ [] at htaken
    rw [List.append_nil] at hvisits htaken
    rw [hfifo, (destroyed_queue hmax h hphase).2, List.append_nil, htaken, hvisits]

end

/-- Two messages reach the sinks in their order. -/
theorem one_worker_in_order_two :
    4 + 1 < sizeTRange ∧ ∃ s : State Unit Bool ℕ, (machine twoSinks 4 1).ReachBy NeverOverruns s ∧
      s.q_.pushed = [.log () 7, .log () 8] ∧
      s.visits.map Prod.snd <+: [.log false 7, .flush false, .flush true, .log false 8,
        .log true 8, .flush false, .flush true] := by
  have hmax : 4 + 1 < sizeTRange := by decide
  let post (n : ℕ) : List (Action Unit ℕ) :=
    .post 0 (.sinkIt () n) .block :: List.replicate 6 (.client 0 none)
  obtain ⟨s, hreach, hpushed⟩ := Machine.ReachBy.of_exec (M := machine twoSinks 4 1)
    (G := NeverOverruns) (State.initial 4)
    ([.client 0 none, .client 0 none] ++ post 7 ++ post 8 ++
      List.replicate 7 (.worker 0 none none))
    (fun s => s.q_.pushed = [.log () 7, .log () 8]) rfl (by decide)
  have horder := (one_worker_in_order hmax hreach).1
  rw [hpushed] at horder
  exact ⟨hmax, s, hreach, hpushed, horder⟩

end AsyncPool
