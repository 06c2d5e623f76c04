import CcmakeTemplate.AsyncPool.LifeCycle
import CcmakeTemplate.BlockingQueue.Methods

/-!
# What the workers do with the messages

A message that leaves the queue is in the hands of one worker until `dequeue` returns it, and
then this worker makes all its calls to the sinks, in order.
-/

namespace AsyncPool

open Concurrency BlockingQueue Spdlog

variable {L S M : Type}

section

variable {b : Backend L S M} {q_max_items threads_n : ℕ} {s s' : State L S M}
  {G : State L S M → Action L M → Prop}

/-! ## The steps of the workers and the others -/

theorem AsyncOverflowPolicy.op_item (policy : AsyncOverflowPolicy) (msg : AsyncMsg L M) :
    (policy.op msg).item = some msg := by
  cases policy <;> rfl

/-- What the clients leave alone. -/
structure Rests (s s' : State L S M) : Prop where
  returned : s'.returned = s.returned
  visits : s'.visits = s.visits
  taken : s'.q_.taken = s.q_.taken
  workers : (s'.workerPc = s.workerPc ∧ s'.threads_ = s.threads_) ∨
    s'.workerPc = Function.update s.workerPc s.threads_ (.loop (.dequeueLock false)) ∧
      s'.threads_ = s.threads_ + 1

theorem Rests.drop (s : State L S M) (owner : Owner) (c : ℕ) : Rests s (s.drop owner c) := by
  obtain ⟨hpcs, hthreads, hq, hreturned, hvisits⟩ := drop_workers s owner c
  exact ⟨hreturned, hvisits, congrArg _ hq, .inl ⟨hpcs, hthreads⟩⟩

theorem sends_taken {q q' : MpmcBlockingQueue Thread (AsyncMsg L M)} {msg : AsyncMsg L M}
    {pc : QueuePc (AsyncMsg L M)} {next : Next (AsyncMsg L M)} (h : Sends msg q q' pc next) :
    q'.taken = q.taken := by
  cases h with
  | keep hsame => exact hsame.taken
  | push hsent h =>
      subst h
      rfl

theorem ClientStep.rests {c : ℕ} (hs : Life threads_n s) (h : ClientStep threads_n c s s') :
    Rests s s' := by
  have hfits := hs.fits c
  cases h with
  | hire hpc hlt => exact ⟨rfl, rfl, rfl, .inr ⟨rfl, rfl⟩⟩
  | release hpc => exact .drop s _ c
  | postMove hpc h | posted hpc h =>
      rw [hpc] at hfits
      obtain ⟨request, policy, hof⟩ := hfits
      have hsends := (queueStep_cases h).sends hof (policy.op_item _)
      exact ⟨rfl, rfl, sends_taken hsends, .inl ⟨rfl, rfl⟩⟩
  | destroyMove hpc h | destroySent hpc h =>
      rw [hpc] at hfits
      have hsends := (queueStep_cases h).sends hfits.2.2 rfl
      exact ⟨rfl, rfl, sends_taken hsends, .inl ⟨rfl, rfl⟩⟩
  | _ => exact ⟨rfl, rfl, rfl, .inl ⟨rfl, rfl⟩⟩

theorem Step.worker_or_rests {a : Action L M} (hs : Life threads_n s)
    (h : Step b threads_n s a s') : (∃ i, WorkerStep b i s s') ∨ Rests s s' := by
  cases h with
  | worker h => exact .inl ⟨_, h⟩
  | client h => exact .inr (h.rests hs)
  | refused | post | spurious => exact .inr ⟨rfl, rfl, rfl, .inl ⟨rfl, rfl⟩⟩
  | reset hpc howner => exact .inr (.drop s _ _)

/-- A worker of the pool is among the first `threads_`. -/
theorem HiredUpTo.lt (hs : HiredUpTo s) {i : ℕ} (h : s.workerPc i ≠ .ended) : i < s.threads_ := by
  by_contra hge
  exact h (hs i (Nat.le_of_not_lt hge))

/-! ## From the queue into the hands of the workers -/

def WorkerPc.hand : WorkerPc L S M → Option (AsyncMsg L M)
  | .loop pc => pc.hand
  | _ => none

theorem process_hand (b : Backend L S M) (number : ℕ) (msg : AsyncMsg L M) :
    (process b number msg).hand = none := by
  cases msg <;> rfl

/-- The messages in the hands of the workers. -/
def State.hands (s : State L S M) : Multiset (AsyncMsg L M) :=
  inHands s.threads_ fun i => (s.workerPc i).hand

theorem hands_go {i : ℕ} {pc : WorkerPc L S M} (h : pc.hand = (s.workerPc i).hand) :
    (s.goWorker i pc).hands = s.hands := inHands_go s.threads_ h

theorem hands_take {i : ℕ} {pc : WorkerPc L S M} {msg : AsyncMsg L M} (hi : i < s.threads_)
    (hfree : (s.workerPc i).hand = none) (hheld : pc.hand = some msg) :
    (s.goWorker i pc).hands = {msg} + s.hands := inHands_go_take hi hfree hheld

theorem hands_release {i : ℕ} {pc : WorkerPc L S M} {msg : AsyncMsg L M} (hi : i < s.threads_)
    (hheld : (s.workerPc i).hand = some msg) (hfree : pc.hand = none) :
    {msg} + (s.goWorker i pc).hands = s.hands := inHands_go_release hi hheld hfree

/-- What was taken out of the queue is in the hands of a worker or was returned to it. -/
def Handed (s : State L S M) : Prop :=
  (s.q_.taken : Multiset (AsyncMsg L M)) = (s.returned : Multiset (AsyncMsg L M)) + s.hands

theorem WorkerStep.handed {i : ℕ} (h : WorkerStep b i s s') (hi : i < s.threads_)
    (hof : ∀ pc, s.workerPc i = .loop pc → pc.Of .dequeue ∧ pc.Knows s.q_.q_) (hs : Handed s) :
    Handed s' := by
  cases h with
  | @move pc pc' wake q hpc h =>
      obtain ⟨hdequeue, hknows⟩ := hof _ hpc
      have hhand : (s.workerPc i).hand = pc.hand := congrArg WorkerPc.hand hpc
      have hdequeues := (queueStep_cases h).dequeues hdequeue hknows
      cases hdequeues with
      | keep hsame hhand' =>
          have hgo : (s.goWorker i (.loop pc')).hands = s.hands :=
            hands_go (hhand'.trans hhand.symm)
          change (q.taken : Multiset (AsyncMsg L M)) = _ + (s.goWorker i (.loop pc')).hands
          rw [hsame.taken, hgo]
          exact hs
      | @take item hfree hitems htaken hpushed hoverrun =>
          have hgo : (s.goWorker i (.loop (.popUnlock item))).hands = {item} + s.hands :=
            hands_take hi (hhand.trans hfree) rfl
          change (q.taken : Multiset (AsyncMsg L M)) =
            _ + (s.goWorker i (.loop (.popUnlock item))).hands
          rw [htaken, hgo, ← Multiset.coe_add, hs]
          exact (add_assoc _ _ _).trans (congrArg _ (add_comm _ _))
  | @takes pc wake q msg hpc h =>
      obtain ⟨hdequeue, hknows⟩ := hof _ hpc
      have hhand : (s.workerPc i).hand = pc.hand := congrArg WorkerPc.hand hpc
      have hdequeues := (queueStep_cases h).dequeues hdequeue hknows
      cases hdequeues with
      | answer hsame hhand' =>
          have hgo : {msg} + (s.goWorker i (process b s.returned.length msg)).hands = s.hands :=
            hands_release hi (hhand.trans hhand') (process_hand b _ msg)
          change (q.taken : Multiset (AsyncMsg L M)) =
            ((s.returned ++ [msg] : List (AsyncMsg L M)) : Multiset (AsyncMsg L M)) +
              (s.goWorker i (process b s.returned.length msg)).hands
          rw [hsame.taken, ← Multiset.coe_add, add_assoc]
          exact hs.trans (congrArg _ hgo.symm)
  | @visit number call calls throws hpc =>
      have hgo : (s.goWorker i (.call number calls)).hands = s.hands :=
        hands_go (congrArg WorkerPc.hand hpc).symm
      exact hs.trans (congrArg _ hgo.symm)
  | again hpc =>
      have hgo : (s.goWorker i (.loop (.dequeueLock false))).hands = s.hands :=
        hands_go (congrArg WorkerPc.hand hpc).symm
      exact hs.trans (congrArg _ hgo.symm)

theorem knows_of_reach (hmax : q_max_items + 1 < sizeTRange)
    (h : (machine b q_max_items threads_n).ReachBy G s) {t : Thread}
    {pc : QueuePc (AsyncMsg L M)} (hpc : s.queuePc t = some pc) : pc.Knows s.q_.q_ :=
  (Inv.of_reach hmax (queue_reach h)).knows t pc hpc

theorem Handed.of_reach (hmax : q_max_items + 1 < sizeTRange)
    (h : (machine b q_max_items threads_n).ReachBy G s) : Handed s := by
  refine h.invariant (P := Handed) ?_ ?_
  · rintro s rfl
    exact (inHands_nobody fun _ : ℕ => (none : Option (AsyncMsg L M))).symm
  · intro s a s' hreach hs _ hst
    rcases (step_cases hst).worker_or_rests (Life.of_reach hreach) with ⟨i, h⟩ | h
    · refine h.handed ((HiredUpTo.of_reach hreach).lt h.moves.1) (fun pc hpc => ?_) hs
      refine ⟨Dequeueing.of_reach hreach i pc hpc, knows_of_reach hmax hreach (t := .worker i) ?_⟩
      exact congrArg WorkerPc.queuePc hpc
    · have hhands : s'.hands = s.hands := by
        rcases h.workers with ⟨hpcs, hthreads⟩ | ⟨hpcs, hthreads⟩
        · rw [State.hands, hpcs, hthreads]
          rfl
        · rw [State.hands, hpcs, hthreads]
          exact inHands_go_join s.threads_ rfl
      unfold Handed
      rw [h.taken, h.returned, hhands]
      exact hs

/-! ## From the hands of the workers to the sinks -/

/-- The calls that were made for one message. -/
def State.callsMade (s : State L S M) (number : ℕ) : List (SinkCall S M) :=
  (s.visits.filter fun visit => visit.1 = number).map Prod.snd

/-- What the workers have done and have left to do. -/
structure Visited (b : Backend L S M) (s : State L S M) : Prop where
  numbered : ∀ visit ∈ s.visits, visit.1 < s.returned.length
  left : ∀ i number calls, s.workerPc i = .call number calls →
    ∃ msg, s.returned[number]? = some msg ∧ s.callsMade number ++ calls = b.calls msg
  alone : ∀ i j number calls calls', s.workerPc i = .call number calls →
    s.workerPc j = .call number calls' → i = j
  done : ∀ number msg, s.returned[number]? = some msg →
    (∃ i calls, s.workerPc i = .call number calls) ∨ s.callsMade number = b.calls msg

/-- Steps that let nobody begin or go on with a message. -/
theorem Visited.congr (hs : Visited b s) (hreturned : s'.returned = s.returned)
    (hvisits : s'.visits = s.visits)
    (hpcs : ∀ i number calls, s'.workerPc i = .call number calls ↔
      s.workerPc i = .call number calls) : Visited b s' := by
  have hmade : s'.callsMade = s.callsMade := by
    funext number
    rw [State.callsMade, hvisits]
    rfl
  constructor
  · rw [hvisits, hreturned]
    exact hs.numbered
  · intro i number calls hpc
    rw [hreturned, hmade]
    exact hs.left i number calls ((hpcs _ _ _).mp hpc)
  · intro i j number calls calls' hi hj
    exact hs.alone i j number calls calls' ((hpcs _ _ _).mp hi) ((hpcs _ _ _).mp hj)
  · intro number msg hmsg
    rw [hreturned] at hmsg
    rw [hmade]
    refine (hs.done number msg hmsg).imp_left ?_
    rintro ⟨i, calls, hi⟩
    exact ⟨i, calls, (hpcs _ _ _).mpr hi⟩

theorem goWorker_self (s : State L S M) (i : ℕ) (pc : WorkerPc L S M) :
    (s.goWorker i pc).workerPc i = pc := Function.update_self ..

theorem goWorker_of_ne (s : State L S M) {i j : ℕ} (pc : WorkerPc L S M) (hji : j ≠ i) :
    (s.goWorker i pc).workerPc j = s.workerPc j := Function.update_of_ne hji ..

theorem callsMade_nil (hs : Visited b s) {number : ℕ} (h : s.returned.length ≤ number) :
    s.callsMade number = [] := by
  have hfilter : s.visits.filter (fun visit => decide (visit.1 = number)) = [] := by
    refine List.filter_eq_nil_iff.mpr fun visit hvisit => ?_
    have hlt := hs.numbered visit hvisit
    simp only [decide_eq_true_eq]
    omega
  rw [State.callsMade, hfilter]
  rfl

/-- A message that is returned gets the next number. -/
theorem Visited.takes (hs : Visited b s) {i : ℕ} {pc : QueuePc (AsyncMsg L M)}
    (hpc : s.workerPc i = .loop pc) (q : MpmcBlockingQueue Thread (AsyncMsg L M))
    (msg : AsyncMsg L M) :
    Visited b ({ s with q_ := q, returned := s.returned ++ [msg] }.goWorker i
      (process b s.returned.length msg)) := by
  have hnew : s.callsMade s.returned.length = [] := callsMade_nil hs le_rfl
  have hcall : ∀ {number calls}, process b s.returned.length msg = .call number calls →
      number = s.returned.length ∧ calls = b.calls msg := by
    intro number calls h
    cases msg <;> cases h <;> exact ⟨rfl, rfl⟩
  have hends : (∃ calls, process b s.returned.length msg = .call s.returned.length calls) ∨
      b.calls msg = [] := by
    cases msg with
    | terminate => exact .inr rfl
    | _ => exact .inl ⟨_, rfl⟩
  have hold : ∀ {j number calls}, s.workerPc j = .call number calls →
      number < s.returned.length := by
    intro j number calls hj
    obtain ⟨msg', hmsg', -⟩ := hs.left j number calls hj
    exact (List.getElem?_eq_some_iff.mp hmsg').1
  constructor
  · intro visit hvisit
    have hlt := hs.numbered visit hvisit
    change visit.1 < (s.returned ++ [msg]).length
    rw [List.length_append]
    omega
  · intro j number calls hj
    change ∃ msg', (s.returned ++ [msg])[number]? = some msg' ∧ _
    by_cases hji : j = i
    · subst hji
      rw [goWorker_self] at hj
      obtain ⟨rfl, rfl⟩ := hcall hj
      refine ⟨msg, List.getElem?_concat_length, ?_⟩
      exact congrArg (· ++ b.calls msg) hnew
    · rw [goWorker_of_ne _ _ hji] at hj
      rw [List.getElem?_append_left (hold hj)]
      exact hs.left j number calls hj
  · intro j k number calls calls' hj hk
    by_cases hji : j = i <;> by_cases hki : k = i
    · exact hji.trans hki.symm
    · subst hji
      rw [goWorker_self] at hj
      rw [goWorker_of_ne _ _ hki] at hk
      exact absurd (hold hk) ((hcall hj).1 ▸ Nat.lt_irrefl _)
    · subst hki
      rw [goWorker_self] at hk
      rw [goWorker_of_ne _ _ hji] at hj
      exact absurd (hold hj) ((hcall hk).1 ▸ Nat.lt_irrefl _)
    · rw [goWorker_of_ne _ _ hji] at hj
      rw [goWorker_of_ne _ _ hki] at hk
      exact hs.alone j k number calls calls' hj hk
  · intro number msg' hmsg'
    change (s.returned ++ [msg])[number]? = some msg' at hmsg'
    rcases Nat.lt_trichotomy number s.returned.length with hlt | rfl | hgt
    · rw [List.getElem?_append_left hlt] at hmsg'
      refine (hs.done number msg' hmsg').imp_left ?_
      rintro ⟨j, calls, hj⟩
      refine ⟨j, calls, (goWorker_of_ne _ _ ?_).trans hj⟩
      rintro rfl
      cases hpc.symm.trans hj
    · rw [List.getElem?_concat_length] at hmsg'
      cases hmsg'
      refine hends.imp (fun ⟨calls, h⟩ => ⟨i, calls, ?_⟩) fun h => hnew.trans h.symm
      exact (goWorker_self ..).trans h
    · rw [List.getElem?_eq_none (by rw [List.length_append, List.length_singleton]; omega)]
        at hmsg'
      cases hmsg'

/-- The next call is made. -/
theorem Visited.visit (hs : Visited b s) {i number : ℕ} {call : SinkCall S M}
    {calls : List (SinkCall S M)} (hpc : s.workerPc i = .call number (call :: calls))
    (errors : List String) :
    Visited b ({ s with
      visits := s.visits ++ [(number, call)]
      errors := errors }.goWorker i (.call number calls)) := by
  obtain ⟨msg, hmsg, hcalls⟩ := hs.left i number _ hpc
  have hothers : ∀ {j}, j ≠ i → ∀ {number' calls'}, s.workerPc j = .call number' calls' →
      number' ≠ number := by
    rintro j hji number' calls' hj rfl
    exact hji (hs.alone j i _ _ _ hj hpc)
  have hsame : ∀ number', number' ≠ number →
      ({ s with visits := s.visits ++ [(number, call)] } : State L S M).callsMade number' =
        s.callsMade number' := by
    intro number' hne
    simp [State.callsMade, List.filter_append, Ne.symm hne]
  have hmore : ({ s with visits := s.visits ++ [(number, call)] } : State L S M).callsMade
      number = s.callsMade number ++ [call] := by
    simp [State.callsMade, List.filter_append]
  constructor
  · intro visit hvisit
    rcases List.mem_append.mp hvisit with hvisit | hvisit
    · exact hs.numbered visit hvisit
    · obtain rfl := List.mem_singleton.mp hvisit
      exact (List.getElem?_eq_some_iff.mp hmsg).1
  · intro j number' calls' hj
    by_cases hji : j = i
    · subst hji
      rw [goWorker_self] at hj
      cases hj
      refine ⟨msg, hmsg, (congrArg (· ++ calls) hmore).trans ?_⟩
      rw [List.append_assoc]
      exact hcalls
    · rw [goWorker_of_ne _ _ hji] at hj
      obtain ⟨msg', hmsg', hcalls'⟩ := hs.left j number' calls' hj
      exact ⟨msg', hmsg', (congrArg (· ++ calls') (hsame _ (hothers hji hj))).trans hcalls'⟩
  · intro j k number' calls' calls'' hj hk
    have hback : ∀ {k calls'}, (({ s with
        visits := s.visits ++ [(number, call)]
        errors := errors } : State L S M).goWorker i (.call number calls)).workerPc k =
          .call number' calls' → ∃ calls'', s.workerPc k = .call number' calls'' := by
      intro k calls' hk
      by_cases hki : k = i
      · subst hki
        rw [goWorker_self] at hk
        cases hk
        exact ⟨_, hpc⟩
      · rw [goWorker_of_ne _ _ hki] at hk
        exact ⟨_, hk⟩
    obtain ⟨_, hj'⟩ := hback hj
    obtain ⟨_, hk'⟩ := hback hk
    exact hs.alone j k number' _ _ hj' hk'
  · intro number' msg' hmsg'
    by_cases hne : number' = number
    · subst hne
      exact .inl ⟨i, calls, goWorker_self ..⟩
    · refine (hs.done number' msg' hmsg').imp ?_ fun h => (hsame _ hne).trans h
      rintro ⟨j, calls', hj⟩
      refine ⟨j, calls', (goWorker_of_ne _ _ ?_).trans hj⟩
      rintro rfl
      rw [hpc] at hj
      cases hj
      exact hne rfl

theorem WorkerStep.visited {i : ℕ} (h : WorkerStep b i s s') (hs : Visited b s) :
    Visited b s' := by
  have hstays : ∀ {pc pc' : WorkerPc L S M}, s.workerPc i = pc →
      (∀ number calls, pc ≠ .call number calls) → (∀ number calls, pc' ≠ .call number calls) →
      ∀ j number calls, (s.goWorker i pc').workerPc j = .call number calls ↔
        s.workerPc j = .call number calls := by
    intro pc pc' hpc hno hno' j number calls
    by_cases hji : j = i
    · subst hji
      rw [goWorker_self, hpc]
      exact iff_of_false (hno' _ _) (hno _ _)
    · rw [goWorker_of_ne _ _ hji]
  cases h with
  | move hpc h => exact hs.congr rfl rfl (hstays hpc (by simp) (by simp))
  | takes hpc h => exact hs.takes hpc _ _
  | visit throws hpc => exact hs.visit hpc _
  | @again number hpc =>
      obtain ⟨msg, hmsg, hcalls⟩ := hs.left i number _ hpc
      rw [List.append_nil] at hcalls
      have hgone : ∀ {j number' calls}, (s.goWorker i (.loop (.dequeueLock false))).workerPc j =
          .call number' calls → j ≠ i ∧ s.workerPc j = .call number' calls := by
        intro j number' calls hj
        by_cases hji : j = i
        · subst hji
          rw [goWorker_self] at hj
          cases hj
        · rw [goWorker_of_ne _ _ hji] at hj
          exact ⟨hji, hj⟩
      constructor
      · exact hs.numbered
      · exact fun j number' calls hj => hs.left j number' calls (hgone hj).2
      · exact fun j k number' calls calls' hj hk =>
          hs.alone j k number' calls calls' (hgone hj).2 (hgone hk).2
      · intro number' msg' hmsg'
        by_cases hne : number' = number
        · subst hne
          cases hmsg.symm.trans hmsg'
          exact .inr hcalls
        · refine (hs.done number' msg' hmsg').imp_left ?_
          rintro ⟨j, calls, hj⟩
          refine ⟨j, calls, (goWorker_of_ne _ _ ?_).trans hj⟩
          rintro rfl
          rw [hpc] at hj
          cases hj
          exact hne rfl

theorem Visited.of_reach (h : (machine b q_max_items threads_n).ReachBy G s) : Visited b s := by
  refine h.invariant (P := Visited b) ?_ ?_
  · rintro s rfl
    refine ⟨by simp [State.initial], ?_, ?_, by simp [State.initial]⟩
    · intro i number calls hpc
      cases hpc
    · intro i j number calls calls' hpc
      cases hpc
  · intro s a s' hreach hs _ hst
    rcases (step_cases hst).worker_or_rests (Life.of_reach hreach) with ⟨i, h⟩ | h
    · exact h.visited hs
    · refine hs.congr h.returned h.visits fun i number calls => ?_
      rcases h.workers with ⟨hpcs, -⟩ | ⟨hpcs, -⟩
      · rw [hpcs]
      · by_cases hi : i = s.threads_
        · subst hi
          rw [hpcs, Function.update_self, HiredUpTo.of_reach hreach _ le_rfl]
          simp
        · rw [hpcs, Function.update_of_ne hi]

end

end AsyncPool
