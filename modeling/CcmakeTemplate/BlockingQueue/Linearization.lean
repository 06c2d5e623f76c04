import CcmakeTemplate.BlockingQueue.Contents
import CcmakeTemplate.Concurrency.Linearization

/-!
# The queue as an atomic object

Each call takes effect at one step inside the critical section: the access to the ring, or
the last look at it where the call is refused or its time is over.

The discard counter is an atomic beside the queue and no part of the object. A refused call
increments it when it has left the critical section, so that no instant of the call is one of
both. The two methods that only read it or reset it are not seen here.
-/

namespace BlockingQueue

open Concurrency Spdlog

/-! ## The bounded queue -/

structure Fifo (α : Type) where
  items : List α
  overrunCounter : ℕ
deriving DecidableEq

variable {τ α : Type}

/-- The oldest item makes room for the new one. -/
def Fifo.push (max_items : ℕ) (q : Fifo α) (item : α) : Fifo α where
  items := (q.items ++ [item]).rtake max_items
  overrunCounter :=
    if q.items.length < max_items then q.overrunCounter
    else (q.overrunCounter + 1) % sizeTRange

/-- The methods, one at a time. -/
inductive Fifo.Legal (max_items : ℕ) : Op α → Fifo α → Answer α → Fifo α → Prop
  | enqueue {q : Fifo α} (item : α) (h : q.items.length < max_items) :
      Legal max_items (.enqueue item) q .done (q.push max_items item)
  | enqueueNowait (q : Fifo α) (item : α) :
      Legal max_items (.enqueueNowait item) q .done (q.push max_items item)
  | accept {q : Fifo α} (item : α) (h : q.items.length < max_items) :
      Legal max_items (.enqueueIfHaveRoom item) q .done (q.push max_items item)
  | refuse {q : Fifo α} (item : α) (h : q.items.length = max_items) :
      Legal max_items (.enqueueIfHaveRoom item) q .done q
  | dequeue {q : Fifo α} {item : α} {rest : List α} (h : q.items = item :: rest) :
      Legal max_items .dequeue q (.item item) { q with items := rest }
  | dequeueFor {q : Fifo α} {item : α} {rest : List α} (h : q.items = item :: rest) :
      Legal max_items .dequeueFor q (.item item) { q with items := rest }
  | timedOut {q : Fifo α} (h : q.items = []) : Legal max_items .dequeueFor q .timedOut q
  | size (q : Fifo α) : Legal max_items .size q (.count q.items.length) q
  | overrunCounter (q : Fifo α) :
      Legal max_items .overrunCounter q (.count q.overrunCounter) q
  | resetOverrunCounter (q : Fifo α) :
      Legal max_items .resetOverrunCounter q .done { q with overrunCounter := 0 }

/-- The calls that are about the queue, and not about its discard counter alone. -/
def Op.onFifo : Op α → Bool
  | .discardCounter | .resetDiscardCounter => false
  | _ => true

def MpmcBlockingQueue.fifo (s : MpmcBlockingQueue τ α) : Fifo α :=
  ⟨s.q_.items, s.q_.overrun_counter_⟩

theorem fifo_push {s : MpmcBlockingQueue τ α} {max_items : ℕ}
    (hmax : s.q_.max_items_ = max_items + 1) (item : α) :
    (s.pushBack item).fifo = s.fifo.push max_items item := by
  have hlen : s.q_.items.length ≤ max_items := by
    have hlt := CircularQ.size_lt (q := s.q_) (by omega)
    rw [← CircularQ.length_items] at hlt
    omega
  change Fifo.mk (s.q_.pushBack item).items (s.q_.pushBack item).overrun_counter_ =
    Fifo.mk ((s.q_.items ++ [item]).rtake max_items)
      (if s.q_.items.length < max_items then s.q_.overrun_counter_
        else (s.q_.overrun_counter_ + 1) % sizeTRange)
  cases hfull : s.q_.full with
  | false =>
      have hne : s.q_.items.length + 1 ≠ s.q_.max_items_ := fun heq => by
        simp [(CircularQ.full_iff _).mpr ⟨by omega, heq⟩] at hfull
      obtain ⟨hitems, hcounter⟩ := CircularQ.items_pushBack_of_room (by omega) hfull item
      have hle : (s.q_.items ++ [item]).length ≤ max_items := by
        rw [List.length_append, List.length_singleton]
        omega
      rw [hitems, hcounter, if_pos (by omega), Containers.Window.rtake_of_length_le hle]
  | true =>
      have hfill := ((CircularQ.full_iff _).mp hfull).2
      obtain ⟨hitems, hcounter⟩ := CircularQ.items_pushBack_of_full hfull item
      have hdrop : (s.q_.items ++ [item]).length - max_items = 1 := by
        rw [List.length_append, List.length_singleton]
        omega
      rw [hitems, hcounter, if_neg (by omega), List.rtake, hdrop, List.drop_one]

/-! ## How far a call has come -/

def QueuePc.phase (op : Op α) : QueuePc α → Phase (Op α) (Answer α)
  | .pushUnlock | .pushNotify | .roomUnlock | .roomDiscard => .done op .done
  | .popUnlock item | .popNotify item => .done op (.item item)
  | .dequeueGiveUp => .done op .timedOut
  | .inspectUnlock what n => .done op (what.answer n)
  | .discardRead | .discardReset => .idle
  | _ => .pending op

def threadPhase (op : Op α) : Option (QueuePc α) → Phase (Op α) (Answer α)
  | some pc => pc.phase op
  | none => .idle

/-- What is seen of a step. -/
def seen [DecidableEq α] (t : τ) (op : Op α) (s s' : MpmcBlockingQueue τ α) (next : Next α) :
    List (Seen τ (Op α) (Answer α) (Fifo α)) :=
  effect t s.fifo s'.fifo ++
    match next with
    | .inl _ => []
    | .inr answer => if op.onFifo then [.returned t op answer] else []

theorem QueuePc.Of.onFifo {op : Op α} {pc : QueuePc α} (h : pc.Of op) {r : Answer α}
    (hphase : pc.phase op = .done op r) : op.onFifo = true := by
  cases pc with
  | pushUnlock | pushNotify => obtain ⟨item, rfl | rfl | rfl⟩ := h <;> rfl
  | roomUnlock | roomDiscard =>
      obtain ⟨item, rfl⟩ := h
      rfl
  | popUnlock | popNotify =>
      obtain ⟨timed, rfl⟩ := h
      cases timed <;> rfl
  | dequeueGiveUp =>
      obtain rfl := h
      rfl
  | inspectUnlock what =>
      obtain rfl := h
      cases what <;> rfl
  | _ => cases hphase

section

variable [DecidableEq τ] [DecidableEq α] {max_items : ℕ} {t : τ} {wake : Option τ}
  {s s' : MpmcBlockingQueue τ α} {op : Op α} {pc pc' : QueuePc α} {next : Next α}

omit [DecidableEq τ] in
/-- The step takes no effect and does not return. -/
theorem advance_stay (hfifo : s'.fifo = s.fifo) (hphase : pc'.phase op = pc.phase op) :
    Advance (Fifo.Legal max_items) t s.fifo (pc.phase op) s'.fifo
      (threadPhase op (some pc')) (seen t op s s' (.inl pc')) := by
  have hseen : seen t op s s' (.inl pc') = [] := by
    rw [seen, effect, hfifo, if_pos rfl]
    rfl
  rw [hfifo, threadPhase, hphase, hseen]
  exact .stay _

omit [DecidableEq τ] in
/-- The step takes effect and does not return. -/
theorem advance_commit {r : Answer α} (hpc : pc.phase op = .pending op)
    (hlegal : Fifo.Legal max_items op s.fifo r s'.fifo) (hpc' : pc'.phase op = .done op r) :
    Advance (Fifo.Legal max_items) t s.fifo (pc.phase op) s'.fifo
      (threadPhase op (some pc')) (seen t op s s' (.inl pc')) := by
  rw [hpc, threadPhase, hpc', seen, List.append_nil]
  exact .commit hlegal

omit [DecidableEq τ] in
/-- The step returns and takes no effect any more. -/
theorem advance_ret {r : Answer α} (hof : pc.Of op) (hfifo : s'.fifo = s.fifo)
    (hpc : pc.phase op = .done op r) :
    Advance (Fifo.Legal max_items) t s.fifo (pc.phase op) s'.fifo (threadPhase op none)
      (seen t op s s' (.inr r)) := by
  have hseen : seen t op s s' (.inr r) = [.returned t op r] := by
    rw [seen, effect, hfifo, if_pos rfl, hof.onFifo hpc]
    rfl
  rw [hfifo, hpc, hseen]
  exact .ret _ _

omit [DecidableEq τ] in
/-- The step is the whole call, and the object is not concerned. -/
theorem advance_apart {r : Answer α} (hop : op.onFifo = false) (hfifo : s'.fifo = s.fifo)
    (hpc : pc.phase op = .idle) :
    Advance (Fifo.Legal max_items) t s.fifo (pc.phase op) s'.fifo (threadPhase op none)
      (seen t op s s' (.inr r)) := by
  have hseen : seen t op s s' (.inr r) = [] := by
    rw [seen, effect, hfifo, if_pos rfl, hop]
    rfl
  rw [hfifo, hpc, hseen]
  exact .stay _

theorem Effect.advance (hmax : s.q_.max_items_ = max_items + 1) (hknows : pc.Knows s.q_)
    (hof : pc.Of op) (h : Effect t wake s pc s' next) :
    Advance (Fifo.Legal max_items) t s.fifo (pc.phase op) s'.fifo
      (threadPhase op next.getLeft?) (seen t op s s' next) := by
  have hlt : s.q_.items.length ≤ max_items := by
    have hlt := CircularQ.size_lt (q := s.q_) (by omega)
    rw [← CircularQ.length_items] at hlt
    omega
  have hroom : s.q_.full = false → s.q_.items.length < max_items := by
    intro hfull
    have hne : s.q_.items.length + 1 ≠ s.q_.max_items_ := fun heq => by
      simp [(CircularQ.full_iff _).mpr ⟨by omega, heq⟩] at hfull
    omega
  cases h with
  | lock h _ => cases h <;> exact advance_stay rfl rfl
  | look h =>
      cases h with
      | refused item hfull =>
          refine advance_commit rfl ?_ rfl
          subst hof
          have hlen := ((CircularQ.full_iff _).mp hfull).2
          exact .refuse item (by change s.q_.items.length = _; omega)
      | late hempty =>
          refine advance_commit rfl ?_ rfl
          subst hof
          exact .timedOut ((CircularQ.empty_iff _).mp hempty)
      | _ => exact advance_stay rfl rfl
  | blockProducer | blockConsumer => exact advance_stay rfl rfl
  | @push item _ h =>
      have hpush := fifo_push (s := s) hmax item
      cases h with
      | enqueue =>
          refine advance_commit rfl ?_ rfl
          subst hof
          rw [hpush]
          exact .enqueue item (hroom hknows)
      | nowait =>
          refine advance_commit rfl ?_ rfl
          subst hof
          rw [hpush]
          exact .enqueueNowait _ item
      | room =>
          refine advance_commit rfl ?_ rfl
          subst hof
          rw [hpush]
          exact .accept item (hroom hknows)
  | @take item _ h =>
      refine advance_commit rfl ?_ rfl
      obtain ⟨hitems, -, -, -⟩ := pop_items hknows h
      have hfifo : s'.fifo = { s.fifo with items := s'.q_.items } := by
        obtain ⟨q, -, hpop, rfl⟩ := popFront_cases h
        obtain ⟨q', hpop', -, -, hcounter⟩ := CircularQ.items_popFront hknows
        obtain rfl : q = q' := Option.some.inj (hpop.symm.trans hpop')
        exact congrArg (Fifo.mk q.items) hcounter
      rw [hfifo]
      obtain ⟨timed, rfl⟩ := hof
      cases timed with
      | false => exact .dequeue hitems
      | true => exact .dequeueFor hitems
  | unlock h =>
      cases h with
      | gaveUp | inspected => exact advance_ret hof rfl rfl
      | _ => exact advance_stay rfl rfl
  | notifyConsumer | notifyProducer => exact advance_ret hof rfl rfl
  | inspect what =>
      refine advance_commit rfl ?_ rfl
      subst hof
      cases what with
      | size =>
          have hsize : s.q_.size = s.fifo.items.length := (CircularQ.length_items _).symm
          change Fifo.Legal max_items .size s.fifo (.count s.q_.size) s.fifo
          rw [hsize]
          exact .size _
      | overrunCounter => exact .overrunCounter _
      | resetOverrunCounter => exact .resetOverrunCounter _
  | discard h =>
      cases h with
      | increment => exact advance_ret hof rfl rfl
      | read | reset =>
          subst hof
          exact advance_apart rfl rfl rfl

end

/-! ## The queue and its history -/

section

variable [DecidableEq τ] [DecidableEq α]

/-- The machine, with the call that each thread made last. -/
structure Traced (τ α : Type) where
  base : State τ α
  op : τ → Op α
  history : List (Seen τ (Op α) (Answer α) (Fifo α))

def tracedStep (s : Traced τ α) : Action τ α → Option (Traced τ α)
  | .call t op =>
      (step s.base (.call t op)).map fun base =>
        { base := base
          op := Function.update s.op t op
          history := s.history ++ if op.onFifo then [.called t op] else [] }
  | .step t wake =>
      (s.base.pc t).bind fun pc => (queueStep t wake s.base.queue pc).map fun (queue, next) =>
        { s with
          base := { s.base with queue := queue }.go t next.getLeft?
          history := s.history ++ seen t (s.op t) s.base.queue queue next }
  | .spurious t => (step s.base (.spurious t)).map fun base => { s with base := base }
  | .timeout t => (step s.base (.timeout t)).map fun base => { s with base := base }

def tracedMachine (τ α : Type) [DecidableEq τ] [DecidableEq α] [Inhabited α] (max_items : ℕ) :
    Machine (Traced τ α) (Action τ α) where
  init := fun s => s =
    { base := { queue := .new max_items, pc := fun _ => none }
      op := fun _ => .size
      history := [] }
  step := tracedStep

structure Follows (max_items : ℕ) (s : Traced τ α) : Prop where
  inv : Inv max_items s.base
  of : ∀ t pc, s.base.pc t = some pc → pc.Of (s.op t)
  run : AtomicRun (Fifo.Legal max_items) ⟨[], 0⟩ s.history s.base.queue.fifo
    fun t => threadPhase (s.op t) (s.base.pc t)

variable {max_items : ℕ}

theorem Follows.init [Inhabited α] (hmax : max_items + 1 < sizeTRange) :
    Follows max_items
      { base := { queue := .new max_items, pc := fun _ => none }
        op := fun _ => .size
        history := [] : Traced τ α } where
  inv := Inv.init hmax
  of := by simp
  run := by
    have hitems : (CircularQ.new max_items : CircularQ α).items = [] :=
      List.length_eq_zero_iff.mp (CircularQ.length_items _)
    have hfifo : (MpmcBlockingQueue.new max_items : MpmcBlockingQueue τ α).fifo = ⟨[], 0⟩ :=
      congrArg (Fifo.mk · 0) hitems
    rw [hfifo]
    exact .start

omit [DecidableEq α] in
theorem Op.entry_phase (op : Op α) :
    op.entry.phase op = if op.onFifo then .pending op else .idle := by
  cases op <;> rfl

omit [DecidableEq α] in
/-- A table of calls and program points with a new entry for one thread. -/
theorem phases_update (ops : τ → Op α) (pcs : τ → Option (QueuePc α)) (t : τ) (op : Op α)
    (pc : Option (QueuePc α)) :
    (fun u => threadPhase (Function.update ops t op u) (Function.update pcs t pc u)) =
      Function.update (fun u => threadPhase (ops u) (pcs u)) t (threadPhase op pc) := by
  funext u
  by_cases hut : u = t
  · subst hut
    rw [Function.update_self, Function.update_self, Function.update_self]
  · rw [Function.update_of_ne hut, Function.update_of_ne hut, Function.update_of_ne hut]

omit [DecidableEq α] in
theorem phases_go (s : State τ α) (ops : τ → Op α) (t : τ) (pc : Option (QueuePc α)) :
    (fun u => threadPhase (ops u) ((s.go t pc).pc u)) =
      Function.update (fun u => threadPhase (ops u) (s.pc u)) t (threadPhase (ops t) pc) := by
  have h := phases_update ops s.pc t (ops t) pc
  rwa [Function.update_eq_self] at h

theorem Follows.step {s s' : Traced τ α} {a : Action τ α} (hs : Follows max_items s)
    (h : tracedStep s a = some s') : Follows max_items s' := by
  cases a with
  | call t op =>
      obtain ⟨base, hbase, rfl⟩ := Option.map_eq_some_iff.mp h
      have hstep := step_cases hbase
      have hinv := hs.inv.step hstep
      cases hstep with
      | call t op hpc =>
          refine ⟨hinv, ?_, ?_⟩
          · intro u pc hu
            by_cases hut : u = t
            · subst hut
              rw [go_self] at hu
              cases hu
              simpa using op.entry_of
            · rw [go_of_ne _ hut] at hu
              simpa [Function.update_of_ne hut] using hs.of u pc hu
          · have hidle : threadPhase (s.op t) (s.base.pc t) = .idle := by
              rw [hpc]
              rfl
            rw [phases_update, threadPhase, op.entry_phase]
            cases hop : op.onFifo with
            | true => exact hs.run.call hidle op
            | false =>
                simp only [Bool.false_eq_true, if_false, List.append_nil]
                rw [← hidle, Function.update_eq_self]
                exact hs.run
  | step t wake =>
      obtain ⟨pc, hpc, hmap⟩ := Option.bind_eq_some_iff.mp h
      obtain ⟨⟨queue, next⟩, hqueue, rfl⟩ := Option.map_eq_some_iff.mp hmap
      have heffect := queueStep_cases hqueue
      have hof := hs.of t pc hpc
      refine ⟨hs.inv.move hpc heffect, ?_, ?_⟩
      · intro u pc' hu
        by_cases hut : u = t
        · subst hut
          rw [go_self] at hu
          exact heffect.of hof pc' (Sum.getLeft?_eq_some_iff.mp hu)
        · rw [go_of_ne _ hut] at hu
          exact hs.of u pc' hu
      · have hadvance := heffect.advance hs.inv.max_items (hs.inv.knows t pc hpc) hof
        rw [phases_go]
        exact hs.run.advance (by rw [hpc]; exact hadvance)
  | spurious t =>
      cases h
      exact ⟨hs.inv.step (.spurious t), hs.of, hs.run⟩
  | timeout t =>
      obtain ⟨base, hbase, rfl⟩ := Option.map_eq_some_iff.mp h
      have hstep := step_cases hbase
      have hinv := hs.inv.step hstep
      cases hstep with
      | timeout hpc =>
          refine ⟨hinv, ?_, ?_⟩
          · intro u pc' hu
            by_cases hut : u = t
            · subst hut
              rw [go_self] at hu
              cases hu
              have hof := hs.of u _ hpc
              exact hof
            · rw [go_of_ne _ hut] at hu
              exact hs.of u pc' hu
          · -- the call goes on as it was
            have hsame : threadPhase (s.op t) (some .dequeueExpired) =
                threadPhase (s.op t) (s.base.pc t) := by
              rw [hpc]
              rfl
            rw [phases_go, hsame, Function.update_eq_self]
            exact hs.run

/-- Under every schedule the history is one of the atomic bounded queue: each call on it that
has returned took effect once, between its call and its return. -/
theorem refines_fifo [Inhabited α] (hmax : max_items + 1 < sizeTRange) {s : Traced τ α}
    (h : (tracedMachine τ α max_items).Reach s) :
    AtomicRun (Fifo.Legal max_items) ⟨[], 0⟩ s.history s.base.queue.fifo
        (fun t => threadPhase (s.op t) (s.base.pc t)) ∧
      TakesEffectOnce (Fifo.Legal max_items) ⟨[], 0⟩ s.history := by
  have hs : Follows max_items s := by
    refine h.invariant (P := Follows max_items) ?_ fun s a t _ hs _ hst => hs.step hst
    rintro s rfl
    exact Follows.init hmax
  exact ⟨hs.run, hs.run.takesEffectOnce⟩

/-- A consumer that comes first, and sleeps until there is an item. -/
theorem refines_fifo_sleeper :
    3 < sizeTRange ∧ ∃ s : Traced ℕ ℕ, (tracedMachine ℕ ℕ 2).Reach s ∧
      s.history = [.called 0 .dequeue, .called 1 (.enqueue 7), .changed 1 ⟨[], 0⟩ ⟨[7], 0⟩,
        .returned 1 (.enqueue 7) .done, .changed 0 ⟨[7], 0⟩ ⟨[], 0⟩,
        .returned 0 .dequeue (.item 7)] ∧
      TakesEffectOnce (Fifo.Legal 2) ⟨[], 0⟩ s.history := by
  obtain ⟨s, hreach, hhistory⟩ := Machine.ReachBy.of_exec
    (M := tracedMachine ℕ ℕ 2) (G := fun _ _ => True)
    ⟨{ queue := .new 2, pc := fun _ => none }, fun _ => .size, []⟩
    ([.call 0 .dequeue] ++ List.replicate 3 (.step 0 none) ++ [.call 1 (.enqueue 7)] ++
      List.replicate 4 (.step 1 none) ++ [.step 1 (some 0)] ++ List.replicate 5 (.step 0 none))
    (fun s => s.history = [.called 0 .dequeue, .called 1 (.enqueue 7),
      .changed 1 ⟨[], 0⟩ ⟨[7], 0⟩, .returned 1 (.enqueue 7) .done, .changed 0 ⟨[7], 0⟩ ⟨[], 0⟩,
      .returned 0 .dequeue (.item 7)]) rfl (by decide)
  exact ⟨by decide, s, hreach, hhistory, (refines_fifo (by decide) hreach).2⟩

end

end BlockingQueue
