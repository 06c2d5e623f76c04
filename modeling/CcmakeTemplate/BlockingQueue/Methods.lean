import CcmakeTemplate.BlockingQueue.Contents

/-!
# What each method does to the contents

A producer hands its item over once, and a consumer returns the item that it has taken. For
users of the queue whose threads keep to one method at a time.
-/

namespace BlockingQueue

open Concurrency Spdlog

variable {τ α : Type}

/-- The item of the producer is in the ring. -/
def QueuePc.sent : QueuePc α → Bool
  | .pushUnlock | .pushNotify => true
  | _ => false

/-- The item that a consumer carries out of the ring. -/
def QueuePc.hand : QueuePc α → Option α
  | .popUnlock item | .popNotify item => some item
  | _ => none

/-- What the method puts into the ring. -/
def Op.item : Op α → Option α
  | .enqueue item | .enqueueNowait item | .enqueueIfHaveRoom item => some item
  | _ => none

structure SameContents (s s' : MpmcBlockingQueue τ α) : Prop where
  pushed : s'.pushed = s.pushed
  taken : s'.taken = s.taken
  overrun : s'.overrun = s.overrun
  items : s'.q_.items = s.q_.items

theorem SameContents.refl (s : MpmcBlockingQueue τ α) : SameContents s s := ⟨rfl, rfl, rfl, rfl⟩

variable [DecidableEq τ] {t : τ} {wake : Option τ} {s s' : MpmcBlockingQueue τ α}
  {pc : QueuePc α} {next : Next α}

/-- A step touches the contents when it pushes or takes, and otherwise leaves them alone. -/
theorem Effect.contents (h : Effect t wake s pc s' next) :
    (SameContents s s' ∧ ∀ pc', next = .inl pc' → pc'.sent = pc.sent ∧ pc'.hand = pc.hand) ∨
      (∃ item, Pushes item pc ∧ s' = s.pushBack item ∧ next = .inl .pushUnlock) ∨
      ∃ item, pc = .dequeueTake ∧ s.popFront = some (item, s') ∧
        next = .inl (.popUnlock item) := by
  cases h with
  | lock h _ =>
      refine .inl ⟨⟨rfl, rfl, rfl, rfl⟩, fun pc' hpc' => ?_⟩
      cases hpc'
      cases h <;> exact ⟨rfl, rfl⟩
  | look h =>
      refine .inl ⟨.refl s, fun pc' hpc' => ?_⟩
      cases hpc'
      cases h <;> exact ⟨rfl, rfl⟩
  | unlock h =>
      refine .inl ⟨⟨rfl, rfl, rfl, rfl⟩, fun pc' hpc' => ?_⟩
      cases h <;> cases hpc' <;> exact ⟨rfl, rfl⟩
  | push h => exact .inr (.inl ⟨_, h, rfl, rfl⟩)
  | take h => exact .inr (.inr ⟨_, rfl, h, rfl⟩)
  | inspect what =>
      refine .inl ⟨by cases what <;> exact ⟨rfl, rfl, rfl, rfl⟩, fun pc' hpc' => ?_⟩
      cases hpc'
      exact ⟨rfl, rfl⟩
  | blockProducer | blockConsumer =>
      refine .inl ⟨⟨rfl, rfl, rfl, rfl⟩, fun pc' hpc' => ?_⟩
      cases hpc'
      exact ⟨rfl, rfl⟩
  | notifyConsumer | notifyProducer | discard =>
      exact .inl ⟨⟨rfl, rfl, rfl, rfl⟩, fun pc' hpc' => by cases hpc'⟩

/-! ## Consumers -/

/-- What one step of a thread in `dequeue` does. -/
inductive Dequeues (s s' : MpmcBlockingQueue τ α) (pc : QueuePc α) : Next α → Prop
  | keep {pc' : QueuePc α} (hsame : SameContents s s') (hhand : pc'.hand = pc.hand) :
      Dequeues s s' pc (.inl pc')
  | take {item : α} (hfree : pc.hand = none) (hitems : s.q_.items = item :: s'.q_.items)
      (htaken : s'.taken = s.taken ++ [item]) (hpushed : s'.pushed = s.pushed)
      (hoverrun : s'.overrun = s.overrun) : Dequeues s s' pc (.inl (.popUnlock item))
  | answer {item : α} (hsame : SameContents s s') (hhand : pc.hand = some item) :
      Dequeues s s' pc (.inr (.item item))

theorem Effect.dequeues (h : Effect t wake s pc s' next) (hof : pc.Of .dequeue)
    (hknows : pc.Knows s.q_) : Dequeues s s' pc next := by
  rcases h.contents with ⟨hsame, hnext⟩ | ⟨item, hpush, -, -⟩ | ⟨item, rfl, hpop, rfl⟩
  · cases next with
    | inl pc' => exact .keep hsame (hnext pc' rfl).2
    | inr answer =>
        cases h with
        | unlock h =>
            cases h with
            | gaveUp => cases hof
            | inspected what n => cases what <;> cases hof
        | notifyConsumer => simp [QueuePc.Of] at hof
        | notifyProducer item => exact .answer hsame rfl
        | discard h =>
            cases h with
            | increment => simp [QueuePc.Of] at hof
            | read | reset => cases hof
  · cases hpush <;> cases hof
  · obtain ⟨hitems, htaken, hpushed, hoverrun⟩ := pop_items hknows hpop
    exact .take rfl hitems htaken hpushed hoverrun

/-! ## Producers -/

/-- What one step of a thread does that puts `item` into the ring, or tries to. -/
inductive Sends (item : α) (s s' : MpmcBlockingQueue τ α) (pc : QueuePc α) : Next α → Prop
  | keep {next : Next α} (hsame : SameContents s s')
      (hsent : ∀ pc', next = .inl pc' → pc'.sent = pc.sent) : Sends item s s' pc next
  | push (hsent : pc.sent = false) (h : s' = s.pushBack item) :
      Sends item s s' pc (.inl .pushUnlock)

theorem Effect.sends {op : Op α} {item : α} (h : Effect t wake s pc s' next)
    (hof : pc.Of op) (hitem : op.item = some item) : Sends item s s' pc next := by
  rcases h.contents with ⟨hsame, hnext⟩ | ⟨item', hpush, rfl, rfl⟩ | ⟨item', rfl, -, -⟩
  · exact .keep hsame fun pc' hpc' => (hnext pc' hpc').1
  · cases hpush <;> cases hof <;> cases hitem <;> exact .push rfl rfl
  · obtain ⟨timed, rfl⟩ := hof
    cases timed <;> cases hitem

/-- `enqueue` returns when its item is in the ring, and it overruns nothing. -/
theorem Effect.enqueues {item : α} (h : Effect t wake s pc s' next) (hof : pc.Of (.enqueue item))
    (hknows : pc.Knows s.q_) :
    s'.overrun = s.overrun ∧ ∀ answer, next = .inr answer → pc.sent = true := by
  cases h with
  | push h =>
      cases h with
      | enqueue =>
          refine ⟨?_, fun answer hanswer => by cases hanswer⟩
          simp [MpmcBlockingQueue.pushBack, victim, show s.q_.full = false from hknows]
      | nowait | room => cases hof
  | take h =>
      obtain ⟨timed, hof⟩ := hof
      cases timed <;> cases hof
  | unlock h =>
      refine ⟨rfl, fun answer hanswer => ?_⟩
      cases h with
      | gaveUp => cases hof
      | inspected what n => cases what <;> cases hof
      | _ => cases hanswer
  | notifyConsumer => exact ⟨rfl, fun _ _ => rfl⟩
  | notifyProducer item =>
      obtain ⟨timed, hof⟩ := hof
      cases timed <;> cases hof
  | inspect what => exact ⟨by cases what <;> rfl, fun answer hanswer => by cases hanswer⟩
  | discard h =>
      refine ⟨rfl, fun answer hanswer => ?_⟩
      cases h with
      | increment =>
          obtain ⟨item', hof⟩ := hof
          cases hof
      | read | reset => cases hof
  | lock | look | blockProducer | blockConsumer =>
      exact ⟨rfl, fun answer hanswer => by cases hanswer⟩

end BlockingQueue
