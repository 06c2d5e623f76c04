import CcmakeTemplate.BlockingQueue.Model

/-!
# What one step of a method of the queue can do

`queueStep`, inverted once. What is known at a program point inside the critical section
stays true until the thread leaves it, because nobody else is inside.
-/

namespace BlockingQueue

open Concurrency Spdlog

variable {τ α : Type}

/-! ## The steps -/

/-- The mutex is taken; a sleeper has been woken up before. -/
inductive Locks (t : τ) (s : MpmcBlockingQueue τ α) : QueuePc α → QueuePc α → Prop
  | enqueue (item : α) : Locks t s (.enqueueLock item) (.enqueueCheck item)
  | producer (item : α) (hawake : t ∉ s.pop_cv_) :
      Locks t s (.enqueueWaiting item) (.enqueueCheck item)
  | nowait (item : α) : Locks t s (.nowaitLock item) (.nowaitPush item)
  | room (item : α) : Locks t s (.roomLock item) (.roomCheck item)
  | dequeue (timed : Bool) : Locks t s (.dequeueLock timed) (.dequeueCheck timed)
  | consumer (timed : Bool) (hawake : t ∉ s.push_cv_) :
      Locks t s (.dequeueWaiting timed) (.dequeueCheck timed)
  | expired : Locks t s .dequeueExpired .dequeueLastCheck
  | inspect (what : Inspect) : Locks t s (.inspectLock what) (.inspectRead what)

/-- The predicates. -/
inductive Looks (q : CircularQ α) : QueuePc α → QueuePc α → Prop
  | full (item : α) (h : q.full = true) : Looks q (.enqueueCheck item) (.enqueueBlock item)
  | room (item : α) (h : q.full = false) : Looks q (.enqueueCheck item) (.enqueuePush item)
  | refused (item : α) (h : q.full = true) : Looks q (.roomCheck item) .roomUnlock
  | accepted (item : α) (h : q.full = false) : Looks q (.roomCheck item) (.roomPush item)
  | empty (timed : Bool) (h : q.empty = true) : Looks q (.dequeueCheck timed) (.dequeueBlock timed)
  | ready (timed : Bool) (h : q.empty = false) : Looks q (.dequeueCheck timed) .dequeueTake
  | late (h : q.empty = true) : Looks q .dequeueLastCheck .dequeueGiveUp
  | inTime (h : q.empty = false) : Looks q .dequeueLastCheck .dequeueTake

inductive Pushes (item : α) : QueuePc α → Prop
  | enqueue : Pushes item (.enqueuePush item)
  | nowait : Pushes item (.nowaitPush item)
  | room : Pushes item (.roomPush item)

inductive Unlocks : QueuePc α → Next α → Prop
  | pushed : Unlocks .pushUnlock (.inl .pushNotify)
  | refused : Unlocks .roomUnlock (.inl .roomDiscard)
  | popped (item : α) : Unlocks (.popUnlock item) (.inl (.popNotify item))
  | gaveUp : Unlocks .dequeueGiveUp (.inr .timedOut)
  | inspected (what : Inspect) (n : ℕ) : Unlocks (.inspectUnlock what n) (.inr (what.answer n))

/-- The accesses to `discard_counter_`. -/
inductive Discards (s : MpmcBlockingQueue τ α) : QueuePc α → ℕ → Answer α → Prop
  | increment : Discards s .roomDiscard ((s.discard_counter_ + 1) % sizeTRange) .done
  | read : Discards s .discardRead s.discard_counter_ (.count s.discard_counter_)
  | reset : Discards s .discardReset 0 .done

inductive Effect [DecidableEq τ] (t : τ) (wake : Option τ) (s : MpmcBlockingQueue τ α) :
    QueuePc α → MpmcBlockingQueue τ α → Next α → Prop
  | lock {pc pc' : QueuePc α} (h : Locks t s pc pc') (hfree : s.queue_mutex_ = none) :
      Effect t wake s pc { s with queue_mutex_ := some t } (.inl pc')
  | look {pc pc' : QueuePc α} (h : Looks s.q_ pc pc') : Effect t wake s pc s (.inl pc')
  | blockProducer (item : α) :
      Effect t wake s (.enqueueBlock item)
        { s with queue_mutex_ := none, pop_cv_ := s.pop_cv_.block t } (.inl (.enqueueWaiting item))
  | blockConsumer (timed : Bool) :
      Effect t wake s (.dequeueBlock timed)
        { s with queue_mutex_ := none, push_cv_ := s.push_cv_.block t }
        (.inl (.dequeueWaiting timed))
  | push {item : α} {pc : QueuePc α} (h : Pushes item pc) :
      Effect t wake s pc (s.pushBack item) (.inl .pushUnlock)
  | take {item : α} {s' : MpmcBlockingQueue τ α} (h : s.popFront = some (item, s')) :
      Effect t wake s .dequeueTake s' (.inl (.popUnlock item))
  | unlock {pc : QueuePc α} {next : Next α} (h : Unlocks pc next) :
      Effect t wake s pc { s with queue_mutex_ := none } next
  | notifyConsumer {cv : CondVar τ} (h : s.push_cv_.notifyOne wake = some cv) :
      Effect t wake s .pushNotify { s with push_cv_ := cv } (.inr .done)
  | notifyProducer (item : α) {cv : CondVar τ} (h : s.pop_cv_.notifyOne wake = some cv) :
      Effect t wake s (.popNotify item) { s with pop_cv_ := cv } (.inr (.item item))
  | inspect (what : Inspect) :
      Effect t wake s (.inspectRead what) (what.apply s) (.inl (.inspectUnlock what (what.read s)))
  | discard {pc : QueuePc α} {n : ℕ} {answer : Answer α} (h : Discards s pc n answer) :
      Effect t wake s pc { s with discard_counter_ := n } (.inr answer)

section

variable [DecidableEq τ] {t : τ} {wake : Option τ} {s s' : MpmcBlockingQueue τ α}
  {pc pc' : QueuePc α} {next : Next α}

theorem effect_lock (hpc : Locks t s pc pc') (h : s.lockThen t pc' = some (s', next)) :
    Effect t wake s pc s' next := by
  obtain ⟨m, hm, heq⟩ := Option.map_eq_some_iff.mp h
  cases heq
  obtain ⟨hfree, rfl⟩ := Mutex.lock_eq_some.mp hm
  exact .lock hpc hfree

/-- A predicate chooses between two program points. -/
theorem effect_look {b : Bool} {yes no : QueuePc α}
    (h : some (s, Sum.inl (if b then yes else no)) = some (s', next))
    (hyes : b = true → Looks s.q_ pc yes) (hno : b = false → Looks s.q_ pc no) :
    Effect t wake s pc s' next := by
  cases h
  cases b with
  | true => exact .look (hyes rfl)
  | false => exact .look (hno rfl)

theorem queueStep_cases (h : queueStep t wake s pc = some (s', next)) :
    Effect t wake s pc s' next := by
  cases pc with
  | enqueueLock item => exact effect_lock (.enqueue item) h
  | enqueueCheck item => exact effect_look h (.full item) (.room item)
  | enqueueBlock item =>
      cases h
      exact .blockProducer item
  | enqueueWaiting item =>
      simp only [queueStep] at h
      split at h
      · cases h
      · rename_i hawake
        exact effect_lock (.producer item hawake) h
  | enqueuePush item =>
      cases h
      exact .push .enqueue
  | nowaitLock item => exact effect_lock (.nowait item) h
  | nowaitPush item =>
      cases h
      exact .push .nowait
  | roomLock item => exact effect_lock (.room item) h
  | roomCheck item => exact effect_look h (.refused item) (.accepted item)
  | roomPush item =>
      cases h
      exact .push .room
  | roomUnlock =>
      cases h
      exact .unlock .refused
  | roomDiscard =>
      cases h
      exact .discard .increment
  | pushUnlock =>
      cases h
      exact .unlock .pushed
  | pushNotify =>
      obtain ⟨cv, hcv, heq⟩ := Option.map_eq_some_iff.mp h
      cases heq
      exact .notifyConsumer hcv
  | dequeueLock timed => exact effect_lock (.dequeue timed) h
  | dequeueCheck timed => exact effect_look h (.empty timed) (.ready timed)
  | dequeueBlock timed =>
      cases h
      exact .blockConsumer timed
  | dequeueWaiting timed =>
      simp only [queueStep] at h
      split at h
      · cases h
      · rename_i hawake
        exact effect_lock (.consumer timed hawake) h
  | dequeueExpired => exact effect_lock .expired h
  | dequeueLastCheck => exact effect_look h .late .inTime
  | dequeueGiveUp =>
      cases h
      exact .unlock .gaveUp
  | dequeueTake =>
      obtain ⟨⟨item, s₁⟩, hpop, heq⟩ := Option.map_eq_some_iff.mp h
      cases heq
      exact .take hpop
  | popUnlock item =>
      cases h
      exact .unlock (.popped item)
  | popNotify item =>
      obtain ⟨cv, hcv, heq⟩ := Option.map_eq_some_iff.mp h
      cases heq
      exact .notifyProducer item hcv
  | inspectLock what => exact effect_lock (.inspect what) h
  | inspectRead what =>
      cases h
      exact .inspect what
  | inspectUnlock what n =>
      cases h
      exact .unlock (.inspected what n)
  | discardRead =>
      cases h
      exact .discard .read
  | discardReset =>
      cases h
      exact .discard .reset

omit [DecidableEq τ] in
theorem popFront_cases {item : α} (h : s.popFront = some (item, s')) :
    ∃ q, s.q_.front = some item ∧ s.q_.popFront = some q ∧
      s' = { s with q_ := q, taken := s.taken ++ [item] } := by
  unfold MpmcBlockingQueue.popFront at h
  split at h
  · rename_i hfront hpop
    cases h
    exact ⟨_, hfront, hpop, rfl⟩
  · cases h

end

/-! ## The critical section -/

def QueuePc.inside : QueuePc α → Bool
  | .enqueueCheck _ | .enqueueBlock _ | .enqueuePush _ | .nowaitPush _ | .roomCheck _
  | .roomPush _ | .roomUnlock | .pushUnlock | .dequeueCheck _ | .dequeueBlock _
  | .dequeueLastCheck | .dequeueGiveUp | .dequeueTake | .popUnlock _ | .inspectRead _
  | .inspectUnlock _ _ => true
  | _ => false

/-- Where the mutex is held, outside the methods included. -/
def holds : Option (QueuePc α) → Bool
  | some pc => pc.inside
  | none => false

/-- What a thread has seen of the ring and still relies on. -/
def QueuePc.Knows (q : CircularQ α) : QueuePc α → Prop
  | .enqueuePush _ | .roomPush _ => q.full = false
  | .enqueueBlock _ => q.full = true
  | .dequeueTake => q.empty = false
  | .dequeueBlock _ | .dequeueGiveUp => q.empty = true
  | _ => True

theorem QueuePc.Knows.outside {q : CircularQ α} {pc : QueuePc α} (h : pc.inside = false) :
    pc.Knows q := by
  cases pc <;> trivial

section

variable [DecidableEq τ] {t : τ} {wake : Option τ} {s s' : MpmcBlockingQueue τ α}
  {pc : QueuePc α} {next : Next α}

theorem Effect.handover (h : Effect t wake s pc s' next) :
    Mutex.Handover t s.queue_mutex_ pc.inside s'.queue_mutex_ (holds next.getLeft?) := by
  cases h with
  | lock h hfree => exact .take hfree rfl
  | look h => cases h <;> exact .keep rfl rfl
  | blockProducer item => exact .release rfl rfl rfl
  | blockConsumer timed => exact .release rfl rfl rfl
  | push h => cases h <;> exact .keep rfl rfl
  | take h =>
      obtain ⟨q, -, -, rfl⟩ := popFront_cases h
      exact .keep rfl rfl
  | unlock h => cases h <;> exact .release rfl rfl rfl
  | notifyConsumer h => exact .keep rfl rfl
  | notifyProducer item h => exact .keep rfl rfl
  | inspect what => cases what <;> exact .keep rfl rfl
  | discard h => cases h <;> exact .keep rfl rfl

theorem Effect.takes_inside (h : Effect t wake s pc s' next) (hfree : s.queue_mutex_ = none)
    (htake : s'.queue_mutex_ = some t) : holds next.getLeft? = true := by
  cases h with
  | lock h _ => cases h <;> rfl
  | take h =>
      obtain ⟨q, -, -, rfl⟩ := popFront_cases h
      cases hfree.symm.trans htake
  | inspect what => cases what <;> cases hfree.symm.trans htake
  | blockProducer | blockConsumer | unlock => cases htake
  | look | push | notifyConsumer | notifyProducer | discard => cases hfree.symm.trans htake

/-- The ring changes only at the hands of a thread inside. -/
theorem Effect.ring (h : Effect t wake s pc s' next) : s'.q_ = s.q_ ∨ pc.inside = true := by
  cases h with
  | push h => cases h <;> exact .inr rfl
  | take h => exact .inr rfl
  | inspect what => exact .inr rfl
  | _ => exact .inl rfl

theorem Effect.knows (h : Effect t wake s pc s' next) :
    ∀ pc', next = .inl pc' → pc'.Knows s'.q_ := by
  intro pc' hnext
  cases h with
  | lock h _ =>
      cases hnext
      cases h <;> trivial
  | look h =>
      cases hnext
      cases h <;> trivial
  | unlock h =>
      cases h with
      | gaveUp | inspected => cases hnext
      | _ =>
          cases hnext
          trivial
  | notifyConsumer | notifyProducer | discard => cases hnext
  | _ =>
      cases hnext
      trivial

/-- The size of the ring never changes. -/
theorem Effect.max_items (h : Effect t wake s pc s' next) :
    s'.q_.max_items_ = s.q_.max_items_ := by
  cases h with
  | push h => exact CircularQ.pushBack_max_items _ _
  | take h =>
      obtain ⟨q, -, hpop, rfl⟩ := popFront_cases h
      unfold CircularQ.popFront at hpop
      split at hpop
      · cases hpop
      · cases hpop
        rfl
  | inspect what => cases what <;> rfl
  | _ => rfl

/-- A sleeper does not move. -/
theorem Effect.awake (h : Effect t wake s pc s' next) :
    (∀ timed, pc = .dequeueWaiting timed → t ∉ s.push_cv_) ∧
      ∀ item, pc = .enqueueWaiting item → t ∉ s.pop_cv_ := by
  cases h with
  | lock h _ =>
      cases h with
      | producer item hawake => exact ⟨by simp, fun _ _ => hawake⟩
      | consumer timed hawake => exact ⟨fun _ _ => hawake, by simp⟩
      | _ => exact ⟨by simp, by simp⟩
  | look h | push h | unlock h | discard h => cases h <;> exact ⟨by simp, by simp⟩
  | _ => exact ⟨by simp, by simp⟩

theorem notifyOne_sublist {cv cv' : CondVar τ} (h : cv.notifyOne wake = some cv') :
    cv'.Sublist cv := by
  rcases CondVar.notifyOne_eq_some h with ⟨rfl, rfl⟩ | ⟨u, -, rfl⟩
  · exact List.Sublist.slnil
  · exact List.erase_sublist

theorem Effect.push_cv (h : Effect t wake s pc s' next) :
    (∃ timed, pc = .dequeueBlock timed ∧ next = .inl (.dequeueWaiting timed) ∧
      s'.push_cv_ = t :: s.push_cv_) ∨ s'.push_cv_.Sublist s.push_cv_ := by
  cases h with
  | blockConsumer timed => exact .inl ⟨timed, rfl, rfl, rfl⟩
  | take h =>
      obtain ⟨q, -, -, rfl⟩ := popFront_cases h
      exact .inr (List.Sublist.refl _)
  | notifyConsumer h => exact .inr (notifyOne_sublist h)
  | inspect what => cases what <;> exact .inr (List.Sublist.refl _)
  | _ => exact .inr (List.Sublist.refl _)

theorem Effect.pop_cv (h : Effect t wake s pc s' next) :
    (∃ item, pc = .enqueueBlock item ∧ next = .inl (.enqueueWaiting item) ∧
      s'.pop_cv_ = t :: s.pop_cv_) ∨ s'.pop_cv_.Sublist s.pop_cv_ := by
  cases h with
  | blockProducer item => exact .inl ⟨item, rfl, rfl, rfl⟩
  | take h =>
      obtain ⟨q, -, -, rfl⟩ := popFront_cases h
      exact .inr (List.Sublist.refl _)
  | notifyProducer item h => exact .inr (notifyOne_sublist h)
  | inspect what => cases what <;> exact .inr (List.Sublist.refl _)
  | _ => exact .inr (List.Sublist.refl _)

end

/-! ## The method of a program point -/

def Inspect.op : Inspect → Op α
  | .size => .size
  | .overrunCounter => .overrunCounter
  | .resetOverrunCounter => .resetOverrunCounter

def dequeueOp (timed : Bool) : Op α := if timed then .dequeueFor else .dequeue

/-- The program point belongs to the call. -/
def QueuePc.Of (op : Op α) : QueuePc α → Prop
  | .enqueueLock item | .enqueueCheck item | .enqueueBlock item | .enqueueWaiting item
  | .enqueuePush item => op = .enqueue item
  | .nowaitLock item | .nowaitPush item => op = .enqueueNowait item
  | .roomLock item | .roomCheck item | .roomPush item => op = .enqueueIfHaveRoom item
  | .roomUnlock | .roomDiscard => ∃ item, op = .enqueueIfHaveRoom item
  | .pushUnlock | .pushNotify =>
      ∃ item, op = .enqueue item ∨ op = .enqueueNowait item ∨ op = .enqueueIfHaveRoom item
  | .dequeueLock timed | .dequeueCheck timed | .dequeueBlock timed | .dequeueWaiting timed =>
      op = dequeueOp timed
  | .dequeueExpired | .dequeueLastCheck | .dequeueGiveUp => op = .dequeueFor
  | .dequeueTake | .popUnlock _ | .popNotify _ => ∃ timed, op = dequeueOp timed
  | .inspectLock what | .inspectRead what | .inspectUnlock what _ => op = what.op
  | .discardRead => op = .discardCounter
  | .discardReset => op = .resetDiscardCounter

theorem Op.entry_of (op : Op α) : op.entry.Of op := by
  cases op <;> rfl

theorem Effect.of [DecidableEq τ] {t : τ} {wake : Option τ} {s s' : MpmcBlockingQueue τ α}
    {op : Op α} {pc : QueuePc α} {next : Next α} (h : Effect t wake s pc s' next)
    (hof : pc.Of op) : ∀ pc', next = .inl pc' → pc'.Of op := by
  intro pc' hnext
  cases h with
  | lock h _ =>
      cases hnext
      cases h <;> exact hof
  | look h =>
      cases hnext
      cases h with
      | ready timed => exact ⟨timed, hof⟩
      | inTime => exact ⟨true, hof⟩
      | refused item => exact ⟨item, hof⟩
      | _ => exact hof
  | blockProducer | blockConsumer =>
      cases hnext
      exact hof
  | unlock h => cases h <;> cases hnext <;> exact hof
  | @push item _ h =>
      cases hnext
      refine ⟨item, ?_⟩
      cases h with
      | enqueue => exact .inl hof
      | nowait => exact .inr (.inl hof)
      | room => exact .inr (.inr hof)
  | take | inspect =>
      cases hnext
      exact hof
  | notifyConsumer | notifyProducer | discard => cases hnext

/-! ## Every reachable state -/

section

variable [DecidableEq τ]

inductive Step (s : State τ α) : Action τ α → State τ α → Prop
  | call (t : τ) (op : Op α) (hpc : s.pc t = none) :
      Step s (.call t op) (s.go t (some op.entry))
  | move {t : τ} {wake : Option τ} {pc : QueuePc α} {queue : MpmcBlockingQueue τ α}
      {next : Next α} (hpc : s.pc t = some pc) (h : Effect t wake s.queue pc queue next) :
      Step s (.step t wake) ({ s with queue := queue }.go t next.getLeft?)
  | spurious (t : τ) : Step s (.spurious t) { s with queue := s.queue.unblock t }
  | timeout {t : τ} (hpc : s.pc t = some (.dequeueWaiting true)) :
      Step s (.timeout t) ({ s with queue := s.queue.unblock t }.go t (some .dequeueExpired))

theorem step_cases {s s' : State τ α} {a : Action τ α} (h : step s a = some s') :
    Step s a s' := by
  cases a with
  | call t op =>
      cases hpc : s.pc t with
      | none =>
          simp only [step, hpc] at h
          cases h
          exact .call t op hpc
      | some pc => simp [step, hpc] at h
  | step t wake =>
      obtain ⟨pc, hpc, hmap⟩ := Option.bind_eq_some_iff.mp h
      obtain ⟨⟨queue, next⟩, hstep, rfl⟩ := Option.map_eq_some_iff.mp hmap
      exact .move hpc (queueStep_cases hstep)
  | spurious t =>
      cases h
      exact .spurious t
  | timeout t =>
      simp only [step] at h
      split at h
      · rename_i hpc
        cases h
        exact .timeout hpc
      · cases h

/-- The critical section, what is known inside it, and who sleeps where. -/
structure Inv (max_items : ℕ) (s : State τ α) : Prop where
  mutex : s.queue.queue_mutex_.Exact fun t => holds (s.pc t)
  max_items : s.queue.q_.max_items_ = max_items + 1
  knows : ∀ t pc, s.pc t = some pc → pc.Knows s.queue.q_
  consumers : ∀ t ∈ s.queue.push_cv_, ∃ timed, s.pc t = some (.dequeueWaiting timed)
  producers : ∀ t ∈ s.queue.pop_cv_, ∃ item, s.pc t = some (.enqueueWaiting item)
  consumers_nodup : s.queue.push_cv_.Nodup
  producers_nodup : s.queue.pop_cv_.Nodup

theorem Op.entry_outside (op : Op α) : op.entry.inside = false := by
  cases op <;> rfl

/-- The other threads stay where they are. -/
theorem go_of_ne {s : State τ α} {t u : τ} (pc : Option (QueuePc α)) (hut : u ≠ t) :
    (s.go t pc).pc u = s.pc u := Function.update_of_ne hut ..

theorem go_self (s : State τ α) (t : τ) (pc : Option (QueuePc α)) : (s.go t pc).pc t = pc :=
  Function.update_self ..

variable {max_items : ℕ} {s s' : State τ α}

omit [DecidableEq τ] in
theorem Inv.init [Inhabited α] (h : max_items + 1 < sizeTRange) :
    Inv max_items ({ queue := .new max_items, pc := fun _ => none } : State τ α) where
  mutex := fun t => by simp [MpmcBlockingQueue.new, holds]
  max_items := Nat.mod_eq_of_lt h
  knows := by simp
  consumers := by simp [MpmcBlockingQueue.new]
  producers := by simp [MpmcBlockingQueue.new]
  consumers_nodup := List.nodup_nil
  producers_nodup := List.nodup_nil

omit [DecidableEq τ] in
/-- A consumer that is in nobody's sight sleeps nowhere. -/
theorem Inv.not_consumer (hs : Inv max_items s) {t : τ}
    (h : ∀ timed, s.pc t ≠ some (.dequeueWaiting timed)) : t ∉ s.queue.push_cv_ := by
  intro hmem
  obtain ⟨timed, hpc⟩ := hs.consumers t hmem
  exact h timed hpc

omit [DecidableEq τ] in
theorem Inv.not_producer (hs : Inv max_items s) {t : τ}
    (h : ∀ item, s.pc t ≠ some (.enqueueWaiting item)) : t ∉ s.queue.pop_cv_ := by
  intro hmem
  obtain ⟨item, hpc⟩ := hs.producers t hmem
  exact h item hpc

/-- Another program point outside the critical section. -/
theorem Inv.go (hs : Inv max_items s) {t : τ} {pc : QueuePc α}
    (hout : holds (s.pc t) = false) (hpc : pc.inside = false)
    (hpush : t ∉ s.queue.push_cv_) (hpop : t ∉ s.queue.pop_cv_) :
    Inv max_items (s.go t (some pc)) where
  mutex := by
    refine hs.mutex.step (t := t) (.keep rfl ?_) ?_ ?_
    · rw [go_self, hout]
      exact hpc
    · intro hfree htake
      cases hfree.symm.trans htake
    · intro u hut
      rw [go_of_ne _ hut]
  max_items := hs.max_items
  knows := by
    intro u pc' hu
    by_cases hut : u = t
    · subst hut
      rw [go_self] at hu
      cases hu
      exact QueuePc.Knows.outside hpc
    · rw [go_of_ne _ hut] at hu
      exact hs.knows u pc' hu
  consumers := by
    intro u hu
    have hut : u ≠ t := fun heq => hpush (heq ▸ hu)
    rw [go_of_ne _ hut]
    exact hs.consumers u hu
  producers := by
    intro u hu
    have hut : u ≠ t := fun heq => hpop (heq ▸ hu)
    rw [go_of_ne _ hut]
    exact hs.producers u hu
  consumers_nodup := hs.consumers_nodup
  producers_nodup := hs.producers_nodup

theorem Inv.unblock (hs : Inv max_items s) (t : τ) :
    Inv max_items { s with queue := s.queue.unblock t } where
  mutex := hs.mutex
  max_items := hs.max_items
  knows := hs.knows
  consumers := fun u hu => hs.consumers u (List.mem_of_mem_erase hu)
  producers := fun u hu => hs.producers u (List.mem_of_mem_erase hu)
  consumers_nodup := hs.consumers_nodup.erase t
  producers_nodup := hs.producers_nodup.erase t

theorem Inv.move (hs : Inv max_items s) {t : τ} {wake : Option τ} {pc : QueuePc α}
    {queue : MpmcBlockingQueue τ α} {next : Next α} (hpc : s.pc t = some pc)
    (h : Effect t wake s.queue pc queue next) :
    Inv max_items ({ s with queue := queue }.go t next.getLeft?) where
  mutex := by
    refine hs.mutex.step (t := t) ?_ ?_ ?_
    · rw [go_self, hpc]
      exact h.handover
    · rw [go_self]
      exact h.takes_inside
    · intro u hut
      rw [go_of_ne _ hut]
  max_items := h.max_items.trans hs.max_items
  knows := by
    intro u pc' hu
    by_cases hut : u = t
    · subst hut
      rw [go_self] at hu
      exact h.knows pc' (Sum.getLeft?_eq_some_iff.mp hu)
    · rw [go_of_ne _ hut] at hu
      have hknows := hs.knows u pc' hu
      rcases h.ring with hsame | hinside
      · change pc'.Knows queue.q_
        rw [hsame]
        exact hknows
      · -- nobody else is inside to know anything
        refine QueuePc.Knows.outside (Bool.eq_false_iff.mpr fun hpc' => hut ?_)
        exact hs.mutex.unique (congrArg holds hu ▸ hpc') (congrArg holds hpc ▸ hinside)
  consumers := by
    intro u hu
    rcases h.push_cv with ⟨timed, rfl, rfl, hcv⟩ | hsub
    · rw [hcv] at hu
      rcases List.mem_cons.mp hu with rfl | hu
      · exact ⟨timed, go_self ..⟩
      · obtain ⟨timed', hu'⟩ := hs.consumers u hu
        refine ⟨timed', (go_of_ne _ fun heq => ?_).trans hu'⟩
        subst heq
        cases hpc.symm.trans hu'
    · have hold := hsub.mem hu
      obtain ⟨timed, hu'⟩ := hs.consumers u hold
      refine ⟨timed, (go_of_ne _ fun heq => ?_).trans hu'⟩
      subst heq
      exact h.awake.1 timed (Option.some.inj (hpc.symm.trans hu')) hold
  producers := by
    intro u hu
    rcases h.pop_cv with ⟨item, rfl, rfl, hcv⟩ | hsub
    · rw [hcv] at hu
      rcases List.mem_cons.mp hu with rfl | hu
      · exact ⟨item, go_self ..⟩
      · obtain ⟨item', hu'⟩ := hs.producers u hu
        refine ⟨item', (go_of_ne _ fun heq => ?_).trans hu'⟩
        subst heq
        cases hpc.symm.trans hu'
    · have hold := hsub.mem hu
      obtain ⟨item, hu'⟩ := hs.producers u hold
      refine ⟨item, (go_of_ne _ fun heq => ?_).trans hu'⟩
      subst heq
      exact h.awake.2 item (Option.some.inj (hpc.symm.trans hu')) hold
  consumers_nodup := by
    rcases h.push_cv with ⟨timed, rfl, rfl, hcv⟩ | hsub
    · change queue.push_cv_.Nodup
      rw [hcv]
      exact List.nodup_cons.mpr ⟨hs.not_consumer (by simp [hpc]), hs.consumers_nodup⟩
    · exact hs.consumers_nodup.sublist hsub
  producers_nodup := by
    rcases h.pop_cv with ⟨item, rfl, rfl, hcv⟩ | hsub
    · change queue.pop_cv_.Nodup
      rw [hcv]
      exact List.nodup_cons.mpr ⟨hs.not_producer (by simp [hpc]), hs.producers_nodup⟩
    · exact hs.producers_nodup.sublist hsub

theorem Inv.step {a : Action τ α} (hs : Inv max_items s) (h : Step s a s') :
    Inv max_items s' := by
  cases h with
  | call t op hpc =>
      refine hs.go (by rw [hpc]; rfl) op.entry_outside ?_ ?_
      · exact hs.not_consumer (by simp [hpc])
      · exact hs.not_producer (by simp [hpc])
  | move hpc h => exact hs.move hpc h
  | spurious t => exact hs.unblock t
  | @timeout t hpc =>
      refine (hs.unblock t).go (congrArg holds hpc) rfl ?_ ?_
      · exact hs.consumers_nodup.not_mem_erase
      · exact hs.producers_nodup.not_mem_erase

theorem Inv.of_reach [Inhabited α] (hmax : max_items + 1 < sizeTRange)
    {G : State τ α → Action τ α → Prop} (h : (machine τ α max_items).ReachBy G s) :
    Inv max_items s := by
  refine h.invariant (P := Inv max_items) ?_ ?_
  · rintro s rfl
    exact Inv.init hmax
  · intro s a t _ hs _ hst
    exact hs.step (step_cases hst)

end

end BlockingQueue
