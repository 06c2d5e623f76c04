import CcmakeTemplate.BlockingQueue.Contents
import CcmakeTemplate.Concurrency.Watch

/-!
# No wake-up of the queue is lost

Each item in the ring has a thread that attends to the sleeping consumers: it will notify
one of them, or it is a consumer itself that is awake and will take the item. Each free
place in the ring has a thread that attends to the sleeping producers in the same way. So
when nobody can move any more, consumers sleep beside an empty ring only, and producers
beside a full one.
-/

namespace BlockingQueue

open Concurrency Spdlog

variable {τ α : Type} [DecidableEq τ]

/-! ## Who attends to whom -/

/-- The thread will notify a consumer, or will look for an item before it sleeps. -/
def attendsItems (push_cv_ : CondVar τ) (t : τ) : Option (QueuePc α) → Prop
  | some .pushUnlock | some .pushNotify | some (.dequeueCheck _) | some .dequeueTake
  | some .dequeueExpired | some .dequeueLastCheck => True
  | some (.dequeueWaiting _) => t ∉ push_cv_
  | _ => False

/-- The thread will notify a producer, or will look for room before it sleeps. -/
def attendsRoom (pop_cv_ : CondVar τ) (t : τ) : Option (QueuePc α) → Prop
  | some (.popUnlock _) | some (.popNotify _) | some (.enqueueCheck _)
  | some (.enqueuePush _) => True
  | some (.enqueueWaiting _) => t ∉ pop_cv_
  | _ => False

/-- Sleepers are attended to. -/
structure Attended (max_items : ℕ) (s : State τ α) : Prop where
  items : Watched s.queue.push_cv_ s.queue.q_.items.length
    fun t => attendsItems s.queue.push_cv_ t (s.pc t)
  room : Watched s.queue.pop_cv_ (max_items - s.queue.q_.items.length)
    fun t => attendsRoom s.queue.pop_cv_ t (s.pc t)

omit [DecidableEq τ] in
theorem attendsItems_mono {cv cv' : CondVar τ} {t : τ} {pc : Option (QueuePc α)}
    (hcv : t ∈ cv' → t ∈ cv) (h : attendsItems cv t pc) : attendsItems cv' t pc := by
  unfold attendsItems at h ⊢
  split at h
  case h_7 => exact fun hmem => h (hcv hmem)
  all_goals trivial

omit [DecidableEq τ] in
theorem attendsRoom_mono {cv cv' : CondVar τ} {t : τ} {pc : Option (QueuePc α)}
    (hcv : t ∈ cv' → t ∈ cv) (h : attendsRoom cv t pc) : attendsRoom cv' t pc := by
  unfold attendsRoom at h ⊢
  split at h
  case h_5 => exact fun hmem => h (hcv hmem)
  all_goals trivial

variable {max_items : ℕ} {s : State τ α} {queue : MpmcBlockingQueue τ α} {t : τ}
  {pc : Option (QueuePc α)}

/-- The threads that do not move. -/
theorem items_others (hcv : ∀ v ≠ t, v ∈ queue.push_cv_ → v ∈ s.queue.push_cv_) :
    ∀ u, u ≠ t → attendsItems s.queue.push_cv_ u (s.pc u) →
      attendsItems queue.push_cv_ u (({ s with queue := queue }.go t pc).pc u) := by
  intro u hut hu
  rw [go_of_ne _ hut]
  exact attendsItems_mono (hcv u hut) hu

theorem room_others (hcv : ∀ v ≠ t, v ∈ queue.pop_cv_ → v ∈ s.queue.pop_cv_) :
    ∀ u, u ≠ t → attendsRoom s.queue.pop_cv_ u (s.pc u) →
      attendsRoom queue.pop_cv_ u (({ s with queue := queue }.go t pc).pc u) := by
  intro u hut hu
  rw [go_of_ne _ hut]
  exact attendsRoom_mono (hcv u hut) hu

/-- A thread that goes on attending if it did. -/
theorem items_all (hsub : queue.push_cv_.Sublist s.queue.push_cv_)
    (ht : attendsItems s.queue.push_cv_ t (s.pc t) → attendsItems queue.push_cv_ t pc) :
    ∀ u, attendsItems s.queue.push_cv_ u (s.pc u) →
      attendsItems queue.push_cv_ u (({ s with queue := queue }.go t pc).pc u) := by
  intro u hu
  by_cases hut : u = t
  · subst hut
    rw [go_self]
    exact ht hu
  · exact items_others (fun v _ hv => hsub.mem hv) u hut hu

theorem room_all (hsub : queue.pop_cv_.Sublist s.queue.pop_cv_)
    (ht : attendsRoom s.queue.pop_cv_ t (s.pc t) → attendsRoom queue.pop_cv_ t pc) :
    ∀ u, attendsRoom s.queue.pop_cv_ u (s.pc u) →
      attendsRoom queue.pop_cv_ u (({ s with queue := queue }.go t pc).pc u) := by
  intro u hu
  by_cases hut : u = t
  · subst hut
    rw [go_self]
    exact ht hu
  · exact room_others (fun v _ hv => hsub.mem hv) u hut hu

omit [DecidableEq τ] in
theorem eq_nil_of_sublist {cv cv' : CondVar τ} (hsub : cv'.Sublist cv) (h : cv = []) :
    cv' = [] := by
  subst h
  exact List.sublist_nil.mp hsub

/-! ## One step -/

omit [DecidableEq τ] in
theorem push_items_length {q : CircularQ α} (hmax : q.max_items_ = max_items + 1) (item : α) :
    (q.pushBack item).items.length = min (q.items.length + 1) max_items := by
  have hlt : q.items.length < q.max_items_ := by
    rw [CircularQ.length_items]
    exact CircularQ.size_lt (by omega)
  cases hfull : q.full with
  | false =>
      have hroom : q.items.length + 1 ≠ q.max_items_ := fun heq => by
        simp [(CircularQ.full_iff q).mpr ⟨by omega, heq⟩] at hfull
      rw [(CircularQ.items_pushBack_of_room (by omega) hfull item).1, List.length_append,
        List.length_singleton]
      omega
  | true =>
      have hlen := ((CircularQ.full_iff q).mp hfull).2
      rw [(CircularQ.items_pushBack_of_full hfull item).1, List.length_tail, List.length_append,
        List.length_singleton]
      omega

section

variable {wake : Option τ} {pc : QueuePc α} {next : Next α}

theorem items_move (hs : Inv max_items s) (hitems : Watched s.queue.push_cv_
      s.queue.q_.items.length fun t => attendsItems s.queue.push_cv_ t (s.pc t))
    (hpc : s.pc t = some pc) (h : Effect t wake s.queue pc queue next) :
    Watched queue.push_cv_ queue.q_.items.length fun u =>
      attendsItems queue.push_cv_ u (({ s with queue := queue }.go t next.getLeft?).pc u) := by
  have hknows := hs.knows t pc hpc
  have hkeep : ∀ {queue : MpmcBlockingQueue τ α} {pc' : Option (QueuePc α)},
      queue.push_cv_.Sublist s.queue.push_cv_ → queue.q_.items.length = s.queue.q_.items.length →
      (attendsItems s.queue.push_cv_ t (some pc) → attendsItems queue.push_cv_ t pc') →
      Watched queue.push_cv_ queue.q_.items.length fun u =>
        attendsItems queue.push_cv_ u (({ s with queue := queue }.go t pc').pc u) :=
    fun hsub hlen ht =>
      hitems.keep (eq_nil_of_sublist hsub) hlen.le (items_all hsub (by rwa [hpc]))
  cases h with
  | lock h hfree =>
      refine hkeep (.refl _) rfl ?_
      cases h <;> intro ht <;> trivial
  | look h =>
      cases h with
      | empty timed hempty | late hempty =>
          rw [(CircularQ.empty_iff _).mp hempty]
          exact .nothing _ _
      | _ => exact hkeep (.refl _) rfl fun ht => by trivial
  | blockProducer item => exact hkeep (.refl _) rfl fun ht => by trivial
  | blockConsumer timed =>
      -- a consumer goes to sleep beside an empty ring
      change Watched (s.queue.push_cv_.block t) s.queue.q_.items.length _
      rw [(CircularQ.empty_iff _).mp hknows]
      exact .nothing _ _
  | push h =>
      refine hitems.gain (t := t) id ?_ ?_ ?_ ?_
      · change (s.queue.q_.pushBack _).items.length ≤ _
        rw [push_items_length hs.max_items]
        omega
      · rw [hpc]
        cases h <;> exact id
      · rw [go_self]
        trivial
      · refine items_all (.refl _) fun ht => ?_
        trivial
  | take h =>
      obtain ⟨hold, -, -, -⟩ := pop_items hknows h
      have hcv : queue.push_cv_ = s.queue.push_cv_ := by
        obtain ⟨q, -, -, rfl⟩ := popFront_cases h
        rfl
      refine hitems.take (t := t) (fun hnil => hcv.trans hnil) ?_ ?_
      · rw [hold, List.length_cons]
        omega
      · exact items_others fun v _ hv => hcv ▸ hv
  | unlock h =>
      refine hkeep (.refl _) rfl ?_
      cases h <;> intro ht <;> trivial
  | notifyConsumer h =>
      refine hitems.notify (t := t) h hs.consumers_nodup ?_ ?_ ?_
      · intro u hu
        obtain ⟨timed, hu'⟩ := hs.consumers u hu
        rw [hu']
        exact fun hawake => hawake hu
      · intro u hu hu'
        obtain ⟨timed, hpcu⟩ := hs.consumers u hu
        have hut : u ≠ t := by
          rintro rfl
          cases hpc.symm.trans hpcu
        rw [go_of_ne _ hut, hpcu]
        exact hu'
      · exact items_others fun v _ hv => (notifyOne_sublist h).mem hv
  | notifyProducer item h => exact hkeep (.refl _) rfl fun ht => by trivial
  | inspect what => cases what <;> exact hkeep (.refl _) rfl fun ht => by trivial
  | discard h =>
      refine hkeep (.refl _) rfl ?_
      cases h <;> intro ht <;> trivial

theorem room_move (hs : Inv max_items s) (hroom : Watched s.queue.pop_cv_
      (max_items - s.queue.q_.items.length) fun t => attendsRoom s.queue.pop_cv_ t (s.pc t))
    (hpc : s.pc t = some pc) (h : Effect t wake s.queue pc queue next) :
    Watched queue.pop_cv_ (max_items - queue.q_.items.length) fun u =>
      attendsRoom queue.pop_cv_ u (({ s with queue := queue }.go t next.getLeft?).pc u) := by
  have hknows := hs.knows t pc hpc
  have hkeep : ∀ {queue : MpmcBlockingQueue τ α} {pc' : Option (QueuePc α)},
      queue.pop_cv_.Sublist s.queue.pop_cv_ →
      max_items - queue.q_.items.length ≤ max_items - s.queue.q_.items.length →
      (attendsRoom s.queue.pop_cv_ t (some pc) → attendsRoom queue.pop_cv_ t pc') →
      Watched queue.pop_cv_ (max_items - queue.q_.items.length) fun u =>
        attendsRoom queue.pop_cv_ u (({ s with queue := queue }.go t pc').pc u) :=
    fun hsub hlen ht => hroom.keep (eq_nil_of_sublist hsub) hlen (room_all hsub (by rwa [hpc]))
  have hnone : s.queue.q_.full = true → max_items - s.queue.q_.items.length = 0 := by
    intro hfull
    have hlen := ((CircularQ.full_iff _).mp hfull).2
    rw [hs.max_items] at hlen
    omega
  cases h with
  | lock h hfree =>
      refine hkeep (.refl _) le_rfl ?_
      cases h <;> intro ht <;> trivial
  | look h =>
      cases h with
      | full item hfull =>
          rw [hnone hfull]
          exact .nothing _ _
      | _ => exact hkeep (.refl _) le_rfl fun ht => by trivial
  | blockProducer item =>
      -- a producer goes to sleep beside a full ring
      change Watched (s.queue.pop_cv_.block t) (max_items - s.queue.q_.items.length) _
      rw [hnone hknows]
      exact .nothing _ _
  | blockConsumer timed => exact hkeep (.refl _) le_rfl fun ht => by trivial
  | @push item _ h =>
      have hlen : (s.queue.pushBack item).q_.items.length =
          min (s.queue.q_.items.length + 1) max_items := push_items_length hs.max_items item
      cases h with
      | enqueue =>
          refine hroom.take (t := t) id ?_ (room_others fun v _ hv => hv)
          omega
      | nowait | room =>
          refine hkeep (.refl _) ?_ id
          omega
  | take h =>
      obtain ⟨hold, -, -, -⟩ := pop_items hknows h
      have hcv : queue.pop_cv_ = s.queue.pop_cv_ := by
        obtain ⟨q, -, -, rfl⟩ := popFront_cases h
        rfl
      refine hroom.gain (t := t) (fun hnil => hcv.trans hnil) ?_ ?_ ?_ ?_
      · rw [hold, List.length_cons]
        omega
      · rw [hpc]
        exact id
      · rw [go_self]
        trivial
      · exact room_all (hcv ▸ .refl _) fun ht => by trivial
  | unlock h =>
      refine hkeep (.refl _) le_rfl ?_
      cases h <;> intro ht <;> trivial
  | notifyConsumer h => exact hkeep (.refl _) le_rfl fun ht => by trivial
  | notifyProducer item h =>
      refine hroom.notify (t := t) h hs.producers_nodup ?_ ?_ ?_
      · intro u hu
        obtain ⟨item', hu'⟩ := hs.producers u hu
        rw [hu']
        exact fun hawake => hawake hu
      · intro u hu hu'
        obtain ⟨item', hpcu⟩ := hs.producers u hu
        have hut : u ≠ t := by
          rintro rfl
          cases hpc.symm.trans hpcu
        rw [go_of_ne _ hut, hpcu]
        exact hu'
      · exact room_others fun v _ hv => (notifyOne_sublist h).mem hv
  | inspect what =>
      refine hkeep (by cases what <;> exact .refl _) ?_ fun ht => by trivial
      cases what <;> exact le_rfl
  | discard h =>
      refine hkeep (.refl _) le_rfl ?_
      cases h <;> intro ht <;> trivial

end

theorem Attended.step {s' : State τ α} {a : Action τ α} (hinv : Inv max_items s)
    (hs : Attended max_items s) (h : Step s a s') : Attended max_items s' := by
  cases h with
  | call t op hpc =>
      constructor
      · refine hs.items.keep id le_rfl (items_all (.refl _) ?_)
        rw [hpc]
        exact False.elim
      · refine hs.room.keep id le_rfl (room_all (.refl _) ?_)
        rw [hpc]
        exact False.elim
  | move hpc h => exact ⟨items_move hinv hs.items hpc h, room_move hinv hs.room hpc h⟩
  | spurious t =>
      constructor
      · refine hs.items.keep (eq_nil_of_sublist List.erase_sublist) le_rfl fun u => ?_
        exact attendsItems_mono List.mem_of_mem_erase
      · refine hs.room.keep (eq_nil_of_sublist List.erase_sublist) le_rfl fun u => ?_
        exact attendsRoom_mono List.mem_of_mem_erase
  | timeout hpc =>
      constructor
      · refine hs.items.keep (eq_nil_of_sublist List.erase_sublist) le_rfl ?_
        exact items_all List.erase_sublist fun _ => trivial
      · refine hs.room.keep (eq_nil_of_sublist List.erase_sublist) le_rfl ?_
        refine room_all List.erase_sublist ?_
        rw [hpc]
        exact False.elim

theorem Attended.of_reach [Inhabited α] (hmax : max_items + 1 < sizeTRange)
    {G : State τ α → Action τ α → Prop} (h : (machine τ α max_items).ReachBy G s) :
    Attended max_items s := by
  refine h.invariant (P := Attended max_items) ?_ ?_
  · rintro s rfl
    exact ⟨.inl rfl, .inl rfl⟩
  · intro s a s' hreach hs _ hst
    exact hs.step (Inv.of_reach hmax hreach) (step_cases hst)

/-! ## Who can move -/

omit [DecidableEq τ] in
theorem lockThen_isSome (s : MpmcBlockingQueue τ α) (hfree : s.queue_mutex_ = none) (t : τ)
    (pc : QueuePc α) : (s.lockThen t pc).isSome = true := by
  rw [MpmcBlockingQueue.lockThen, hfree]
  rfl

theorem exists_notifyOne (cv : CondVar τ) : ∃ wake cv', cv.notifyOne wake = some cv' := by
  cases cv with
  | nil => exact ⟨none, _, rfl⟩
  | cons u us => exact ⟨some u, _, if_pos List.mem_cons_self⟩

/-- Inside the critical section nothing stands in the way, and outside it only a taken mutex
and sleep do. -/
theorem queueStep_enabled {q : MpmcBlockingQueue τ α} {t : τ} {pc : QueuePc α}
    (hknows : pc.Knows q.q_) (h : pc.inside = true ∨ q.queue_mutex_ = none)
    (hpush : t ∉ q.push_cv_) (hpop : t ∉ q.pop_cv_) :
    ∃ wake, (queueStep t wake q pc).isSome = true := by
  cases pc with
  | enqueueLock | nowaitLock | roomLock | dequeueLock | dequeueExpired | inspectLock =>
      have hfree := h.resolve_left (by simp [QueuePc.inside])
      exact ⟨none, lockThen_isSome q hfree _ _⟩
  | enqueueWaiting item =>
      have hfree := h.resolve_left (by simp [QueuePc.inside])
      refine ⟨none, ?_⟩
      rw [queueStep, if_neg hpop]
      exact lockThen_isSome q hfree _ _
  | dequeueWaiting timed =>
      have hfree := h.resolve_left (by simp [QueuePc.inside])
      refine ⟨none, ?_⟩
      rw [queueStep, if_neg hpush]
      exact lockThen_isSome q hfree _ _
  | pushNotify =>
      obtain ⟨wake, cv', hcv⟩ := exists_notifyOne q.push_cv_
      exact ⟨wake, by simp [queueStep, hcv]⟩
  | popNotify item =>
      obtain ⟨wake, cv', hcv⟩ := exists_notifyOne q.pop_cv_
      exact ⟨wake, by simp [queueStep, hcv]⟩
  | dequeueTake =>
      obtain ⟨q', hpop', -⟩ := CircularQ.items_popFront hknows
      have hne : q.q_.items ≠ [] := fun hnil => by
        have hknows' : q.q_.empty = false := hknows
        simp [(CircularQ.empty_iff _).mpr hnil] at hknows'
      have hfront := CircularQ.front_eq hknows
      rw [List.head?_eq_some_head hne] at hfront
      exact ⟨none, by simp [queueStep, MpmcBlockingQueue.popFront, hfront, hpop']⟩
  | _ => exact ⟨none, rfl⟩

/-- No thread that is inside a method can take a step; new calls and spurious wake-ups, and
the end of somebody's waiting time, are not counted. -/
def Quiet (s : State τ α) : Prop := ∀ t wake, step s (.step t wake) = none

/-- When nobody can move, everybody in a method sleeps, consumers only beside an empty ring
and producers only beside a full one. -/
theorem sleepers_of_quiet [Inhabited α] (hmax : max_items + 1 < sizeTRange)
    (h : (machine τ α max_items).Reach s) (hquiet : Quiet s) :
    (∀ t, s.pc t ≠ none → t ∈ s.queue.push_cv_ ∨ t ∈ s.queue.pop_cv_) ∧
      (s.queue.push_cv_ ≠ [] → s.queue.q_.items = []) ∧
      (s.queue.pop_cv_ ≠ [] → s.queue.q_.items.length = max_items) := by
  have hinv := Inv.of_reach hmax h
  have hattended := Attended.of_reach hmax h
  have hstuck : ∀ {t pc}, s.pc t = some pc → pc.inside = true ∨ s.queue.queue_mutex_ = none →
      t ∈ s.queue.push_cv_ ∨ t ∈ s.queue.pop_cv_ := by
    intro t pc hpc hfree
    by_contra hawake
    obtain ⟨hpush, hpop⟩ := not_or.mp hawake
    obtain ⟨wake, hsome⟩ := queueStep_enabled (hinv.knows t pc hpc) hfree hpush hpop
    obtain ⟨⟨queue, next⟩, hstep⟩ := Option.isSome_iff_exists.mp hsome
    have hnone := hquiet t wake
    simp [step, hpc, hstep] at hnone
  have hfree : s.queue.queue_mutex_ = none := by
    by_contra hheld
    obtain ⟨t, ht⟩ := Option.ne_none_iff_exists'.mp hheld
    have hinside : holds (s.pc t) = true := (hinv.mutex t).mp ht
    cases hpc : s.pc t with
    | none => simp [hpc, holds] at hinside
    | some pc =>
        rw [hpc] at hinside
        rcases hstuck hpc (.inl hinside) with hmem | hmem
        · obtain ⟨timed, hpc'⟩ := hinv.consumers t hmem
          cases hpc.symm.trans hpc'
          cases hinside
        · obtain ⟨item, hpc'⟩ := hinv.producers t hmem
          cases hpc.symm.trans hpc'
          cases hinside
  have hasleep : ∀ t, s.pc t ≠ none → t ∈ s.queue.push_cv_ ∨ t ∈ s.queue.pop_cv_ := by
    intro t ht
    obtain ⟨pc, hpc⟩ := Option.ne_none_iff_exists'.mp ht
    exact hstuck hpc (.inr hfree)
  have hnobody : ∀ t, ¬ attendsItems s.queue.push_cv_ t (s.pc t) ∧
      ¬ attendsRoom s.queue.pop_cv_ t (s.pc t) := by
    intro t
    by_cases hpc : s.pc t = none
    · rw [hpc]
      exact ⟨id, id⟩
    · rcases hasleep t hpc with hmem | hmem
      · obtain ⟨timed, hpc'⟩ := hinv.consumers t hmem
        rw [hpc']
        exact ⟨fun hawake => hawake hmem, id⟩
      · obtain ⟨item, hpc'⟩ := hinv.producers t hmem
        rw [hpc']
        exact ⟨id, fun hawake => hawake hmem⟩
  refine ⟨hasleep, fun hne => ?_, fun hne => ?_⟩
  · by_contra hitems
    have hlen : s.queue.q_.items.length ≠ 0 := fun hzero =>
      hitems (List.length_eq_zero_iff.mp hzero)
    obtain ⟨t, ht⟩ := (hattended.items.resolve_left hne).exists hlen
    exact (hnobody t).1 ht
  · have hlt := CircularQ.size_lt (q := s.queue.q_) (by rw [hinv.max_items]; omega)
    rw [← CircularQ.length_items, hinv.max_items] at hlt
    by_contra hroom
    obtain ⟨t, ht⟩ := (hattended.room.resolve_left hne).exists (by omega)
    exact (hnobody t).2 ht

/-- When nobody can move, a consumer is left asleep only if all that was pushed has come out
of the ring, and a producer only if the ring is full. -/
theorem no_lost_wakeup [Inhabited α] (hmax : max_items + 1 < sizeTRange)
    (h : (machine τ α max_items).Reach s) (hquiet : Quiet s) :
    (∀ t, s.pc t ≠ none → t ∈ s.queue.push_cv_ ∨ t ∈ s.queue.pop_cv_) ∧
      (s.queue.push_cv_ ≠ [] → s.queue.pushed.Perm (s.queue.taken ++ s.queue.overrun)) ∧
      (s.queue.pop_cv_ ≠ [] → s.queue.q_.items.length = max_items) := by
  obtain ⟨hasleep, hconsumers, hproducers⟩ := sleepers_of_quiet hmax h hquiet
  refine ⟨hasleep, fun hne => ?_, hproducers⟩
  have hperm := (accounted_of_reach hmax h).perm
  rwa [hconsumers hne, List.append_nil] at hperm

/-- One thread sleeps in `dequeue` beside an empty ring. -/
theorem no_lost_wakeup_dequeue :
    ∃ s : State Unit ℕ, (machine Unit ℕ 2).Reach s ∧ Quiet s ∧ s.queue.push_cv_ = [()] ∧
      s.queue.pushed.Perm (s.queue.taken ++ s.queue.overrun) := by
  have h := (((Machine.ReachBy.start (M := machine Unit ℕ 2) (G := fun _ _ => True) rfl).next
    (a := .call () .dequeue) trivial rfl).next (a := .step () none) trivial rfl).next
    (a := .step () none) trivial rfl |>.next (a := .step () none) trivial rfl
  refine ⟨_, h, ?_, rfl, (no_lost_wakeup (by decide) h ?_).2.1 (List.cons_ne_nil _ _)⟩
  · exact fun _ _ => rfl
  · exact fun _ _ => rfl

end BlockingQueue
