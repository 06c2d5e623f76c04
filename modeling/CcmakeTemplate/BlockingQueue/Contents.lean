import CcmakeTemplate.BlockingQueue.Steps

/-!
# What becomes of the items

Every item that was pushed has been dequeued, has been overrun, or is still in the ring.
The items leave in the order in which they were pushed. Only `enqueue_nowait` overruns
items.
-/

namespace BlockingQueue

open Concurrency Spdlog

variable {τ α : Type}

/-- Where the items that were pushed are. -/
structure Accounted (s : MpmcBlockingQueue τ α) : Prop where
  perm : s.pushed.Perm (s.taken ++ s.overrun ++ s.q_.items)
  order : (s.taken ++ s.q_.items).Sublist s.pushed
  newest : s.q_.items <:+ s.pushed

theorem Accounted.new [Inhabited α] (max_items : ℕ) :
    Accounted (MpmcBlockingQueue.new max_items : MpmcBlockingQueue τ α) := by
  have hitems : (MpmcBlockingQueue.new max_items : MpmcBlockingQueue τ α).q_.items = [] :=
    List.length_eq_zero_iff.mp (CircularQ.length_items _)
  constructor
  · rw [hitems]
    exact List.Perm.nil
  · rw [hitems]
    exact List.Sublist.slnil
  · rw [hitems]
    exact List.nil_suffix

/-! ## One access to the ring -/

/-- The item that is pushed goes behind the others, and the first one leaves a full ring. -/
theorem push_items {q : CircularQ α} (hmax : q.max_items_ ≠ 0) (item : α) :
    q.items ++ [item] = victim q item ++ (q.pushBack item).items := by
  unfold victim
  cases hfull : q.full with
  | false =>
      rw [(CircularQ.items_pushBack_of_room hmax hfull item).1]
      rfl
  | true =>
      rw [(CircularQ.items_pushBack_of_full hfull item).1, if_pos rfl]
      cases hitems : q.items ++ [item] with
      | nil => simp at hitems
      | cons first rest => rfl

/-- The item that is dequeued is the first one. -/
theorem pop_items {s s' : MpmcBlockingQueue τ α} {item : α} (hempty : s.q_.empty = false)
    (h : s.popFront = some (item, s')) :
    s.q_.items = item :: s'.q_.items ∧ s'.taken = s.taken ++ [item] ∧ s'.pushed = s.pushed ∧
      s'.overrun = s.overrun := by
  obtain ⟨q, hfront, hpop, rfl⟩ := popFront_cases h
  obtain ⟨q', hpop', hitems, -, -⟩ := CircularQ.items_popFront hempty
  obtain rfl : q = q' := Option.some.inj (hpop.symm.trans hpop')
  refine ⟨?_, rfl, rfl, rfl⟩
  rw [CircularQ.front_eq hempty] at hfront
  obtain ⟨rest, hrest⟩ := List.head?_eq_some_iff.mp hfront
  rw [hrest] at hitems ⊢
  rw [hitems, List.tail_cons]

theorem Accounted.push {s : MpmcBlockingQueue τ α} (hs : Accounted s)
    (hmax : s.q_.max_items_ ≠ 0) (item : α) : Accounted (s.pushBack item) := by
  have hitems := push_items hmax item
  constructor
  · change (s.pushed ++ [item]).Perm
      (s.taken ++ (s.overrun ++ victim s.q_ item) ++ (s.q_.pushBack item).items)
    rw [List.append_assoc, List.append_assoc, ← hitems, ← List.append_assoc, ← List.append_assoc]
    exact hs.perm.append_right [item]
  · change (s.taken ++ (s.q_.pushBack item).items).Sublist (s.pushed ++ [item])
    have hsub : (s.q_.pushBack item).items.Sublist (s.q_.items ++ [item]) :=
      hitems ▸ List.sublist_append_right _ _
    refine (hsub.append_left s.taken).trans ?_
    rw [← List.append_assoc]
    exact hs.order.append_right [item]
  · change (s.q_.pushBack item).items <:+ s.pushed ++ [item]
    have hsuffix : (s.q_.pushBack item).items <:+ s.q_.items ++ [item] :=
      hitems ▸ List.suffix_append _ _
    exact hsuffix.trans ((List.suffix_append_inj_of_length_eq rfl).mpr ⟨hs.newest, rfl⟩)

theorem Accounted.pop {s s' : MpmcBlockingQueue τ α} (hs : Accounted s) {item : α}
    (hempty : s.q_.empty = false) (h : s.popFront = some (item, s')) : Accounted s' := by
  obtain ⟨hitems, htaken, hpushed, hoverrun⟩ := pop_items hempty h
  have horder : s'.taken ++ s'.q_.items = s.taken ++ s.q_.items := by
    rw [htaken, hitems, List.append_assoc]
    rfl
  constructor
  · rw [hpushed, hoverrun, htaken]
    refine hs.perm.trans ?_
    rw [hitems, List.append_assoc, List.append_assoc, List.append_assoc]
    exact List.perm_middle.append_left s.taken
  · rw [horder, hpushed]
    exact hs.order
  · rw [hpushed]
    exact ((List.suffix_cons item _).trans (hitems ▸ List.suffix_refl _)).trans hs.newest

/-! ## Every reachable state -/

variable [DecidableEq τ]

theorem Effect.accounted {t : τ} {wake : Option τ} {s s' : MpmcBlockingQueue τ α}
    {pc : QueuePc α} {next : Next α} (h : Effect t wake s pc s' next)
    (hmax : s.q_.max_items_ ≠ 0) (hknows : pc.Knows s.q_) (hs : Accounted s) : Accounted s' := by
  cases h with
  | push h => exact hs.push hmax _
  | take h => exact hs.pop hknows h
  | inspect what => cases what <;> exact ⟨hs.perm, hs.order, hs.newest⟩
  | _ => exact ⟨hs.perm, hs.order, hs.newest⟩

/-- Where all the items are, at every moment and under every schedule. -/
theorem accounted_of_reach [Inhabited α] {max_items : ℕ} (hmax : max_items + 1 < sizeTRange)
    {s : State τ α} (h : (machine τ α max_items).Reach s) : Accounted s.queue := by
  refine h.invariant (P := fun s => Accounted s.queue) ?_ ?_
  · rintro s rfl
    exact Accounted.new max_items
  · intro s a s' hreach hs _ hst
    have hinv := Inv.of_reach hmax hreach
    cases step_cases hst with
    | call t op hpc => exact hs
    | move hpc h =>
        refine h.accounted ?_ (hinv.knows _ _ hpc) hs
        rw [hinv.max_items]
        exact Nat.succ_ne_zero _
    | spurious t => exact ⟨hs.perm, hs.order, hs.newest⟩
    | timeout hpc => exact ⟨hs.perm, hs.order, hs.newest⟩

/-! ## Without `enqueue_nowait` -/

def Op.nowait : Op α → Bool
  | .enqueueNowait _ => true
  | _ => false

/-- Nobody calls `enqueue_nowait`. -/
def NeverNowait (_ : State τ α) : Action τ α → Prop
  | .call _ op => op.nowait = false
  | _ => True

instance (s : State τ α) : ∀ a : Action τ α, Decidable (NeverNowait s a)
  | .call _ op => inferInstanceAs (Decidable (op.nowait = false))
  | .step _ _ | .spurious _ | .timeout _ => inferInstanceAs (Decidable True)

def QueuePc.nowait : QueuePc α → Bool
  | .nowaitLock _ | .nowaitPush _ => true
  | _ => false

/-- A ring with room loses nothing to a push. -/
theorem Effect.no_victim {t : τ} {wake : Option τ} {s s' : MpmcBlockingQueue τ α}
    {pc : QueuePc α} {next : Next α} (h : Effect t wake s pc s' next) (hknows : pc.Knows s.q_)
    (hpc : pc.nowait = false) :
    s'.overrun = s.overrun ∧ ∀ pc', next = .inl pc' → pc'.nowait = false := by
  cases h with
  | push h =>
      have hfull : s.q_.full = false := by
        cases h with
        | nowait => cases hpc
        | _ => exact hknows
      refine ⟨?_, fun pc' hpc' => by cases hpc'; rfl⟩
      simp [MpmcBlockingQueue.pushBack, victim, hfull]
  | take h =>
      obtain ⟨q, -, -, rfl⟩ := popFront_cases h
      exact ⟨rfl, fun pc' hpc' => by cases hpc'; rfl⟩
  | lock h _ =>
      refine ⟨rfl, fun pc' hpc' => ?_⟩
      cases hpc'
      cases h <;> first | rfl | exact hpc
  | look h =>
      refine ⟨rfl, fun pc' hpc' => ?_⟩
      cases hpc'
      cases h <;> rfl
  | unlock h =>
      refine ⟨rfl, fun pc' hpc' => ?_⟩
      cases h <;> cases hpc' <;> rfl
  | inspect what =>
      refine ⟨by cases what <;> rfl, fun pc' hpc' => ?_⟩
      cases hpc'
      rfl
  | blockProducer | blockConsumer => exact ⟨rfl, fun pc' hpc' => by cases hpc'; rfl⟩
  | _ => exact ⟨rfl, fun pc' hpc' => by cases hpc'⟩

theorem never_overrun [Inhabited α] {max_items : ℕ} (hmax : max_items + 1 < sizeTRange)
    {s : State τ α} (h : (machine τ α max_items).ReachBy NeverNowait s) :
    s.queue.overrun = [] ∧ ∀ t pc, s.pc t = some pc → pc.nowait = false := by
  refine h.invariant (P := fun s =>
    s.queue.overrun = [] ∧ ∀ t pc, s.pc t = some pc → pc.nowait = false) ?_ ?_
  · rintro s rfl
    exact ⟨rfl, by simp⟩
  · rintro s a s' hreach ⟨hnil, hnowait⟩ hG hst
    have hothers : ∀ {t u : τ} {pc : Option (QueuePc α)},
        (∀ pc', pc = some pc' → pc'.nowait = false) →
        ∀ pc', (s.go t pc).pc u = some pc' → pc'.nowait = false := by
      intro t u pc hpc pc' hu
      by_cases hut : u = t
      · subst hut
        rw [go_self] at hu
        exact hpc pc' hu
      · rw [go_of_ne _ hut] at hu
        exact hnowait u pc' hu
    cases step_cases hst with
    | call t op hpc =>
        refine ⟨hnil, fun u => hothers ?_⟩
        rintro pc' ⟨⟩
        cases op with
        | enqueueNowait item => cases hG
        | _ => rfl
    | move hpc h =>
        have hknows := (Inv.of_reach hmax hreach).knows _ _ hpc
        obtain ⟨hsame, hnext⟩ := h.no_victim hknows (hnowait _ _ hpc)
        refine ⟨hsame.trans hnil, fun u => hothers ?_⟩
        exact fun pc' hpc' => hnext pc' (Sum.getLeft?_eq_some_iff.mp hpc')
    | spurious t => exact ⟨hnil, hnowait⟩
    | timeout hpc =>
        refine ⟨hnil, fun u => hothers ?_⟩
        rintro pc' ⟨⟩
        rfl

omit [DecidableEq τ] in
theorem Accounted.fifo {s : MpmcBlockingQueue τ α} (hs : Accounted s)
    (hnil : s.overrun = []) : s.pushed = s.taken ++ s.q_.items := by
  have hperm := hs.perm
  rw [hnil, List.append_nil] at hperm
  exact (hs.order.eq_of_length hperm.length_eq.symm).symm

omit [DecidableEq τ] in
theorem Inv.length_le {max_items : ℕ} {s : State τ α} (hs : Inv max_items s) :
    s.queue.q_.items.length ≤ max_items := by
  have hlt := CircularQ.size_lt (q := s.queue.q_) (by rw [hs.max_items]; omega)
  rw [hs.max_items, ← CircularQ.length_items] at hlt
  omega

/-! ## The accounts -/

/-- At every moment of every run, each item that was pushed has been dequeued, has been overrun
or is in the ring. The items leave in the order in which they came, and the ring holds the
newest ones. -/
theorem items_accounted [Inhabited α] {max_items : ℕ} (hmax : max_items + 1 < sizeTRange)
    {s : State τ α} (h : (machine τ α max_items).Reach s) :
    s.queue.pushed.Perm (s.queue.taken ++ s.queue.overrun ++ s.queue.q_.items) ∧
      (s.queue.taken ++ s.queue.q_.items).Sublist s.queue.pushed ∧
      s.queue.q_.items <:+ s.queue.pushed ∧ s.queue.q_.items.length ≤ max_items := by
  have haccounted := accounted_of_reach hmax h
  exact ⟨haccounted.perm, haccounted.order, haccounted.newest, (Inv.of_reach hmax h).length_le⟩

/-- Two items overrun a ring with one place. -/
theorem items_accounted_overrun :
    1 + 1 < sizeTRange ∧ ∃ s : State Unit ℕ, (machine Unit ℕ 1).Reach s ∧
      s.queue.pushed = [5, 6, 7] ∧ s.queue.overrun = [5, 6] ∧ s.queue.q_.items.length ≤ 1 := by
  have hmax : 1 + 1 < sizeTRange := by decide
  let post (n : ℕ) : List (Action Unit ℕ) :=
    .call () (.enqueueNowait n) :: List.replicate 4 (.step () none)
  obtain ⟨s, hreach, hpushed, hoverrun⟩ := Machine.ReachBy.of_exec (M := machine Unit ℕ 1)
    (G := fun _ _ => True) { queue := .new 1, pc := fun _ => none } (post 5 ++ post 6 ++ post 7)
    (fun s => s.queue.pushed = [5, 6, 7] ∧ s.queue.overrun = [5, 6]) rfl (by decide)
  exact ⟨hmax, s, hreach, hpushed, hoverrun, (items_accounted hmax hreach).2.2.2⟩

/-- What the other two methods put into the queue comes out of it, in the same order. -/
theorem fifo_without_nowait [Inhabited α] {max_items : ℕ} (hmax : max_items + 1 < sizeTRange)
    {s : State τ α} (h : (machine τ α max_items).ReachBy NeverNowait s) :
    s.queue.pushed = s.queue.taken ++ s.queue.q_.items ∧
      s.queue.q_.items.length ≤ max_items :=
  ⟨(accounted_of_reach hmax h.reach).fifo (never_overrun hmax h).1,
    (Inv.of_reach hmax h).length_le⟩

/-- The second item waits behind the first one. -/
theorem fifo_without_nowait_two :
    2 + 1 < sizeTRange ∧ ∃ s : State Unit ℕ, (machine Unit ℕ 2).ReachBy NeverNowait s ∧
      s.queue.pushed = [5, 6] ∧ s.queue.taken ++ s.queue.q_.items = [5, 6] ∧
      s.queue.taken = [5] := by
  have hmax : 2 + 1 < sizeTRange := by decide
  let call (op : Op ℕ) (n : ℕ) : List (Action Unit ℕ) :=
    .call () op :: List.replicate n (.step () none)
  obtain ⟨s, hreach, hpushed, htaken⟩ := Machine.ReachBy.of_exec (M := machine Unit ℕ 2)
    (G := NeverNowait) { queue := .new 2, pc := fun _ => none }
    (call (.enqueue 5) 5 ++ call (.enqueueIfHaveRoom 6) 5 ++ call .dequeueFor 5)
    (fun s => s.queue.pushed = [5, 6] ∧ s.queue.taken = [5]) rfl (by decide)
  have hfifo := (fifo_without_nowait hmax hreach).1
  exact ⟨hmax, s, hreach, hpushed, hfifo.symm.trans hpushed, htaken⟩

end BlockingQueue
