import CcmakeTemplate.ThreadPool.Steps
import CcmakeTemplate.Concurrency.Threads

/-!
# Inside `queue_mutex_`

`stop_` and `tasks_` change only under `queue_mutex_`, so what a thread has read there
still holds while it is inside. `Knows` collects what each program point may rely on:
a task is pushed only while `stop_` is unset, a worker pops only a non-empty queue, and
a worker that leaves has seen `stop_` set and the queue empty, which no push can undo.
-/

namespace ThreadPool

open Concurrency

variable {T : Type}

/-! ## Who holds the mutex -/

def CallPc.inside : CallPc T → Bool
  | .test .. | .refuse .. | .emplace _ | .unlock | .pendingSize | .pendingUnlock _ => true
  | _ => false

def WorkerPc.inside : WorkerPc T → Bool
  | .check | .block | .exitTest | .leaveExit | .take | .leaveTake .. => true
  | .running _ _ (some pc) => pc.inside
  | _ => false

def ClientPc.inside : ClientPc T → Bool
  | .call pc => pc.inside
  | .destroySet | .destroyUnlock => true
  | _ => false

def State.inside (s : State T) : Thread → Bool
  | .worker i => (s.workerPc i).inside
  | .client c => (s.clientPc c).inside

abbrev Guarded (s : State T) : Prop := s.queue_mutex_.Guards s.inside

/-- The program point of the call that is left after a step, if any. -/
def insideCall : Option (CallPc T) → Bool
  | some pc => pc.inside
  | none => false

theorem CallStep.handover {u : Thread} {s t : State T} {pc : CallPc T}
    {call : Option (CallPc T)} (h : CallStep u s pc t call) :
    Mutex.Handover u s.queue_mutex_ pc.inside t.queue_mutex_ (insideCall call) := by
  cases h with
  | go h => exact .keep rfl (by cases h <;> rfl)
  | lock h hfree => exact .take hfree (by cases h <;> rfl)
  | unlock h => exact .release (by cases h <;> rfl) (by cases h <;> rfl) rfl
  | refuse => exact .release rfl rfl rfl
  | emplace | notify => exact .keep rfl rfl

/-- A call changes neither the workers nor the clients, nor what they have done. -/
theorem CallStep.frame {u : Thread} {s t : State T} {pc : CallPc T} {call : Option (CallPc T)}
    (h : CallStep u s pc t call) :
    t.workerPc = s.workerPc ∧ t.clientPc = s.clientPc ∧ t.workers_ = s.workers_ ∧
      t.phase = s.phase := by
  cases h <;> exact ⟨rfl, rfl, rfl, rfl⟩

theorem WorkerStep.moves {i : ℕ} {s t : State T} (h : WorkerStep i s t) :
    ∃ pc, t.workerPc = Function.update s.workerPc i pc ∧ t.clientPc = s.clientPc ∧
      t.workers_ = s.workers_ ∧ t.phase = s.phase ∧
      Mutex.Handover (.worker i) s.queue_mutex_ (s.workerPc i).inside t.queue_mutex_ pc.inside := by
  cases h with
  | @go pc h =>
      refine ⟨pc, rfl, rfl, rfl, rfl, .keep rfl ?_⟩
      generalize s.workerPc i = old at h
      cases h <;> rfl
  | lock hpc hfree => exact ⟨_, rfl, rfl, rfl, rfl, .take hfree rfl⟩
  | @unlock pc h =>
      refine ⟨pc, rfl, rfl, rfl, rfl, ?_⟩
      generalize s.workerPc i = old at h
      cases h <;> exact .release rfl rfl rfl
  | block hpc => exact ⟨_, rfl, rfl, rfl, rfl, .release (by rw [hpc]; rfl) rfl rfl⟩
  | take hpc | begins hpc | ends hpc =>
      exact ⟨_, rfl, rfl, rfl, rfl, .keep rfl (by rw [hpc]; rfl)⟩
  | @nested task n pc s' call hpc h =>
      obtain ⟨hworker, hclient, hcnt, hphase⟩ := h.frame
      refine ⟨.running task n call, ?_, hclient, hcnt, hphase, ?_⟩
      · show Function.update s'.workerPc i _ = _
        rw [hworker]
      · rw [hpc]
        have hcall := h.handover
        cases call <;> exact hcall

theorem ClientStep.moves {threads c : ℕ} {s t : State T} (h : ClientStep threads c s t) :
    ∃ pc, t.clientPc = Function.update s.clientPc c pc ∧
      Mutex.Handover (.client c) s.queue_mutex_ (s.clientPc c).inside t.queue_mutex_ pc.inside := by
  cases h with
  | @call pc pc' s' hpc h =>
      refine ⟨.call pc', ?_, ?_⟩
      · show Function.update s'.clientPc c _ = _
        rw [h.frame.2.1]
      · rw [hpc]
        exact h.handover
  | @returns pc s' hpc h =>
      refine ⟨.out, ?_, ?_⟩
      · show Function.update s'.clientPc c _ = _
        rw [h.frame.2.1]
      · rw [hpc]
        exact h.handover
  | spawn hpc =>
      refine ⟨.construct, ?_, .keep rfl (by rw [hpc])⟩
      rw [← hpc, Function.update_eq_self]
  | destroyLock hpc hfree => exact ⟨_, rfl, .take hfree rfl⟩
  | destroyUnlock hpc => exact ⟨_, rfl, .release (by rw [hpc]; rfl) rfl rfl⟩
  | constructed hpc | destroySet hpc | destroyNotify hpc | join hpc | destroyed hpc =>
      exact ⟨_, rfl, .keep rfl (by rw [hpc]; rfl)⟩

theorem ClientStep.workerPc {threads c : ℕ} {s t : State T} (h : ClientStep threads c s t) :
    t.workerPc = s.workerPc ∧ t.workers_ = s.workers_ ∨
      s.clientPc c = .construct ∧ t.workers_ = s.workers_ + 1 ∧
      t.workerPc = Function.update s.workerPc s.workers_ .lock := by
  cases h with
  | call hpc h | returns hpc h => exact .inl ⟨h.frame.1, h.frame.2.2.1⟩
  | spawn hpc => exact .inr ⟨hpc, rfl, rfl⟩
  | _ => exact .inl ⟨rfl, rfl⟩

theorem Guarded.worker {s t : State T} {i : ℕ} (hs : Guarded s) (h : WorkerStep i s t) :
    Guarded t := by
  obtain ⟨pc, hworker, hclient, -, -, hhand⟩ := h.moves
  refine Mutex.Guards.step hs (t := .worker i) ?_ ?_
  · simpa only [State.inside, hworker, Function.update_self] using hhand
  · intro u hu hinside
    cases u with
    | worker j =>
        have hj : j ≠ i := fun heq => hu (heq ▸ rfl)
        simpa only [State.inside, hworker, Function.update_of_ne hj] using hinside
    | client c => simpa only [State.inside, hclient] using hinside

theorem Guarded.client {threads c : ℕ} {s t : State T} (hs : Guarded s)
    (h : ClientStep threads c s t) : Guarded t := by
  obtain ⟨pc, hclient, hhand⟩ := h.moves
  refine Mutex.Guards.step hs (t := .client c) ?_ ?_
  · simpa only [State.inside, hclient, Function.update_self] using hhand
  · intro u hu hinside
    cases u with
    | worker j =>
        rcases h.workerPc with ⟨hsame, -⟩ | ⟨-, -, hspawn⟩
        · simpa only [State.inside, hsame] using hinside
        · by_cases hj : j = s.workers_
          · simp [State.inside, hspawn, hj, WorkerPc.inside] at hinside
          · simpa only [State.inside, hspawn, Function.update_of_ne hj] using hinside
    | client c' =>
        have hc : c' ≠ c := fun heq => hu (heq ▸ rfl)
        simpa only [State.inside, hclient, Function.update_of_ne hc] using hinside

theorem Op.entry_inside (op : Op T) : op.entry.inside = false := by
  cases op <;> rfl

theorem Guarded.of_reach {threads : ℕ} {s : State T} (h : (machine threads).Reach s) :
    Guarded s := by
  refine h.invariant (P := Guarded) ?_ ?_
  · rintro s rfl u hu
    cases u with
    | worker i => cases hu
    | client c =>
        by_cases hc : c = 0
        · subst hc
          cases hu
        · simp [State.inside, State.initial, hc, ClientPc.inside] at hu
  · intro s a t _ hs _ hst
    -- the start of a call leaves its thread outside
    have hclient : ∀ c pc, ClientPc.inside pc = false → Guarded (s.goClient c pc) := by
      intro c pc hpc u hu
      cases u with
      | worker i => exact hs _ hu
      | client c' =>
          by_cases hc : c' = c
          · subst hc
            simp [State.inside, hpc] at hu
          · exact hs _ (by simpa [State.inside, hc] using hu)
    cases step_cases hst with
    | worker hi h => exact hs.worker h
    | client h => exact hs.client h
    | @call c op hphase hpc => exact hclient c _ op.entry_inside
    | @nest i n op task hpc hi =>
        intro u hu
        cases u with
        | worker j =>
            by_cases hj : j = i
            · subst hj
              simp [State.inside, WorkerPc.inside, op.entry_inside] at hu
            · exact hs _ (by simpa [State.inside, hj] using hu)
        | client c => exact hs _ hu
    | @destroy c hphase hpc => exact hclient c _ rfl
    | spurious t => exact hs

/-! ## What is known inside -/

def CallPc.Knows (stop_ : Bool) : CallPc T → Prop
  | .emplace _ => stop_ = false
  | .refuse .. => stop_ = true
  | _ => True

def WorkerPc.Knows (stop_ : Bool) (tasks_ : List T) : WorkerPc T → Prop
  | .exitTest => stop_ = true ∨ tasks_ ≠ []
  | .take => tasks_ ≠ []
  | .leaveExit | .ended => stop_ = true ∧ tasks_ = []
  | .running _ _ (some pc) => pc.Knows stop_
  | _ => True

def ClientPc.Knows (stop_ : Bool) : ClientPc T → Prop
  | .call pc => pc.Knows stop_
  | .destroyUnlock | .destroyNotify | .destroyJoin _ => stop_ = true
  | _ => True

structure Informed (s : State T) : Prop where
  worker : ∀ i, (s.workerPc i).Knows s.stop_ s.tasks_
  client : ∀ c, (s.clientPc c).Knows s.stop_

/-- The ways in which `stop_` and `tasks_` change. -/
inductive Touch (s t : State T) : Prop
  | push (task : T) (hopen : s.stop_ = false) (hstop : t.stop_ = false)
      (htasks : t.tasks_ = s.tasks_ ++ [task])
  | pop (task : T) (hstop : t.stop_ = s.stop_) (htasks : s.tasks_ = task :: t.tasks_)
  | stop (hstop : t.stop_ = true) (htasks : t.tasks_ = s.tasks_)

theorem WorkerPc.Knows.outside {s t : State T} {pc : WorkerPc T}
    (hpc : pc.Knows s.stop_ s.tasks_) (hout : pc.inside = false) (h : Touch s t) :
    pc.Knows t.stop_ t.tasks_ := by
  cases pc with
  | ended =>
      obtain ⟨hset, hempty⟩ := hpc
      cases h with
      | push task hopen =>
          rw [hopen] at hset
          cases hset
      | pop task hstop htasks =>
          rw [hempty] at htasks
          cases htasks
      | stop hstop htasks => exact ⟨hstop, htasks.trans hempty⟩
  | running task n call =>
      cases call with
      | none => trivial
      | some pc =>
          cases pc with
          | emplace | refuse => cases hout
          | _ => trivial
  | lock | waiting | run => trivial
  | check | block | exitTest | leaveExit | take | leaveTake => cases hout

theorem ClientPc.Knows.outside {s t : State T} {pc : ClientPc T} (hpc : pc.Knows s.stop_)
    (hout : pc.inside = false) (h : Touch s t) : pc.Knows t.stop_ := by
  have hkeep : s.stop_ = true → t.stop_ = true := by
    intro hset
    cases h with
    | push task hopen =>
        rw [hopen] at hset
        cases hset
    | pop task hstop => exact hstop.trans hset
    | stop hstop => exact hstop
  cases pc with
  | call pc =>
      cases pc with
      | emplace | refuse => cases hout
      | _ => trivial
  | destroyNotify | destroyJoin => exact hkeep hpc
  | out | construct | destroyLock => trivial
  | destroySet | destroyUnlock => cases hout

/-! ## One step -/

/-- A step leaves `stop_` and `tasks_` alone, or is made inside. -/
def Touches (s t : State T) (inside : Bool) : Prop :=
  (t.stop_ = s.stop_ ∧ t.tasks_ = s.tasks_) ∨ inside = true ∧ Touch s t

theorem Touches.congr {s t t' : State T} {inside : Bool} (h : Touches s t inside)
    (hstop : t'.stop_ = t.stop_) (htasks : t'.tasks_ = t.tasks_) : Touches s t' inside := by
  rcases h with ⟨hstop', htasks'⟩ | ⟨hin, htouch⟩
  · exact .inl ⟨hstop.trans hstop', htasks.trans htasks'⟩
  · refine .inr ⟨hin, ?_⟩
    cases htouch with
    | push task hopen hstop' htasks' =>
        exact .push task hopen (hstop.trans hstop') (htasks.trans htasks')
    | pop task hstop' htasks' =>
        exact .pop task (hstop.trans hstop') (by rw [htasks, htasks'])
    | stop hstop' htasks' => exact .stop (hstop.trans hstop') (htasks.trans htasks')

theorem CallStep.touches {u : Thread} {s t : State T} {pc : CallPc T} {call : Option (CallPc T)}
    (h : CallStep u s pc t call) (hpc : pc.Knows s.stop_) : Touches s t pc.inside := by
  cases h with
  | emplace task => exact .inr ⟨rfl, .push task hpc hpc rfl⟩
  | _ => exact .inl ⟨rfl, rfl⟩

theorem CallStep.knows {u : Thread} {s t : State T} {pc pc' : CallPc T}
    (h : CallStep u s pc t (some pc')) : pc'.Knows t.stop_ := by
  cases h with
  | go h =>
      cases h with
      | stopped how task hstop => exact hstop
      | «open» how task hopen => exact hopen
      | size => trivial
  | lock h | unlock h => cases h <;> trivial
  | emplace task => trivial

theorem WorkerStep.touches {i : ℕ} {s t : State T} (h : WorkerStep i s t) (hs : Informed s) :
    Touches s t (s.workerPc i).inside := by
  cases h with
  | take hpc htasks => exact .inr ⟨by rw [hpc]; rfl, .pop _ rfl htasks⟩
  | @nested task n pc s' call hpc h =>
      have hknows := hs.worker i
      rw [hpc] at hknows ⊢
      exact (h.touches hknows).congr rfl rfl
  | _ => exact .inl ⟨rfl, rfl⟩

theorem WorkerStep.knows {i : ℕ} {s t : State T} (h : WorkerStep i s t) (hs : Informed s) :
    (t.workerPc i).Knows t.stop_ t.tasks_ := by
  have hold := hs.worker i
  cases h with
  | @go pc h =>
      rw [State.goWorker_self]
      generalize s.workerPc i = old at h hold
      cases h with
      | ready hready => exact hready
      | sleep => trivial
      | exits hstop hempty => exact ⟨hstop, hempty⟩
      | takes hstay =>
          rcases hstay with hopen | htasks
          · refine hold.resolve_left ?_
            simp [hopen]
          · exact htasks
  | @unlock pc h =>
      rw [State.goWorker_self]
      generalize s.workerPc i = old at h hold
      cases h with
      | exit => exact hold
      | take => trivial
  | @nested task n pc s' call hpc h =>
      rw [State.goWorker_self]
      cases call with
      | none => trivial
      | some pc' => exact h.knows
  | _ =>
      rw [State.goWorker_self]
      trivial

theorem ClientStep.touches {threads c : ℕ} {s t : State T} (h : ClientStep threads c s t)
    (hs : Informed s) : Touches s t (s.clientPc c).inside := by
  cases h with
  | call hpc h | returns hpc h =>
      have hknows := hs.client c
      rw [hpc] at hknows ⊢
      exact (h.touches hknows).congr rfl rfl
  | destroySet hpc => exact .inr ⟨by rw [hpc]; rfl, .stop rfl rfl⟩
  | _ => exact .inl ⟨rfl, rfl⟩

theorem ClientStep.knows {threads c : ℕ} {s t : State T} (h : ClientStep threads c s t)
    (hs : Informed s) : (t.clientPc c).Knows t.stop_ := by
  have hold := hs.client c
  cases h with
  | call hpc h =>
      rw [State.goClient_self]
      exact h.knows
  | spawn hpc =>
      show (s.clientPc c).Knows s.stop_
      exact hold
  | destroyUnlock hpc | destroyNotify hpc | join hpc =>
      rw [hpc] at hold
      rw [State.goClient_self]
      exact hold
  | destroySet hpc =>
      rw [State.goClient_self]
      rfl
  | _ =>
      rw [State.goClient_self]
      trivial

theorem Informed.step {s t : State T} {u : Thread} (hs : Informed s) (hguard : Guarded s)
    (htouch : Touches s t (s.inside u))
    (hworker : ∀ i, t.workerPc i = s.workerPc i ∧ u ≠ .worker i ∨
      (t.workerPc i).Knows t.stop_ t.tasks_)
    (hclient : ∀ c, t.clientPc c = s.clientPc c ∧ u ≠ .client c ∨
      (t.clientPc c).Knows t.stop_) : Informed t := by
  -- whoever does not move is outside when the mover is inside
  have hout : ∀ v, u ≠ v → s.inside u = true → s.inside v = false := by
    intro v hne hu
    by_contra hv
    exact hne (hguard.unique hu (Bool.not_eq_false _ ▸ hv))
  constructor
  · intro i
    rcases hworker i with ⟨hsame, hne⟩ | hknows
    · rw [hsame]
      rcases htouch with ⟨hstop, htasks⟩ | ⟨hin, htouch⟩
      · rw [hstop, htasks]
        exact hs.worker i
      · exact (hs.worker i).outside (hout _ hne hin) htouch
    · exact hknows
  · intro c
    rcases hclient c with ⟨hsame, hne⟩ | hknows
    · rw [hsame]
      rcases htouch with ⟨hstop, -⟩ | ⟨hin, htouch⟩
      · rw [hstop]
        exact hs.client c
      · exact (hs.client c).outside (hout _ hne hin) htouch
    · exact hknows

theorem Op.entry_knows (op : Op T) (stop_ : Bool) : op.entry.Knows stop_ := by
  cases op <;> trivial

theorem Informed.of_reach {threads : ℕ} {s : State T} (h : (machine threads).Reach s) :
    Informed s := by
  refine h.invariant (P := Informed) ?_ ?_
  · rintro s rfl
    refine ⟨fun i => trivial, fun c => ?_⟩
    by_cases hc : c = 0
    · subst hc
      trivial
    · simp [State.initial, hc, ClientPc.Knows]
  · intro s a t hreach hs _ hst
    have hguard := Guarded.of_reach hreach
    have hclient : ∀ c pc, ClientPc.Knows s.stop_ pc → Informed (s.goClient c pc) := by
      intro c pc hpc
      refine ⟨hs.worker, fun c' => ?_⟩
      exact forall_update (P := fun _ pc => ClientPc.Knows s.stop_ pc) hs.client hpc c'
    cases step_cases hst with
    | @worker i wake t hi h =>
        obtain ⟨pc, hworker, hclient, -⟩ := h.moves
        refine hs.step (u := .worker i) hguard (h.touches hs) (fun j => ?_) fun c => ?_
        · by_cases hj : j = i
          · subst hj
            exact .inr (h.knows hs)
          · refine .inl ⟨by rw [hworker, Function.update_of_ne hj], ?_⟩
            rintro ⟨⟩
            exact hj rfl
        · exact .inl ⟨by rw [hclient], fun hno => by cases hno⟩
    | @client c wake t h =>
        obtain ⟨pc, hclient, -⟩ := h.moves
        refine hs.step (u := .client c) hguard (h.touches hs) (fun j => ?_) fun c' => ?_
        · rcases h.workerPc with ⟨hsame, -⟩ | ⟨-, -, hspawn⟩
          · exact .inl ⟨by rw [hsame], fun hno => by cases hno⟩
          · by_cases hj : j = s.workers_
            · refine .inr ?_
              rw [hspawn, hj, Function.update_self]
              trivial
            · exact .inl ⟨by rw [hspawn, Function.update_of_ne hj], fun hno => by cases hno⟩
        · by_cases hc : c' = c
          · subst hc
            exact .inr (h.knows hs)
          · refine .inl ⟨by rw [hclient, Function.update_of_ne hc], ?_⟩
            rintro ⟨⟩
            exact hc rfl
    | @call c op hphase hpc => exact hclient c _ (op.entry_knows _)
    | @nest i n op task hpc hi =>
        have hentry : (WorkerPc.running task n (some op.entry)).Knows s.stop_ s.tasks_ :=
          op.entry_knows s.stop_
        exact ⟨forall_update (P := fun _ pc => WorkerPc.Knows s.stop_ s.tasks_ pc) hs.worker hentry,
          hs.client⟩
    | @destroy c hphase hpc =>
        obtain ⟨hworker, hclient⟩ := hclient c .destroyLock trivial
        exact ⟨hworker, hclient⟩
    | spurious t => exact ⟨hs.worker, hs.client⟩

theorem Informed.call {s : State T} (hs : Informed s) {u : Thread} {pc : CallPc T}
    (hpc : s.call u = some pc) : pc.Knows s.stop_ := by
  cases u with
  | worker i =>
      obtain ⟨task, n, hrun⟩ := State.call_worker.mp hpc
      have hknows := hs.worker i
      rw [hrun] at hknows
      exact hknows
  | client c =>
      have hknows := hs.client c
      rw [State.call_client.mp hpc] at hknows
      exact hknows

end ThreadPool
