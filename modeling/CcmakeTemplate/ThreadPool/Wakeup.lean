import CcmakeTemplate.ThreadPool.Requests

/-!
# No worker sleeps on work

A push and its `notify_one` are two steps, and so are the destructor's store and its
`notify_all`. A worker goes to sleep only with `stop_` unset and the queue empty, and it
does so under `queue_mutex_`. So as long as there is a task, somebody is awake to take it or
somebody has still to notify; and after the destructor's `notify_all` nobody sleeps again.
-/

namespace ThreadPool

open Concurrency

variable {T : Type}

/-! ## Sleepers and notifiers -/

/-- From the push of a task to its `notify_one`. -/
def CallPc.notifies : CallPc T → Bool
  | .unlock | .notify => true
  | _ => false

/-- From the destructor's store to its `notify_all`. -/
def ClientPc.notifiesAll : ClientPc T → Bool
  | .destroyUnlock | .destroyNotify => true
  | _ => false

/-- The destructor has issued its `notify_all`. -/
def ClientPc.notifiedAll : ClientPc T → Bool
  | .destroyJoin _ => true
  | _ => false

namespace State

/-- The worker is blocked in `condition_.wait`. -/
def blocked (s : State T) (i : ℕ) : Prop :=
  s.workerPc i = .waiting ∧ .worker i ∈ s.condition_

/-- An enqueuer or the destructor has still to issue its notification. -/
def NotifyDue (s : State T) : Prop :=
  (∃ u pc, s.call u = some pc ∧ pc.notifies = true) ∨ ∃ c, (s.clientPc c).notifiesAll = true

/-- The destructor has issued its `notify_all`, and may have returned since. -/
def NotifiedAll (s : State T) : Prop :=
  (∃ c, (s.clientPc c).notifiedAll = true) ∨ s.phase = .destroyed

end State

/-! ## Who goes to sleep -/

theorem Step.touches {threads : ℕ} {s t : State T} {a : Action T} (h : Step threads s a t)
    (hs : Informed s) : (t.stop_ = s.stop_ ∧ t.tasks_ = s.tasks_) ∨
      ∃ u, a.mover = some u ∧ s.inside u = true ∧ Touch s t := by
  cases h with
  | @worker i wake t hi h =>
      rcases h.touches hs with hsame | ⟨hin, htouch⟩
      · exact .inl hsame
      · exact .inr ⟨.worker i, rfl, hin, htouch⟩
  | @client c wake t h =>
      rcases h.touches hs with hsame | ⟨hin, htouch⟩
      · exact .inl hsame
      · exact .inr ⟨.client c, rfl, hin, htouch⟩
  | _ => exact .inl ⟨rfl, rfl⟩

theorem WorkerStep.blocks {i : ℕ} {s t : State T} (h : WorkerStep i s t)
    (hpc : t.workerPc i = .block) :
    t.stop_ = false ∧ t.tasks_ = [] := by
  cases h with
  | @go pc h =>
      rw [State.goWorker_self] at hpc
      subst hpc
      generalize s.workerPc i = old at h
      cases h with
      | sleep hstop hempty => exact ⟨hstop, hempty⟩
  | @unlock pc h =>
      rw [State.goWorker_self] at hpc
      subst hpc
      generalize s.workerPc i = old at h
      cases h
  | lock | block | take | begins | ends | nested =>
      rw [State.goWorker_self] at hpc
      cases hpc

/-- A worker that is about to sleep knows of no task and of no destructor: it holds
`queue_mutex_`. -/
theorem block_empty {threads : ℕ} {s : State T} (h : (machine threads).Reach s) :
    ∀ i, s.workerPc i = .block → s.stop_ = false ∧ s.tasks_ = [] := by
  refine h.invariant (P := fun s => ∀ i, s.workerPc i = .block → s.stop_ = false ∧ s.tasks_ = [])
    ?_ ?_
  · rintro s rfl i hpc
    cases hpc
  · intro s a t hreach hs _ hst i hpc
    have hstep := step_cases hst
    have hlife := Life.of_reach hreach
    by_cases hi : a.mover = some (.worker i)
    · cases hstep with
      | worker _ h =>
          cases hi
          exact h.blocks hpc
      | nest =>
          cases hi
          rw [State.goWorker_self] at hpc
          cases hpc
      | client | call | destroy | spurious => cases hi
    · rw [hstep.workerPc_other hlife hi] at hpc
      obtain ⟨hstop, hempty⟩ := hs i hpc
      rcases hstep.touches (.of_reach hreach) with ⟨hstop', htasks⟩ | ⟨u, hu, hin, -⟩
      · exact ⟨hstop'.trans hstop, htasks.trans hempty⟩
      · -- whoever touches the queue holds the mutex, as this worker does
        have hinside : s.inside (.worker i) = true := by
          simp [State.inside, hpc, WorkerPc.inside]
        obtain rfl := (Guarded.of_reach hreach).unique hin hinside
        exact absurd hu hi

structure Sleepers (s : State T) : Prop where
  asleep : ∀ u ∈ s.condition_, ∃ i, u = .worker i ∧ i < s.workers_ ∧ s.workerPc i = .waiting
  nodup : s.condition_.Nodup

/-- A sleeper makes no step. -/
theorem Sleepers.awake {s t : State T} {i : ℕ} (hs : Sleepers s) (h : WorkerStep i s t) :
    .worker i ∉ s.condition_ := by
  intro hmem
  obtain ⟨j, heq, -, hpc⟩ := hs.asleep _ hmem
  cases heq
  cases h with
  | go h | unlock h =>
      rw [hpc] at h
      cases h
  | lock hold =>
      rcases hold with hlock | ⟨-, hawake⟩
      · cases hpc.symm.trans hlock
      · exact hawake hmem
  | block hold | take hold | begins hold | ends hold | nested hold => cases hpc.symm.trans hold

theorem CallStep.condition {u : Thread} {s t : State T} {pc : CallPc T} {call : Option (CallPc T)}
    (h : CallStep u s pc t call) : t.condition_.Sublist s.condition_ := by
  cases h with
  | notify h =>
      rcases CondVar.notifyOne_eq_some h with ⟨-, rfl⟩ | ⟨v, -, rfl⟩
      · exact List.nil_sublist _
      · exact List.erase_sublist
  | _ => exact List.Sublist.refl _

/-- A worker goes to sleep, or nobody does. -/
theorem Step.condition {threads : ℕ} {s t : State T} {a : Action T} (h : Step threads s a t) :
    t.condition_.Sublist s.condition_ ∨ ∃ i, i < s.workers_ ∧ s.workerPc i = .block ∧
      t.workerPc i = .waiting ∧ t.condition_ = .worker i :: s.condition_ ∧
        t.tasks_ = s.tasks_ := by
  cases h with
  | @worker i wake t hi h =>
      cases h with
      | block hpc => exact .inr ⟨i, hi, hpc, State.goWorker_self .., rfl, rfl⟩
      | nested hpc h => exact .inl h.condition
      | _ => exact .inl (List.Sublist.refl _)
  | client h =>
      cases h with
      | call hpc h | returns hpc h => exact .inl h.condition
      | destroyNotify => exact .inl (List.nil_sublist _)
      | _ => exact .inl (List.Sublist.refl _)
  | spurious t => exact .inl List.erase_sublist
  | _ => exact .inl (List.Sublist.refl _)

theorem Step.workers_le {threads : ℕ} {s t : State T} {a : Action T} (h : Step threads s a t) :
    s.workers_ ≤ t.workers_ := by
  cases h with
  | worker hi h =>
      obtain ⟨pc, -, -, hcnt, -⟩ := h.moves
      exact hcnt.ge
  | client h => rcases h.workerPc with ⟨-, hcnt⟩ | ⟨-, hcnt, -⟩ <;> omega
  | _ => exact le_rfl

theorem Sleepers.step {threads : ℕ} {s t : State T} {a : Action T} (hs : Sleepers s)
    (hlife : Life threads s) (h : Step threads s a t) : Sleepers t := by
  -- a sleeper does not move, so it stays where it is
  have hstay : ∀ u ∈ s.condition_, ∃ i, u = .worker i ∧ i < t.workers_ ∧
      t.workerPc i = .waiting := by
    intro u hu
    obtain ⟨i, rfl, hi, hpc⟩ := hs.asleep u hu
    refine ⟨i, rfl, hi.trans_le h.workers_le, ?_⟩
    rw [h.workerPc_other hlife, hpc]
    intro hmover
    cases h with
    | worker _ h =>
        cases hmover
        exact hs.awake h hu
    | nest hrun =>
        cases hmover
        cases hpc.symm.trans hrun
    | client | call | destroy | spurious => cases hmover
  rcases h.condition with hsub | ⟨i, hi, hpc, hpc', hcv, -⟩
  · exact ⟨fun u hu => hstay u (hsub.subset hu), hs.nodup.sublist hsub⟩
  · constructor
    · intro u hu
      rw [hcv] at hu
      rcases List.mem_cons.mp hu with rfl | hu
      · exact ⟨i, rfl, hi.trans_le h.workers_le, hpc'⟩
      · exact hstay u hu
    · rw [hcv]
      refine List.nodup_cons.mpr ⟨fun hmem => ?_, hs.nodup⟩
      obtain ⟨j, heq, -, hj⟩ := hs.asleep _ hmem
      cases heq
      cases hpc.symm.trans hj

theorem Sleepers.of_reach {threads : ℕ} {s : State T} (h : (machine threads).Reach s) :
    Sleepers s := by
  refine h.invariant (P := Sleepers) ?_ ?_
  · rintro s rfl
    exact ⟨fun u hu => absurd hu List.not_mem_nil, List.nodup_nil⟩
  · intro s a t hreach hs _ hst
    exact hs.step (.of_reach hreach) (step_cases hst)

/-! ## Somebody attends to the queue -/

def State.SomeAwake (s : State T) : Prop := ∃ i < s.workers_, ¬ s.blocked i

/-- While there are tasks, no worker that is awake goes to sleep. -/
theorem Step.someAwake {threads : ℕ} {s t : State T} {a : Action T} (h : Step threads s a t)
    (hs : Sleepers s) (hblock : ∀ i, s.workerPc i = .block → s.tasks_ = [])
    (htasks : t.tasks_ ≠ []) (hawake : s.SomeAwake) : t.SomeAwake := by
  obtain ⟨i, hi, hawake⟩ := hawake
  refine ⟨i, hi.trans_le h.workers_le, fun hblocked => ?_⟩
  have hmem : .worker i ∈ s.condition_ := by
    rcases h.condition with hsub | ⟨j, -, hpc, -, -, hsame⟩
    · exact hsub.subset hblocked.2
    · exact absurd (hsame.trans (hblock j hpc)) htasks
  obtain ⟨j, heq, -, hpc⟩ := hs.asleep _ hmem
  cases heq
  exact hawake ⟨hpc, hmem⟩

theorem Sleepers.someAwake {s t : State T} (hs : Sleepers s) (hcnt : 0 < t.workers_)
    (hle : s.workers_ ≤ t.workers_) {wake : Option Thread}
    (h : s.condition_.notifyOne wake = some t.condition_) : t.SomeAwake := by
  rcases CondVar.notifyOne_eq_some h with ⟨-, hnil⟩ | ⟨v, hv, hcv⟩
  · refine ⟨0, hcnt, fun hblocked => ?_⟩
    rw [State.blocked, hnil] at hblocked
    exact List.not_mem_nil hblocked.2
  · obtain ⟨i, rfl, hi, -⟩ := hs.asleep v hv
    refine ⟨i, hi.trans_le hle, fun hblocked => ?_⟩
    rw [State.blocked, hcv] at hblocked
    exact hs.nodup.not_mem_erase hblocked.2

/-- The thread that moves is inside a call. -/
theorem Step.ofCall {threads : ℕ} {s t : State T} {a : Action T} {u : Thread} {pc : CallPc T}
    (h : Step threads s a t) (hu : a.mover = some u) (hpc : s.call u = some pc) :
    ∃ s' call, CallStep u s pc s' call ∧ t.call u = call ∧ t.condition_ = s'.condition_ := by
  cases h with
  | @worker i wake t hi h =>
      cases hu
      obtain ⟨task, n, hrun⟩ := State.call_worker.mp hpc
      cases h with
      | @nested task' n' pc' s' call hrun' h =>
          cases hrun.symm.trans hrun'
          exact ⟨s', call, h, by simp [State.call, WorkerPc.call], rfl⟩
      | go h | unlock h =>
          rw [hrun] at h
          cases h
      | lock hpc => rcases hpc with hpc | ⟨hpc, -⟩ <;> cases hrun.symm.trans hpc
      | block hpc | take hpc | begins hpc | ends hpc => cases hrun.symm.trans hpc
  | @client c wake t h =>
      cases hu
      have hrun := State.call_client.mp hpc
      cases h with
      | @call pc' pc'' s' hrun' h =>
          cases hrun.symm.trans hrun'
          exact ⟨s', _, h, by simp [State.call, ClientPc.call?], rfl⟩
      | @returns pc' s' hrun' h =>
          cases hrun.symm.trans hrun'
          exact ⟨s', _, h, by simp [State.call, ClientPc.call?], rfl⟩
      | _ hpc => cases hrun.symm.trans hpc
  | call hphase hout | destroy hphase hout =>
      cases hu
      cases hout.symm.trans (State.call_client.mp hpc)
  | nest hrun hi =>
      cases hu
      obtain ⟨task, n, hrun'⟩ := State.call_worker.mp hpc
      cases hrun.symm.trans hrun'
  | spurious => cases hu

theorem CallStep.notifies {u : Thread} {s t : State T} {pc : CallPc T} {call : Option (CallPc T)}
    (h : CallStep u s pc t call) (hpc : pc.notifies = true) :
    call = some .notify ∨ ∃ wake, s.condition_.notifyOne wake = some t.condition_ := by
  cases h with
  | go h | lock h => cases h <;> cases hpc
  | unlock h =>
      cases h with
      | submit => exact .inl rfl
      | pending => cases hpc
  | refuse | emplace => cases hpc
  | notify h => exact .inr ⟨_, h⟩

/-- A call finds workers in the pool. -/
theorem call_workers {threads : ℕ} {s : State T} (h : (machine threads).Reach s) :
    ∀ u, s.call u ≠ none → 0 < s.workers_ := by
  refine h.invariant (P := fun s => ∀ u, s.call u ≠ none → 0 < s.workers_) ?_ ?_
  · rintro s rfl u hu
    refine absurd ?_ hu
    cases u with
    | worker i => rfl
    | client c =>
        by_cases hc : c = 0 <;> simp [State.call, State.initial, hc, ClientPc.call?]
  · intro s a t hreach hs _ hst u hu
    have hstep := step_cases hst
    have hlife := Life.of_reach hreach
    by_cases hold : s.call u = none
    · have hmover : a.mover = some u := by
        by_contra hmover
        exact hu ((hstep.outside_other hlife hmover).2.trans hold)
      cases hstep with
      | call hphase =>
          have hcnt := hlife.workers
            (by rcases hphase with hphase | hphase <;> simp [hphase])
          show 0 < s.workers_
          omega
      | nest _ hi => exact Nat.zero_lt_of_lt hi
      | worker hi h =>
          obtain ⟨pc, -, -, hcnt, -⟩ := h.moves
          rw [hcnt]
          exact Nat.zero_lt_of_lt hi
      | @client c wake t h =>
          cases hmover
          have hout : ∀ pc, s.clientPc c ≠ .call pc := by
            intro pc hpc
            rw [State.call_client.mpr hpc] at hold
            cases hold
          cases h with
          | call hpc | returns hpc => exact absurd hpc (hout _)
          | spawn => exact Nat.succ_pos _
          | _ => simp [State.call, ClientPc.call?] at hu
      | destroy =>
          cases hmover
          simp [State.call, ClientPc.call?] at hu
      | spurious => cases hmover
    · exact (hs u hold).trans_le hstep.workers_le

/-- A task in an empty queue was pushed by a call that has still to notify. -/
theorem Step.pushes {threads : ℕ} {s t : State T} {a : Action T} (h : Step threads s a t)
    (hold : s.tasks_ = []) (hnew : t.tasks_ ≠ []) : ∃ u, t.call u = some .unlock := by
  cases h with
  | @worker i wake t hi h =>
      cases h with
      | take hpc htasks => cases hold.symm.trans htasks
      | nested hpc h =>
          refine ⟨.worker i, ?_⟩
          cases h with
          | emplace task => simp [State.call, WorkerPc.call]
          | _ => exact absurd hold hnew
      | _ => exact absurd hold hnew
  | @client c wake t h =>
      cases h with
      | call hpc h =>
          refine ⟨.client c, ?_⟩
          cases h with
          | emplace task => simp [State.call, ClientPc.call?]
          | _ => exact absurd hold hnew
      | returns hpc h =>
          generalize hcall : (none : Option (CallPc T)) = call at h
          cases h with
          | emplace task => cases hcall
          | _ => exact absurd hold hnew
      | _ => exact absurd hold hnew
  | _ => exact absurd hold hnew

def State.Attended (s : State T) : Prop := s.tasks_ ≠ [] → s.NotifyDue ∨ s.SomeAwake

/-- A notification that was due is due still, or it has just been issued. -/
theorem Step.notifyDue {threads : ℕ} {s t : State T} {a : Action T} (h : Step threads s a t)
    (hs : Sleepers s) (hlife : Life threads s) (hcalls : ∀ u, s.call u ≠ none → 0 < s.workers_)
    (hdue : s.NotifyDue) : t.NotifyDue ∨ t.SomeAwake := by
  rcases hdue with ⟨u, pc, hpc, hnotifies⟩ | ⟨c, hnotifies⟩
  · by_cases hu : a.mover = some u
    · obtain ⟨s', call, hstep, hcall, hcv⟩ := h.ofCall hu hpc
      rcases hstep.notifies hnotifies with rfl | ⟨wake, hwake⟩
      · exact .inl (.inl ⟨u, .notify, hcall, rfl⟩)
      · refine .inr (hs.someAwake ?_ h.workers_le (hcv ▸ hwake))
        exact (hcalls u (by rw [hpc]; nofun)).trans_le h.workers_le
    · exact .inl (.inl ⟨u, pc, (h.outside_other hlife hu).2.trans hpc, hnotifies⟩)
  · by_cases hc : a.mover = some (.client c)
    · have hcnt : 0 < s.workers_ := by
        have hending := hlife.destroys c (by
          generalize s.clientPc c = pc at hnotifies
          cases pc <;> first | rfl | cases hnotifies)
        have hworkers := hlife.workers (fun hphase => by rw [hphase] at hending; cases hending)
        omega
      cases h with
      | client h =>
          cases hc
          cases h with
          | destroyUnlock => exact .inl (.inr ⟨c, by rw [State.goClient_self]; rfl⟩)
          | destroyNotify =>
              refine .inr ⟨0, hcnt, fun hblocked => ?_⟩
              exact List.not_mem_nil hblocked.2
          | _ hpc =>
              rw [hpc] at hnotifies
              cases hnotifies
      | call hphase hpc | destroy hphase hpc =>
          cases hc
          rw [hpc] at hnotifies
          cases hnotifies
      | worker | nest | spurious => cases hc
    · exact .inl (.inr ⟨c, by rw [h.clientPc_other hc]; exact hnotifies⟩)

theorem attended {threads : ℕ} {s : State T} (h : (machine threads).Reach s) : s.Attended := by
  refine h.invariant (P := State.Attended) ?_ ?_
  · rintro s rfl hno
    exact absurd rfl hno
  · intro s a t hreach hs _ hst htasks
    have hstep := step_cases hst
    have hsleepers := Sleepers.of_reach hreach
    by_cases hold : s.tasks_ = []
    · obtain ⟨u, hu⟩ := hstep.pushes hold htasks
      exact .inl (.inl ⟨u, .unlock, hu, rfl⟩)
    · rcases hs hold with hdue | hawake
      · exact hstep.notifyDue hsleepers (.of_reach hreach) (call_workers hreach) hdue
      · refine .inr (hstep.someAwake hsleepers (fun i hpc => ?_) htasks hawake)
        exact (block_empty hreach i hpc).2

/-! ## After `notify_all` -/

theorem Step.notifiedAll {threads : ℕ} {s t : State T} {a : Action T} (h : Step threads s a t)
    (hall : t.NotifiedAll) :
    s.NotifiedAll ∨ t.condition_ = [] ∧ ∃ c, s.clientPc c = .destroyNotify := by
  rcases hall with ⟨c, hc⟩ | hphase
  · by_cases hmover : a.mover = some (.client c)
    · cases h with
      | client h =>
          cases hmover
          cases h with
          | destroyNotify hpc => exact .inr ⟨rfl, c, hpc⟩
          | join hpc => exact .inl (.inl ⟨c, by rw [hpc]; rfl⟩)
          | spawn hpc =>
              rw [show (s.goWorker s.workers_ .lock).clientPc c = s.clientPc c from rfl, hpc] at hc
              cases hc
          | _ =>
              rw [State.goClient_self] at hc
              cases hc
      | call | destroy =>
          cases hmover
          rw [State.goClient_self] at hc
          cases hc
      | worker | nest | spurious => cases hmover
    · rw [h.clientPc_other hmover] at hc
      exact .inl (.inl ⟨c, hc⟩)
  · cases h with
    | worker hi h =>
        obtain ⟨pc, -, -, -, hsame, -⟩ := h.moves
        exact .inl (.inr (hsame.symm.trans hphase))
    | @client c wake t h =>
        cases h with
        | call hpc h | returns hpc h => exact .inl (.inr (h.frame.2.2.2.symm.trans hphase))
        | destroyed hpc => exact .inl (.inl ⟨c, by rw [hpc]; rfl⟩)
        | constructed => cases hphase
        | _ => exact .inl (.inr hphase)
    | destroy => cases hphase
    | _ => exact .inl (.inr hphase)

/-- After the destructor's `notify_all` the blocked set is empty and stays so: `stop_` is set,
and whoever is about to sleep has seen it unset. -/
theorem NotifiedAll.of_reach {threads : ℕ} {s : State T} (h : (machine threads).Reach s) :
    s.NotifiedAll → s.stop_ = true ∧ s.condition_ = [] := by
  refine h.invariant (P := fun s => s.NotifiedAll → s.stop_ = true ∧ s.condition_ = []) ?_ ?_
  · rintro s rfl (⟨c, hc⟩ | hphase)
    · by_cases h0 : c = 0 <;> simp [State.initial, h0, ClientPc.notifiedAll] at hc
    · cases hphase
  · intro s a t hreach hs _ hst hall
    have hstep := step_cases hst
    rcases hstep.notifiedAll hall with hold | ⟨hempty, c, hpc⟩
    · obtain ⟨hstop, hempty⟩ := hs hold
      refine ⟨hstep.stop_kept hstop, ?_⟩
      rcases hstep.condition with hsub | ⟨i, -, hpc, -⟩
      · exact List.sublist_nil.mp (hempty ▸ hsub)
      · cases hstop.symm.trans (block_empty hreach i hpc).1
    · have hknows := (Informed.of_reach hreach).client c
      rw [hpc] at hknows
      exact ⟨hstep.stop_kept hknows, hempty⟩

/-! ## What the joins wait for -/

/-- The destructor is joining its workers and no task is left in the queue. -/
structure Draining (threads : ℕ) (s : State T) : Prop where
  reach : (machine threads).Reach s
  stop : s.stop_ = true
  nobody : s.condition_ = []
  empty : s.tasks_ = []

theorem Draining.step {threads : ℕ} {s t : State T} {a : Action T} (hs : Draining threads s)
    (hst : (machine threads).step s a = some t) : Draining threads t := by
  have hstep := step_cases hst
  refine ⟨hs.reach.next trivial hst, hstep.stop_kept hs.stop, ?_, ?_⟩
  · rcases hstep.condition with hsub | ⟨i, -, hpc, -⟩
    · exact List.sublist_nil.mp (hs.nobody ▸ hsub)
    · cases hs.stop.symm.trans (block_empty hs.reach i hpc).1
  · rcases hstep.touches (.of_reach hs.reach) with ⟨-, htasks⟩ | ⟨u, -, -, htouch⟩
    · exact htasks.trans hs.empty
    · cases htouch with
      | push task hopen => cases hs.stop.symm.trans hopen
      | pop task hstop htasks => cases hs.empty.symm.trans htasks
      | stop hstop htasks => exact htasks.trans hs.empty

/-- The steps that are left inside `queue_mutex_`. -/
def CallPc.left : CallPc T → ℕ
  | .test .. | .pendingSize => 1
  | _ => 0

def WorkerPc.left : WorkerPc T → ℕ
  | .check => 2
  | .exitTest => 1
  | .running _ _ (some pc) => pc.left
  | _ => 0

def ClientPc.left : ClientPc T → ℕ
  | .call pc => pc.left
  | .destroySet => 1
  | _ => 0

def State.left (s : State T) : Thread → ℕ
  | .worker i => (s.workerPc i).left
  | .client c => (s.clientPc c).left

/-- A step inside the mutex either leaves it or comes closer to that. -/
def Leaving (u : Thread) (s t : State T) : Prop :=
  t.queue_mutex_ = none ∨ t.inside u = true ∧ t.left u < s.left u

theorem callStep_leaves {s : State T} {u : Thread} {pc : CallPc T} (hstop : s.stop_ = true)
    (hinside : pc.inside = true) (hknows : pc.Knows s.stop_) :
    ∃ s' call, callStep u none pc s = some (s', call) ∧ (s'.queue_mutex_ = none ∨
      ∃ pc', call = some pc' ∧ pc'.inside = true ∧ pc'.left < pc.left) := by
  cases pc with
  | lock | notify | pendingLock => cases hinside
  | test how task =>
      refine ⟨s, some (.refuse how task), ?_, .inr ⟨_, rfl, rfl, Nat.zero_lt_one⟩⟩
      simp [callStep, hstop]
  | emplace task => cases hstop.symm.trans hknows
  | pendingSize => exact ⟨_, _, rfl, .inr ⟨_, rfl, rfl, Nat.zero_lt_one⟩⟩
  | refuse | unlock | pendingUnlock => exact ⟨_, _, rfl, .inl rfl⟩

theorem Draining.leaves {threads : ℕ} {s : State T} {u : Thread} (hs : Draining threads s)
    (hu : s.inside u = true) :
    ∃ a t, a.thread = some u ∧ (machine threads).step s a = some t ∧ Leaving u s t := by
  have hinf := Informed.of_reach hs.reach
  cases u with
  | worker i =>
      have hinside : (s.workerPc i).inside = true := hu
      have hknows := hinf.worker i
      have hi : i < s.workers_ := by
        by_contra hno
        rw [(Life.of_reach hs.reach).idle i (Nat.not_lt.mp hno)] at hinside
        cases hinside
      have hact : ∀ t, workerStep i none s = some t → Leaving (.worker i) s t →
          ∃ a t, a.thread = some (.worker i) ∧ (machine threads).step s a = some t ∧
            Leaving (.worker i) s t := by
        intro t ht hleaving
        exact ⟨.worker i none, t, rfl, (if_pos hi).trans ht, hleaving⟩
      cases hpc : s.workerPc i with
      | check =>
          refine hact (s.goWorker i .exitTest) (by simp [workerStep, hpc, hs.stop]) (.inr ?_)
          simp [State.inside, WorkerPc.inside, State.left, WorkerPc.left, hpc]
      | exitTest =>
          refine hact (s.goWorker i .leaveExit) (by simp [workerStep, hpc, hs.stop, hs.empty])
            (.inr ?_)
          simp [State.inside, WorkerPc.inside, State.left, WorkerPc.left, hpc]
      | block => cases hs.stop.symm.trans (block_empty hs.reach i hpc).1
      | take =>
          rw [hpc] at hknows
          exact absurd hs.empty hknows
      | leaveExit =>
          exact hact ({ s with queue_mutex_ := none }.goWorker i .ended)
            (by simp only [workerStep, hpc]) (.inl rfl)
      | leaveTake task n =>
          exact hact ({ s with queue_mutex_ := none }.goWorker i (.run task n))
            (by simp only [workerStep, hpc]) (.inl rfl)
      | running task n call =>
          rw [hpc] at hinside hknows
          cases call with
          | none => cases hinside
          | some pc =>
              obtain ⟨s', call, hcall, hleaving⟩ :=
                callStep_leaves (u := .worker i) hs.stop hinside hknows
              refine hact (s'.goWorker i (.running task n call))
                (by simp only [workerStep, hpc, hcall, Option.map_some]) ?_
              rcases hleaving with hfree | ⟨pc', rfl, hin, hleft⟩
              · exact .inl hfree
              · refine .inr ?_
                simpa [State.inside, WorkerPc.inside, State.left, WorkerPc.left, hpc]
                  using ⟨hin, hleft⟩
      | lock | waiting | run | ended =>
          rw [hpc] at hinside
          cases hinside
  | client c =>
      have hinside : (s.clientPc c).inside = true := hu
      have hknows := hinf.client c
      have hact : ∀ t, clientStep threads c none s = some t → Leaving (.client c) s t →
          ∃ a t, a.thread = some (.client c) ∧ (machine threads).step s a = some t ∧
            Leaving (.client c) s t :=
        fun t ht hleaving => ⟨.client c none, t, rfl, ht, hleaving⟩
      cases hpc : s.clientPc c with
      | call pc =>
          rw [hpc] at hinside hknows
          obtain ⟨s', call, hcall, hleaving⟩ :=
            callStep_leaves (u := .client c) hs.stop hinside hknows
          rcases hleaving with hfree | ⟨pc', rfl, hin, hleft⟩
          · cases call with
            | none =>
                exact hact (s'.goClient c .out)
                  (by simp only [clientStep, hpc, hcall, Option.map_some]) (.inl hfree)
            | some pc' =>
                exact hact (s'.goClient c (.call pc'))
                  (by simp only [clientStep, hpc, hcall, Option.map_some]) (.inl hfree)
          · refine hact (s'.goClient c (.call pc'))
              (by simp only [clientStep, hpc, hcall, Option.map_some]) (.inr ?_)
            simpa [State.inside, ClientPc.inside, State.left, ClientPc.left, hpc]
              using ⟨hin, hleft⟩
      | destroySet =>
          refine hact ({ s with stop_ := true }.goClient c .destroyUnlock)
            (by simp only [clientStep, hpc]) (.inr ?_)
          simp [State.inside, ClientPc.inside, State.left, ClientPc.left, hpc]
      | destroyUnlock =>
          exact hact ({ s with queue_mutex_ := none }.goClient c .destroyNotify)
            (by simp only [clientStep, hpc]) (.inl rfl)
      | out | construct | destroyLock | destroyNotify | destroyJoin =>
          rw [hpc] at hinside
          cases hinside

/-- The run of one thread. -/
def RunAlone (threads : ℕ) (u : Thread) : State T → State T → Prop :=
  (machine threads).RunBy fun _ a => a.thread = some u

theorem Draining.run {threads : ℕ} {s t : State T} {G : State T → Action T → Prop}
    (hs : Draining threads s) (hrun : (machine threads).RunBy G s t) : Draining threads t :=
  hrun.invariant hs fun _ _ _ hs _ hst => hs.step hst

/-- Whoever is inside the mutex leaves it by itself. -/
theorem Draining.frees {threads : ℕ} {u : Thread} (n : ℕ) :
    ∀ s : State T, s.left u = n → Draining threads s → s.inside u = true →
      ∃ t, RunAlone threads u s t ∧ t.queue_mutex_ = none := by
  induction n using Nat.strong_induction_on with
  | _ n ih =>
      rintro s rfl hs hu
      obtain ⟨a, t, ha, hst, hfree | ⟨hin, hleft⟩⟩ := hs.leaves hu
      · exact ⟨t, .single ⟨a, ha, hst⟩, hfree⟩
      · obtain ⟨v, hrun, hfree⟩ := ih _ hleft t rfl (hs.step hst) hin
        exact ⟨v, .head ⟨a, ha, hst⟩ hrun, hfree⟩

/-- The worker ends its loop by itself once the mutex is free, or its own already. -/
theorem Draining.exits {threads : ℕ} {s : State T} {i : ℕ} (hs : Draining threads s)
    (hi : i < s.workers_) (hready : (s.workerPc i).ready = none)
    (hexec : (s.workerPc i).executing = none)
    (hfree : (s.workerPc i).asks = true → s.queue_mutex_ = none) :
    ∃ t, RunAlone threads (.worker i) s t ∧ t.workerPc i = .ended := by
  have hone : ∀ {s t : State T}, i < s.workers_ → workerStep i none s = some t →
      (machine threads).StepBy (fun _ a => a.thread = some (.worker i)) s t :=
    fun hi hst => ⟨.worker i none, rfl, (if_pos hi).trans hst⟩
  have hleave : ∀ s : State T, i < s.workers_ → s.workerPc i = .leaveExit →
      ∃ t, RunAlone threads (.worker i) s t ∧ t.workerPc i = .ended := by
    intro s hi hpc
    exact ⟨{ s with queue_mutex_ := none }.goWorker i .ended,
      .single (hone hi (by simp only [workerStep, hpc])), State.goWorker_self ..⟩
  have hexit : ∀ s : State T, s.stop_ = true → s.tasks_ = [] → i < s.workers_ →
      s.workerPc i = .exitTest →
      ∃ t, RunAlone threads (.worker i) s t ∧ t.workerPc i = .ended := by
    intro s hstop hempty hi hpc
    obtain ⟨t, hrun, hended⟩ := hleave (s.goWorker i .leaveExit) hi (State.goWorker_self ..)
    exact ⟨t, .head (hone hi (by simp [workerStep, hpc, hstop, hempty])) hrun, hended⟩
  have hcheck : ∀ s : State T, s.stop_ = true → s.tasks_ = [] → i < s.workers_ →
      s.workerPc i = .check →
      ∃ t, RunAlone threads (.worker i) s t ∧ t.workerPc i = .ended := by
    intro s hstop hempty hi hpc
    obtain ⟨t, hrun, hended⟩ :=
      hexit (s.goWorker i .exitTest) hstop hempty hi (State.goWorker_self ..)
    exact ⟨t, .head (hone hi (by simp [workerStep, hpc, hstop])) hrun, hended⟩
  have hlock : s.workerPc i = .lock ∨ s.workerPc i = .waiting →
      ∃ t, RunAlone threads (.worker i) s t ∧ t.workerPc i = .ended := by
    intro hpc
    have hmutex := hfree (by rcases hpc with hpc | hpc <;> rw [hpc] <;> rfl)
    obtain ⟨t, hrun, hended⟩ :=
      hcheck ({ s with queue_mutex_ := some (.worker i) }.goWorker i .check) hs.stop hs.empty hi
        (State.goWorker_self ..)
    refine ⟨t, .head (hone hi ?_) hrun, hended⟩
    rcases hpc with hpc | hpc <;> simp [workerStep, hpc, hmutex, hs.nobody, Mutex.lock]
  have hknows := (Informed.of_reach hs.reach).worker i
  cases hpc : s.workerPc i with
  | lock => exact hlock (.inl hpc)
  | waiting => exact hlock (.inr hpc)
  | check => exact hcheck s hs.stop hs.empty hi hpc
  | exitTest => exact hexit s hs.stop hs.empty hi hpc
  | leaveExit => exact hleave s hi hpc
  | ended => exact ⟨s, .refl, hpc⟩
  | block => cases hs.stop.symm.trans (block_empty hs.reach i hpc).1
  | take =>
      rw [hpc] at hknows
      exact absurd hs.empty hknows
  | leaveTake | run =>
      rw [hpc] at hready
      cases hready
  | running =>
      rw [hpc] at hexec
      cases hexec

/-- The steps of worker `i` and of whoever owns `queue_mutex_`. -/
def State.ownerOr (s : State T) (i : ℕ) (_ : State T) (a : Action T) : Prop :=
  ∃ u, a.thread = some u ∧ (u = .worker i ∨ s.queue_mutex_ = some u)

/-- A worker without a task comes to the end of its loop: the owner of `queue_mutex_` and the
worker itself need no other thread. -/
theorem Draining.joins {threads : ℕ} {s : State T} {i : ℕ} (hs : Draining threads s)
    (hi : i < s.workers_) (hready : (s.workerPc i).ready = none)
    (hexec : (s.workerPc i).executing = none) :
    ∃ t, (machine threads).RunBy (s.ownerOr i) s t ∧ t.workerPc i = .ended := by
  -- the worker's own steps, from wherever its lock is free or not needed
  have hexits : ∀ t, (machine threads).RunBy (s.ownerOr i) s t →
      t.workerPc i = s.workerPc i → i < t.workers_ →
      ((s.workerPc i).asks = true → t.queue_mutex_ = none) →
      ∃ v, (machine threads).RunBy (s.ownerOr i) s v ∧ v.workerPc i = .ended := by
    intro t hrun hpc hit hfree
    rw [← hpc] at hready hexec hfree
    obtain ⟨v, hrun', hended⟩ := (hs.run hrun).exits hit hready hexec hfree
    exact ⟨v, hrun.trans (hrun'.mono fun _ a ha => ⟨_, ha, .inl rfl⟩), hended⟩
  by_cases hasks : (s.workerPc i).asks = true
  · cases hmutex : s.queue_mutex_ with
    | none => exact hexits s .refl rfl hi fun _ => hmutex
    | some u =>
        have hu := (queue_mutex_exact hs.reach u).mp hmutex
        have hne : u ≠ .worker i := by
          rintro rfl
          cases hasks.symm.trans (WorkerPc.inside_asks hu).1
        obtain ⟨t, hrun, hfree⟩ := Draining.frees _ s rfl hs hu
        -- the owner's steps leave this worker where it is
        have hstay : t.workerPc i = s.workerPc i ∧ i < t.workers_ := by
          refine (hrun.invariant (P := fun t => Draining threads t ∧
            t.workerPc i = s.workerPc i ∧ i < t.workers_) ⟨hs, rfl, hi⟩ ?_).2
          rintro t a v ⟨ht, hpc, hit⟩ ha hst
          have hstep := step_cases hst
          refine ⟨ht.step hst, ?_, hit.trans_le hstep.workers_le⟩
          rw [hstep.workerPc_other (.of_reach ht.reach), hpc]
          intro hmover
          cases a with
          | worker j wake =>
              cases hmover
              exact hne (Option.some.inj ha).symm
          | nest => cases ha
          | client | call | destroy | spurious => cases hmover
        refine hexits t (hrun.mono fun _ a ha => ⟨u, ha, .inr hmutex⟩) hstay.1 hstay.2
          fun _ => hfree
  · exact hexits s .refl rfl hi fun h => absurd h hasks

/-! ## The pool never sleeps on work -/

/-- Whatever is in the queue, somebody is awake or has still to notify; after `notify_all`
nobody is blocked any more, and a worker that the joins wait for has a task, or finds one in
the queue, or ends without waiting for another. -/
theorem never_sleeps_on_work {threads : ℕ} {s : State T} (h : (machine threads).Reach s) :
    (s.tasks_ ≠ [] → s.NotifyDue ∨ ∃ i < s.workers_, ¬ s.blocked i) ∧
    (s.NotifiedAll → ∀ i, ¬ s.blocked i) ∧
    (s.NotifiedAll → s.tasks_ = [] → ∀ i < s.workers_,
      (s.workerPc i).ready = none → (s.workerPc i).executing = none →
      ∃ t, (machine threads).RunBy (s.ownerOr i) s t ∧ t.workerPc i = .ended) := by
  refine ⟨attended h, ?_, ?_⟩
  · intro hall i hblocked
    have hmem := hblocked.2
    rw [(NotifiedAll.of_reach h hall).2] at hmem
    exact List.not_mem_nil hmem
  · intro hall hempty i hi hready hexec
    obtain ⟨hstop, hnobody⟩ := NotifiedAll.of_reach h hall
    exact Draining.joins ⟨h, hstop, hnobody, hempty⟩ hi hready hexec

/-- The only worker sleeps, a task lies in the queue, and its enqueuer has still to notify. -/
theorem never_sleeps_on_work_due :
    ∃ s : State ℕ, (s.tasks_ = [5] ∧ s.workers_ = 1 ∧ s.workerPc 0 = .waiting ∧
      s.condition_ = [.worker 0]) ∧ s.NotifyDue := by
  obtain ⟨s, hs, hread⟩ := Machine.ReachBy.of_exec (M := machine 1) (G := fun _ _ => True)
    State.initial
    (List.replicate 2 (.client 0 none) ++ runWorker 3 ++ runCall (.enqueue 5) 4)
    (fun s : State ℕ => s.tasks_ = [5] ∧ s.workers_ = 1 ∧ s.workerPc 0 = .waiting ∧
      s.condition_ = [.worker 0]) rfl (by decide)
  refine ⟨s, hread, ?_⟩
  obtain ⟨htasks, hcnt, hpc, hcv⟩ := hread
  rcases (never_sleeps_on_work hs).1 (by simp [htasks]) with hdue | ⟨i, hi, hawake⟩
  · exact hdue
  · obtain rfl : i = 0 := by omega
    exact absurd ⟨hpc, by simp [hcv]⟩ hawake

end ThreadPool
