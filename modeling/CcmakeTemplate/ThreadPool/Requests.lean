import CcmakeTemplate.ThreadPool.Submissions

/-!
# Who waits for `queue_mutex_`

The owner of `queue_mutex_` is inside one of its critical sections and does not ask for it.
A thread that runs code from elsewhere, a client between its calls or a worker in its task,
is left there by the steps of the pool.
-/

namespace ThreadPool

open Concurrency

variable {T : Type}

/-! ## The owner -/

theorem CallStep.enters {u : Thread} {s t : State T} {pc : CallPc T} {call : Option (CallPc T)}
    (h : CallStep u s pc t call) (hfree : s.queue_mutex_ = none)
    (htake : t.queue_mutex_ = some u) : insideCall call = true := by
  cases h with
  | lock h => cases h <;> rfl
  | unlock | refuse => cases htake
  | go | emplace | notify => cases hfree.symm.trans htake

theorem WorkerStep.enters {i : ℕ} {s t : State T} (h : WorkerStep i s t)
    (hfree : s.queue_mutex_ = none) (htake : t.queue_mutex_ = some (.worker i)) :
    t.inside (.worker i) = true := by
  cases h with
  | lock => simp [State.inside, WorkerPc.inside]
  | unlock | block => cases htake
  | go | take | begins | ends => cases hfree.symm.trans htake
  | @nested task n pc s' call hpc h =>
      have hcall := h.enters hfree htake
      cases call with
      | none => cases hcall
      | some pc' => simpa [State.inside, WorkerPc.inside, insideCall] using hcall

theorem ClientStep.enters {threads c : ℕ} {s t : State T} (h : ClientStep threads c s t)
    (hfree : s.queue_mutex_ = none) (htake : t.queue_mutex_ = some (.client c)) :
    t.inside (.client c) = true := by
  cases h with
  | call hpc h => simpa [State.inside, ClientPc.inside, insideCall] using h.enters hfree htake
  | returns hpc h => cases h.enters hfree htake
  | destroyLock => simp [State.inside, ClientPc.inside]
  | destroyUnlock => cases htake
  | _ => cases hfree.symm.trans htake

/-- How the owner of `queue_mutex_` changes in a step of thread `u`. -/
structure LockStep (u : Thread) (s t : State T) : Prop where
  handover : Mutex.Handover u s.queue_mutex_ (s.inside u) t.queue_mutex_ (t.inside u)
  enters : s.queue_mutex_ = none → t.queue_mutex_ = some u → t.inside u = true
  others : ∀ v, v ≠ u → t.inside v = s.inside v

theorem LockStep.keep {u : Thread} {s t : State T} (hlock : t.queue_mutex_ = s.queue_mutex_)
    (hinside : t.inside u = s.inside u) (hothers : ∀ v, v ≠ u → t.inside v = s.inside v) :
    LockStep u s t := by
  refine ⟨.keep hlock hinside, fun hfree htake => ?_, hothers⟩
  cases hfree.symm.trans (hlock.symm.trans htake)

theorem inside_goWorker (s : State T) (i : ℕ) (pc : WorkerPc T) {v : Thread}
    (hv : v ≠ .worker i) : (s.goWorker i pc).inside v = s.inside v := by
  cases v with
  | client c => rfl
  | worker j =>
      have hj : j ≠ i := fun heq => hv (heq ▸ rfl)
      simp only [State.inside, Function.update_of_ne hj]

theorem inside_goClient (s : State T) (c : ℕ) (pc : ClientPc T) {v : Thread}
    (hv : v ≠ .client c) : (s.goClient c pc).inside v = s.inside v := by
  cases v with
  | worker j => rfl
  | client d =>
      have hd : d ≠ c := fun heq => hv (heq ▸ rfl)
      simp only [State.inside, Function.update_of_ne hd]

theorem WorkerStep.lockStep {i : ℕ} {s t : State T} (h : WorkerStep i s t) :
    LockStep (.worker i) s t := by
  obtain ⟨pc, hworker, hclient, -, -, hhand⟩ := h.moves
  refine ⟨?_, h.enters, fun v hv => ?_⟩
  · simpa only [State.inside, hworker, Function.update_self] using hhand
  · cases v with
    | worker j =>
        have hj : j ≠ i := fun heq => hv (heq ▸ rfl)
        simp only [State.inside, hworker, Function.update_of_ne hj]
    | client c => simp only [State.inside, hclient]

theorem ClientStep.lockStep {threads c : ℕ} {s t : State T} (h : ClientStep threads c s t)
    (hs : Life threads s) : LockStep (.client c) s t := by
  obtain ⟨pc, hclient, hhand⟩ := h.moves
  refine ⟨?_, h.enters, fun v hv => ?_⟩
  · simpa only [State.inside, hclient, Function.update_self] using hhand
  · cases v with
    | worker j =>
        rcases h.workerPc with ⟨hworker, -⟩ | ⟨-, -, hworker⟩
        · simp only [State.inside, hworker]
        · rw [State.inside, hworker, ← hs.idle _ le_rfl, Function.update_eq_self]
          rfl
    | client d =>
        have hd : d ≠ c := fun heq => hv (heq ▸ rfl)
        simp only [State.inside, hclient, Function.update_of_ne hd]

theorem Step.lockStep {threads : ℕ} {s t : State T} {a : Action T} (h : Step threads s a t)
    (hs : Life threads s) : ∃ u, LockStep u s t := by
  cases h with
  | worker hi h => exact ⟨_, h.lockStep⟩
  | client h => exact ⟨_, h.lockStep hs⟩
  | @call c op hphase hpc =>
      refine ⟨.client c, .keep rfl ?_ fun v hv => inside_goClient s c _ hv⟩
      simp [State.inside, hpc, ClientPc.inside, op.entry_inside]
  | @nest i n op task hpc hi =>
      refine ⟨.worker i, .keep rfl ?_ fun v hv => inside_goWorker s i _ hv⟩
      simp [State.inside, hpc, WorkerPc.inside, op.entry_inside]
  | @destroy c hphase hpc =>
      refine ⟨.client c, .keep rfl ?_ fun v hv => inside_goClient s c _ hv⟩
      simp [State.inside, hpc, ClientPc.inside]
  | spurious t => exact ⟨t, .keep rfl rfl fun _ _ => rfl⟩

theorem queue_mutex_exact {threads : ℕ} {s : State T} (h : (machine threads).Reach s) :
    s.queue_mutex_.Exact s.inside := by
  refine h.invariant (P := fun s => s.queue_mutex_.Exact s.inside) ?_ ?_
  · rintro s rfl u
    have hstart : (machine threads).Reach (State.initial : State T) := .start rfl
    refine ⟨nofun, fun hu => ?_⟩
    cases Guarded.of_reach hstart u hu
  · intro s a t hreach hs _ hst
    obtain ⟨u, hlock⟩ := (step_cases hst).lockStep (.of_reach hreach)
    exact hs.step hlock.handover hlock.enters hlock.others

/-! ## Who asks -/

def CallPc.asks : CallPc T → Bool
  | .lock .. | .pendingLock => true
  | _ => false

def WorkerPc.asks : WorkerPc T → Bool
  | .lock | .waiting => true
  | .running _ _ (some pc) => pc.asks
  | _ => false

def ClientPc.asks : ClientPc T → Bool
  | .call pc => pc.asks
  | .destroyLock => true
  | _ => false

/-- The worker runs its task, or the client its own code. -/
def WorkerPc.outside : WorkerPc T → Bool
  | .running _ _ none => true
  | _ => false

def ClientPc.outside : ClientPc T → Bool
  | .out => true
  | _ => false

namespace State

/-- A worker that sleeps in `condition_` asks for nothing yet. -/
def asks (s : State T) (t : Thread) : Prop :=
  t ∉ s.condition_ ∧
    match t with
    | .worker i => (s.workerPc i).asks = true
    | .client c => (s.clientPc c).asks = true

def outside (s : State T) : Thread → Bool
  | .worker i => (s.workerPc i).outside
  | .client c => (s.clientPc c).outside

end State

theorem CallPc.inside_asks {pc : CallPc T} (h : pc.inside = true) : pc.asks = false := by
  cases pc <;> first | rfl | cases h

theorem WorkerPc.inside_asks {pc : WorkerPc T} (h : pc.inside = true) :
    pc.asks = false ∧ pc.outside = false := by
  cases pc with
  | running task n call =>
      cases call with
      | none => cases h
      | some pc => exact ⟨CallPc.inside_asks h, rfl⟩
  | check | block | exitTest | leaveExit | take | leaveTake => exact ⟨rfl, rfl⟩
  | _ => cases h

theorem ClientPc.inside_asks {pc : ClientPc T} (h : pc.inside = true) :
    pc.asks = false ∧ pc.outside = false := by
  cases pc with
  | call pc => exact ⟨CallPc.inside_asks h, rfl⟩
  | destroySet | destroyUnlock => exact ⟨rfl, rfl⟩
  | _ => cases h

theorem WorkerPc.outside_eq {pc : WorkerPc T} :
    pc.outside = true ↔ ∃ task n, pc = .running task n none := by
  cases pc with
  | running task n call => cases call <;> simp [outside]
  | _ => simp [outside]

theorem ClientPc.outside_eq {pc : ClientPc T} : pc.outside = true ↔ pc = .out := by
  cases pc <;> simp [outside]

/-- The owner of `queue_mutex_` does not ask for it. -/
theorem inside_asks {s : State T} {t : Thread} (h : s.inside t = true) :
    ¬ s.asks t ∧ s.outside t = false := by
  cases t with
  | worker i =>
      obtain ⟨hasks, hout⟩ := WorkerPc.inside_asks h
      exact ⟨fun hno => (nomatch hasks.symm.trans hno.2), hout⟩
  | client c =>
      obtain ⟨hasks, hout⟩ := ClientPc.inside_asks h
      exact ⟨fun hno => (nomatch hasks.symm.trans hno.2), hout⟩

theorem outside_asks {s : State T} {t : Thread} (h : s.outside t = true) :
    ¬ s.asks t ∧ s.call t = none := by
  cases t with
  | worker i =>
      obtain ⟨task, n, hpc⟩ := WorkerPc.outside_eq.mp h
      simp [State.asks, State.call, hpc, WorkerPc.asks, WorkerPc.call]
  | client c =>
      have hpc := ClientPc.outside_eq.mp h
      simp [State.asks, State.call, hpc, ClientPc.asks, ClientPc.call?]

/-! ## Threads outside -/

/-- The thread that an action moves. -/
def Action.mover : Action T → Option Thread
  | .worker i _ | .nest i _ => some (.worker i)
  | .client c _ | .call c _ | .destroy c => some (.client c)
  | .spurious _ => none

theorem Step.workerPc_other {threads : ℕ} {s t : State T} {a : Action T}
    (h : Step threads s a t) (hs : Life threads s) {i : ℕ} (hi : a.mover ≠ some (.worker i)) :
    t.workerPc i = s.workerPc i := by
  have hother : ∀ j, some (Thread.worker j) ≠ some (.worker i) → i ≠ j := by
    rintro j hj rfl
    exact hj rfl
  cases h with
  | worker _ h =>
      obtain ⟨pc, hworker, -⟩ := h.moves
      rw [hworker, Function.update_of_ne (hother _ hi)]
  | client h =>
      rcases h.workerPc with ⟨hworker, -⟩ | ⟨-, -, hworker⟩
      · rw [hworker]
      · rw [hworker, ← hs.idle _ le_rfl, Function.update_eq_self]
  | nest => exact Function.update_of_ne (hother _ hi) ..
  | call | destroy | spurious => rfl

/-- A worker keeps its task until the task ends. -/
theorem Step.executing_kept {threads : ℕ} {s t : State T} {a : Action T}
    (h : Step threads s a t) (hs : Life threads s) {i : ℕ} {x : T × ℕ}
    (hx : (s.workerPc i).executing = some x)
    (hends : ∀ wake, a = .worker i wake → (s.workerPc i).outside = false) :
    (t.workerPc i).executing = some x := by
  by_cases hi : a.mover = some (.worker i)
  · cases h with
    | @worker j wake t hj h =>
        cases hi
        have hinside := hends wake rfl
        cases h with
        | go h | unlock h =>
            generalize s.workerPc i = pc at h hx
            cases h <;> cases hx
        | lock hpc =>
            rcases hpc with hpc | ⟨hpc, -⟩ <;>
            · rw [hpc] at hx
              cases hx
        | block hpc | take hpc | begins hpc =>
            rw [hpc] at hx
            cases hx
        | ends hpc =>
            rw [hpc] at hinside
            cases hinside
        | nested hpc =>
            rw [hpc] at hx
            rw [State.goWorker_self]
            exact hx
    | @nest j n op task hpc hj =>
        cases hi
        rw [hpc] at hx
        rw [State.goWorker_self]
        exact hx
    | client | call | destroy | spurious => cases hi
  · rw [h.workerPc_other hs hi]
    exact hx

theorem Step.clientPc_other {threads : ℕ} {s t : State T} {a : Action T}
    (h : Step threads s a t) {c : ℕ} (hc : a.mover ≠ some (.client c)) :
    t.clientPc c = s.clientPc c := by
  have hother : ∀ d, some (Thread.client d) ≠ some (.client c) → c ≠ d := by
    rintro d hd rfl
    exact hd rfl
  cases h with
  | worker _ h =>
      obtain ⟨pc, -, hclient, -⟩ := h.moves
      rw [hclient]
  | client h =>
      obtain ⟨pc, hclient, -⟩ := h.moves
      rw [hclient, Function.update_of_ne (hother _ hc)]
  | call | destroy => exact Function.update_of_ne (hother _ hc) ..
  | nest | spurious => rfl

theorem Step.outside_other {threads : ℕ} {s t : State T} {a : Action T}
    (h : Step threads s a t) (hs : Life threads s) {u : Thread} (hu : a.mover ≠ some u) :
    t.outside u = s.outside u ∧ t.call u = s.call u := by
  cases u with
  | worker i => simp only [State.outside, State.call, h.workerPc_other hs hu, and_self]
  | client c => simp only [State.outside, State.call, h.clientPc_other hu, and_self]

/-- A call that ends leaves its thread outside. -/
theorem Step.call_ends {threads : ℕ} {s t : State T} {a : Action T} (h : Step threads s a t)
    (hs : Life threads s) {u : Thread} (hcall : s.call u ≠ none) (hends : t.call u = none) :
    t.outside u = true := by
  have hu : a.mover = some u := by
    by_contra hu
    exact hcall ((h.outside_other hs hu).2.symm.trans hends)
  obtain ⟨pc, hpc⟩ := Option.ne_none_iff_exists'.mp hcall
  cases h with
  | @worker i wake t hi h =>
      cases hu
      obtain ⟨task, n, hrun⟩ := State.call_worker.mp hpc
      cases h with
      | @nested task n pc s' call _ _ =>
          cases call with
          | none => simp [State.outside, WorkerPc.outside]
          | some pc' => simp [State.call, WorkerPc.call] at hends
      | go h =>
          rw [hrun] at h
          cases h
      | unlock h =>
          rw [hrun] at h
          cases h
      | lock hpc => rcases hpc with hpc | ⟨hpc, -⟩ <;> cases hrun.symm.trans hpc
      | block hpc | take hpc | begins hpc | ends hpc => cases hrun.symm.trans hpc
  | @client c wake t h =>
      cases hu
      have hrun := State.call_client.mp hpc
      cases h with
      | call => simp [State.call, ClientPc.call?] at hends
      | returns => simp [State.outside, ClientPc.outside]
      | _ hpc => cases hrun.symm.trans hpc
  | @call c op hphase hpc =>
      cases hu
      simp [State.call, ClientPc.call?] at hends
  | @nest i n op task hpc hi =>
      cases hu
      simp [State.call, WorkerPc.call] at hends
  | @destroy c hphase hout =>
      cases hu
      cases hout.symm.trans (State.call_client.mp hpc)
  | spurious => cases hu

end ThreadPool
