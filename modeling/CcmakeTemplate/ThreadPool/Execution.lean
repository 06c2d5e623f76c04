import CcmakeTemplate.ThreadPool.Locks

/-!
# Every accepted task is executed once

The queue is a FIFO of the tasks accepted and not yet taken. A task that was taken is in
the hands of one worker, about to run or running, or it has run. A worker leaves only
after it has seen `stop_` set and the queue empty, so once the destructor has joined them
all nothing is left, neither queued nor in anyone's hands.
-/

namespace ThreadPool

open Concurrency

variable {T : Type}

/-! ## The ledger of tasks -/

/-- The task that a worker has taken and not yet begun. -/
def WorkerPc.ready : WorkerPc T → Option (T × ℕ)
  | .leaveTake task n | .run task n => some (task, n)
  | _ => none

def WorkerPc.executing : WorkerPc T → Option (T × ℕ)
  | .running task n _ => some (task, n)
  | _ => none

structure Ledger (s : State T) : Prop where
  fifo : s.accepted = s.taken ++ s.tasks_
  begun : (s.begun : Multiset (T × ℕ)) + inHands s.workers_ (fun i => (s.workerPc i).ready) =
    (s.taken.zipIdx : Multiset (T × ℕ))
  finished : (s.finished : Multiset (T × ℕ)) +
    inHands s.workers_ (fun i => (s.workerPc i).executing) = (s.begun : Multiset (T × ℕ))

/-- A call adds to the queue what it accepts, and executes nothing. -/
theorem CallStep.accepts {u : Thread} {s t : State T} {pc : CallPc T} {call : Option (CallPc T)}
    (h : CallStep u s pc t call) :
    (∃ new, t.accepted = s.accepted ++ new ∧ t.tasks_ = s.tasks_ ++ new) ∧
      t.taken = s.taken ∧ t.begun = s.begun ∧ t.finished = s.finished := by
  cases h with
  | emplace task => exact ⟨⟨[task], rfl, rfl⟩, rfl, rfl, rfl⟩
  | _ => exact ⟨⟨[], by simp, by simp⟩, rfl, rfl, rfl⟩

theorem Ledger.call {u : Thread} {s t : State T} {pc : CallPc T} {call : Option (CallPc T)}
    (hs : Ledger s) (h : CallStep u s pc t call) : Ledger t := by
  obtain ⟨⟨new, haccepted, htasks⟩, htaken, hbegun, hfinished⟩ := h.accepts
  obtain ⟨hworker, -, hcnt, -⟩ := h.frame
  refine ⟨?_, ?_, ?_⟩
  · rw [haccepted, htasks, htaken, hs.fifo, List.append_assoc]
  · rw [hbegun, hworker, hcnt, htaken]
    exact hs.begun
  · rw [hfinished, hworker, hcnt, hbegun]
    exact hs.finished

/-- A step that takes and executes nothing. -/
theorem Ledger.go {s t : State T} (hs : Ledger s) {i : ℕ} {pc : WorkerPc T}
    (hworker : t.workerPc = Function.update s.workerPc i pc) (hcnt : t.workers_ = s.workers_)
    (hready : pc.ready = (s.workerPc i).ready)
    (hexecuting : pc.executing = (s.workerPc i).executing)
    (hqueue : t.accepted = s.accepted ∧ t.tasks_ = s.tasks_ ∧ t.taken = s.taken)
    (hruns : t.begun = s.begun ∧ t.finished = s.finished) : Ledger t := by
  obtain ⟨haccepted, htasks, htaken⟩ := hqueue
  obtain ⟨hbegun, hfinished⟩ := hruns
  refine ⟨?_, ?_, ?_⟩
  · rw [haccepted, htasks, htaken, hs.fifo]
  · rw [hbegun, hworker, hcnt, htaken, inHands_go _ hready]
    exact hs.begun
  · rw [hfinished, hworker, hcnt, hbegun, inHands_go _ hexecuting]
    exact hs.finished

theorem WorkerGo.hands {s : State T} {pc pc' : WorkerPc T} (h : WorkerGo s pc pc') :
    pc'.ready = pc.ready ∧ pc'.executing = pc.executing := by
  cases h <;> exact ⟨rfl, rfl⟩

theorem WorkerUnlocks.hands {pc pc' : WorkerPc T} (h : WorkerUnlocks pc pc') :
    pc'.ready = pc.ready ∧ pc'.executing = pc.executing := by
  cases h <;> exact ⟨rfl, rfl⟩

/-- The front of the queue passes into the hands of worker `i`, with the next number. -/
theorem Ledger.take {s : State T} {i : ℕ} {task : T} {rest : List T} (hs : Ledger s)
    (hi : i < s.workers_) (hpc : s.workerPc i = .take) (htasks : s.tasks_ = task :: rest) :
    Ledger ({ s with tasks_ := rest, taken := s.taken ++ [task] }.goWorker i
      (.leaveTake task s.taken.length)) := by
  have hfree : (s.workerPc i).ready = none := by
    rw [hpc]
    rfl
  have hidle : (WorkerPc.leaveTake task s.taken.length).executing =
      (s.workerPc i).executing := by
    rw [hpc]
    rfl
  constructor
  · show s.accepted = s.taken ++ [task] ++ rest
    rw [hs.fifo, htasks, List.append_assoc, List.singleton_append]
  · show (s.begun : Multiset (T × ℕ)) + inHands s.workers_ _ =
      ((s.taken ++ [task]).zipIdx : Multiset (T × ℕ))
    rw [inHands_go_take hi hfree rfl, List.zipIdx_append, ← Multiset.coe_add, ← hs.begun,
      add_left_comm, add_comm]
    simp
  · show (s.finished : Multiset (T × ℕ)) + inHands s.workers_ _ = _
    rw [inHands_go _ hidle]
    exact hs.finished

theorem Ledger.begins {s : State T} {i n : ℕ} {task : T} (hs : Ledger s) (hi : i < s.workers_)
    (hpc : s.workerPc i = .run task n) :
    Ledger ({ s with begun := s.begun ++ [(task, n)] }.goWorker i (.running task n none)) := by
  have hheld : (s.workerPc i).ready = some (task, n) := by
    rw [hpc]
    rfl
  have hidle : (s.workerPc i).executing = none := by
    rw [hpc]
    rfl
  refine ⟨hs.fifo, ?_, ?_⟩
  · show ((s.begun ++ [(task, n)] : List (T × ℕ)) : Multiset (T × ℕ)) +
      inHands s.workers_ _ = _
    rw [← Multiset.coe_add, Multiset.coe_singleton, add_assoc, inHands_go_release hi hheld rfl]
    exact hs.begun
  · show (s.finished : Multiset (T × ℕ)) + inHands s.workers_ _ =
      ((s.begun ++ [(task, n)] : List (T × ℕ)) : Multiset (T × ℕ))
    rw [inHands_go_take hi hidle rfl, ← Multiset.coe_add, ← hs.finished, add_left_comm,
      add_comm, Multiset.coe_singleton]

theorem Ledger.ends {s : State T} {i n : ℕ} {task : T} (hs : Ledger s) (hi : i < s.workers_)
    (hpc : s.workerPc i = .running task n none) :
    Ledger ({ s with finished := s.finished ++ [(task, n)] }.goWorker i .lock) := by
  have hheld : (s.workerPc i).executing = some (task, n) := by
    rw [hpc]
    rfl
  have hidle : (WorkerPc.lock : WorkerPc T).ready = (s.workerPc i).ready := by
    rw [hpc]
    rfl
  refine ⟨hs.fifo, ?_, ?_⟩
  · show (s.begun : Multiset (T × ℕ)) + inHands s.workers_ _ = _
    rw [inHands_go _ hidle]
    exact hs.begun
  · show ((s.finished ++ [(task, n)] : List (T × ℕ)) : Multiset (T × ℕ)) +
      inHands s.workers_ _ = _
    rw [← Multiset.coe_add, Multiset.coe_singleton, add_assoc, inHands_go_release hi hheld rfl]
    exact hs.finished

theorem Ledger.worker {s t : State T} {i : ℕ} (hs : Ledger s) (hi : i < s.workers_)
    (h : WorkerStep i s t) : Ledger t := by
  cases h with
  | go h => exact hs.go rfl rfl h.hands.1 h.hands.2 ⟨rfl, rfl, rfl⟩ ⟨rfl, rfl⟩
  | unlock h => exact hs.go rfl rfl h.hands.1 h.hands.2 ⟨rfl, rfl, rfl⟩ ⟨rfl, rfl⟩
  | lock hpc =>
      refine hs.go rfl rfl ?_ ?_ ⟨rfl, rfl, rfl⟩ ⟨rfl, rfl⟩ <;>
        rcases hpc with hpc | ⟨hpc, -⟩ <;> rw [hpc] <;> rfl
  | block hpc =>
      refine hs.go rfl rfl ?_ ?_ ⟨rfl, rfl, rfl⟩ ⟨rfl, rfl⟩ <;> rw [hpc] <;> rfl
  | take hpc htasks => exact hs.take hi hpc htasks
  | begins hpc => exact hs.begins hi hpc
  | ends hpc => exact hs.ends hi hpc
  | @nested task n pc s' call hpc h =>
      have hworker : s'.workerPc i = s.workerPc i := by rw [h.frame.1]
      refine (hs.call h).go rfl rfl ?_ ?_ ⟨rfl, rfl, rfl⟩ ⟨rfl, rfl⟩ <;>
        rw [hworker, hpc] <;> rfl

theorem Ledger.client {s t : State T} {threads c : ℕ} (hs : Ledger s)
    (h : ClientStep threads c s t) : Ledger t := by
  cases h with
  | call hpc h | returns hpc h =>
      obtain ⟨hfifo, hbegun, hfinished⟩ := hs.call h
      exact ⟨hfifo, hbegun, hfinished⟩
  | spawn hpc hroom =>
      refine ⟨hs.fifo, ?_, ?_⟩
      · show (s.begun : Multiset (T × ℕ)) + inHands (s.workers_ + 1) _ = _
        rw [inHands_go_join _ rfl]
        exact hs.begun
      · show (s.finished : Multiset (T × ℕ)) + inHands (s.workers_ + 1) _ = _
        rw [inHands_go_join _ rfl]
        exact hs.finished
  | _ => exact ⟨hs.fifo, hs.begun, hs.finished⟩

theorem Ledger.of_reach {threads : ℕ} {s : State T} (h : (machine threads).Reach s) :
    Ledger s := by
  refine h.invariant (P := Ledger) ?_ ?_
  · rintro s rfl
    exact ⟨rfl, by simp [State.initial, inHands_nobody], by simp [State.initial, inHands_nobody]⟩
  · intro s a t _ hs _ hst
    cases step_cases hst with
    | worker hi h => exact hs.worker hi h
    | client h => exact hs.client h
    | @nest i n op task hpc hi =>
        refine hs.go rfl rfl ?_ ?_ ⟨rfl, rfl, rfl⟩ ⟨rfl, rfl⟩ <;> rw [hpc] <;> rfl
    | call | destroy | spurious => exact ⟨hs.fifo, hs.begun, hs.finished⟩

/-- The task with number `n` was the `n`-th to be taken. -/
theorem Ledger.begun_taken {s : State T} (hs : Ledger s) {task : T} {n : ℕ}
    (h : (task, n) ∈ s.begun) : s.taken[n]? = some task := by
  have hmem : (task, n) ∈ (s.taken.zipIdx : Multiset (T × ℕ)) := by
    rw [← hs.begun]
    exact Multiset.mem_add.mpr (.inl h)
  exact List.mk_mem_zipIdx_iff_getElem?.mp hmem

theorem Ledger.begun_nodup {s : State T} (hs : Ledger s) : (s.begun.map Prod.snd).Nodup := by
  have hle : (s.begun : Multiset (T × ℕ)) ≤ (s.taken.zipIdx : Multiset (T × ℕ)) := by
    rw [← hs.begun]
    exact Multiset.le_add_right _ _
  have hmap := Multiset.map_le_map (f := Prod.snd) hle
  refine Multiset.coe_nodup.mp (Multiset.nodup_of_le hmap ?_)
  rw [Multiset.map_coe, Multiset.coe_nodup, List.zipIdx_map_snd]
  exact List.nodup_range'

/-! ## The life of the pool -/

def ClientPc.destroys : ClientPc T → Bool
  | .destroyLock | .destroySet | .destroyUnlock | .destroyNotify | .destroyJoin _ => true
  | _ => false

def Phase.ending : Phase → Bool
  | .destroying | .destroyed => true
  | _ => false

structure Life (threads : ℕ) (s : State T) : Prop where
  construct : ∀ c, s.clientPc c = .construct → c = 0 ∧ s.phase = .constructing
  upTo : s.workers_ ≤ max threads 1
  workers : s.phase ≠ .constructing → s.workers_ = max threads 1
  idle : ∀ i, s.workers_ ≤ i → s.workerPc i = .lock
  destroys : ∀ c, (s.clientPc c).destroys = true → s.phase.ending = true
  stopped : s.stop_ = true → s.phase.ending = true
  joined : ∀ c i, s.clientPc c = .destroyJoin i → ∀ j < i, s.workerPc j = .ended
  destroyed : s.phase = .destroyed → ∀ i < s.workers_, s.workerPc i = .ended

theorem CallStep.stop_ {u : Thread} {s t : State T} {pc : CallPc T} {call : Option (CallPc T)}
    (h : CallStep u s pc t call) : t.stop_ = s.stop_ := by
  cases h <;> rfl

theorem WorkerStep.stop_ {i : ℕ} {s t : State T} (h : WorkerStep i s t) : t.stop_ = s.stop_ := by
  cases h with
  | nested hpc h => exact h.stop_
  | _ => rfl

theorem WorkerStep.active {i : ℕ} {s t : State T} (h : WorkerStep i s t) :
    s.workerPc i ≠ .ended := by
  intro hended
  cases h with
  | go h | unlock h =>
      rw [hended] at h
      cases h
  | lock hpc =>
      rw [hended] at hpc
      rcases hpc with hpc | ⟨hpc, -⟩ <;> cases hpc
  | block hpc | take hpc | begins hpc | ends hpc | nested hpc =>
      rw [hended] at hpc
      cases hpc

/-- A worker moves. -/
theorem Life.worker {threads i : ℕ} {s t : State T} {pc : WorkerPc T} (hs : Life threads s)
    (hi : i < s.workers_) (hactive : s.workerPc i ≠ .ended)
    (hworker : t.workerPc = Function.update s.workerPc i pc)
    (hframe : t.clientPc = s.clientPc ∧ t.workers_ = s.workers_ ∧ t.phase = s.phase ∧
      t.stop_ = s.stop_) : Life threads t := by
  obtain ⟨hclient, hcnt, hphase, hstop⟩ := hframe
  have hended : ∀ j, s.workerPc j = .ended → t.workerPc j = .ended := by
    intro j hj
    have hne : j ≠ i := by
      rintro rfl
      exact hactive hj
    rw [hworker, Function.update_of_ne hne]
    exact hj
  constructor
  · rw [hclient, hphase]
    exact hs.construct
  · rw [hcnt]
    exact hs.upTo
  · rw [hphase, hcnt]
    exact hs.workers
  · intro j hj
    rw [hcnt] at hj
    rw [hworker, Function.update_of_ne (by omega)]
    exact hs.idle j hj
  · rw [hclient, hphase]
    exact hs.destroys
  · rw [hstop, hphase]
    exact hs.stopped
  · intro c k hpc j hj
    rw [hclient] at hpc
    exact hended j (hs.joined c k hpc j hj)
  · intro hdestroyed j hj
    rw [hphase] at hdestroyed
    rw [hcnt] at hj
    exact hended j (hs.destroyed hdestroyed j hj)

/-- A client moves and the phase stays what it is. -/
theorem Life.client {threads c : ℕ} {s t : State T} {pc : ClientPc T} (hs : Life threads s)
    (hclient : t.clientPc = Function.update s.clientPc c pc)
    (hframe : t.workerPc = s.workerPc ∧ t.workers_ = s.workers_ ∧ t.phase = s.phase)
    (hstop : t.stop_ = true → s.phase.ending = true) (hpc : pc ≠ .construct)
    (hdestroys : pc.destroys = true → s.phase.ending = true)
    (hjoined : ∀ i, pc = .destroyJoin i → ∀ j < i, s.workerPc j = .ended) : Life threads t := by
  obtain ⟨hworker, hcnt, hphase⟩ := hframe
  constructor
  · rw [hclient, hphase]
    exact forall_update
      (P := fun c (pc : ClientPc T) => pc = .construct → c = 0 ∧ s.phase = .constructing)
      hs.construct fun h => absurd h hpc
  · rw [hcnt]
    exact hs.upTo
  · rw [hphase, hcnt]
    exact hs.workers
  · rw [hworker, hcnt]
    exact hs.idle
  · rw [hclient, hphase]
    exact forall_update (P := fun _ pc => ClientPc.destroys pc = true → s.phase.ending = true)
      hs.destroys hdestroys
  · rw [hphase]
    exact hstop
  · rw [hclient, hworker]
    exact forall_update
      (P := fun _ (pc : ClientPc T) => ∀ i, pc = .destroyJoin i → ∀ j < i, s.workerPc j = .ended)
      hs.joined hjoined
  · rw [hphase, hworker, hcnt]
    exact hs.destroyed

/-- A client moves and begins another phase; the constructor's client is the only one that
ends the construction. -/
theorem Life.enter {threads c : ℕ} {s t : State T} {pc : ClientPc T} (hs : Life threads s)
    (hclient : t.clientPc = Function.update s.clientPc c pc)
    (hframe : t.workerPc = s.workerPc ∧ t.workers_ = s.workers_ ∧ t.stop_ = s.stop_)
    (hfrom : s.phase = .constructing → c = 0) (hfull : s.workers_ = max threads 1)
    (hending : s.phase.ending = true → t.phase.ending = true) (hpc : pc ≠ .construct)
    (hdestroys : pc.destroys = true → t.phase.ending = true)
    (hjoined : ∀ i, pc ≠ .destroyJoin i)
    (hdestroyed : t.phase = .destroyed → ∀ i < s.workers_, s.workerPc i = .ended) :
    Life threads t := by
  obtain ⟨hworker, hcnt, hstop⟩ := hframe
  constructor
  · intro c' hpc'
    rw [hclient] at hpc'
    by_cases hne : c' = c
    · rw [hne, Function.update_self] at hpc'
      exact absurd hpc' hpc
    · rw [Function.update_of_ne hne] at hpc'
      obtain ⟨hc', hphase⟩ := hs.construct c' hpc'
      exact absurd (hc'.trans (hfrom hphase).symm) hne
  · rw [hcnt]
    exact hs.upTo
  · exact fun _ => hcnt.trans hfull
  · rw [hworker, hcnt]
    exact hs.idle
  · rw [hclient]
    exact forall_update (P := fun _ pc => ClientPc.destroys pc = true → t.phase.ending = true)
      (fun c hd => hending (hs.destroys c hd)) hdestroys
  · rw [hstop]
    exact fun h => hending (hs.stopped h)
  · rw [hclient, hworker]
    exact forall_update
      (P := fun _ (pc : ClientPc T) => ∀ i, pc = .destroyJoin i → ∀ j < i, s.workerPc j = .ended)
      hs.joined fun i hi => absurd hi (hjoined i)
  · rw [hworker, hcnt]
    exact hdestroyed

/-- The constructor creates one more worker. -/
theorem Life.spawn {threads c : ℕ} {s : State T} (hs : Life threads s)
    (hpc : s.clientPc c = .construct) (hroom : s.workers_ < max threads 1) :
    Life threads ({ s with workers_ := s.workers_ + 1 }.goWorker s.workers_ .lock) := by
  have hsame : Function.update s.workerPc s.workers_ .lock = s.workerPc := by
    rw [← hs.idle _ le_rfl, Function.update_eq_self]
  have hphase := (hs.construct c hpc).2
  constructor
  · exact hs.construct
  · exact hroom
  · exact fun hno => absurd hphase hno
  · intro j hj
    show Function.update s.workerPc s.workers_ .lock j = _
    rw [hsame]
    exact hs.idle j (Nat.le_of_succ_le hj)
  · exact hs.destroys
  · exact hs.stopped
  · intro c' i hjoin j hj
    show Function.update s.workerPc s.workers_ .lock j = _
    rw [hsame]
    exact hs.joined c' i hjoin j hj
  · intro hdestroyed
    cases hphase.symm.trans hdestroyed

theorem Life.clientStep {threads c : ℕ} {s t : State T} (hs : Life threads s)
    (h : ClientStep threads c s t) : Life threads t := by
  have hending : (s.clientPc c).destroys = true → s.phase.ending = true := hs.destroys c
  cases h with
  | call hpc h | returns hpc h =>
      obtain ⟨hworker, hclient, hcnt, hphase⟩ := h.frame
      refine hs.client (c := c) (congrArg (Function.update · c _) hclient) ⟨hworker, hcnt, hphase⟩
        ?_ nofun nofun nofun
      intro hstop
      exact hs.stopped (h.stop_ ▸ hstop)
  | spawn hpc hroom => exact hs.spawn hpc hroom
  | constructed hpc hroom =>
      obtain ⟨hc, hphase⟩ := hs.construct c hpc
      refine hs.enter (c := c) rfl ⟨rfl, rfl, rfl⟩ (fun _ => hc) (le_antisymm hs.upTo hroom) ?_
        nofun nofun nofun nofun
      rw [hphase]
      nofun
  | destroyLock hpc hfree =>
      rw [hpc] at hending
      exact hs.client (c := c) rfl ⟨rfl, rfl, rfl⟩ hs.stopped nofun hending nofun
  | destroySet hpc | destroyUnlock hpc =>
      rw [hpc] at hending
      exact hs.client (c := c) rfl ⟨rfl, rfl, rfl⟩ (fun _ => hending rfl) nofun hending nofun
  | destroyNotify hpc =>
      rw [hpc] at hending
      refine hs.client (c := c) rfl ⟨rfl, rfl, rfl⟩ hs.stopped nofun hending ?_
      intro i hjoin j hj
      cases hjoin
      omega
  | @join i hpc hi hended =>
      have hjoined := hs.joined c i hpc
      rw [hpc] at hending
      refine hs.client (c := c) rfl ⟨rfl, rfl, rfl⟩ hs.stopped nofun hending ?_
      intro k hjoin j hj
      cases hjoin
      by_cases hlast : j = i
      · exact hlast ▸ hended
      · exact hjoined j (by omega)
  | @destroyed i hpc hi =>
      have hjoined := hs.joined c i hpc
      rw [hpc] at hending
      have hphase : s.phase ≠ .constructing := by
        intro hno
        rw [hno] at hending
        cases hending rfl
      exact hs.enter (c := c) rfl ⟨rfl, rfl, rfl⟩ (fun hno => absurd hno hphase)
        (hs.workers hphase) (fun _ => rfl) nofun nofun nofun
        fun _ j hj => hjoined j (lt_of_lt_of_le hj hi)

theorem Life.of_reach {threads : ℕ} {s : State T} (h : (machine threads).Reach s) :
    Life threads s := by
  refine h.invariant (P := Life threads) ?_ ?_
  · rintro s rfl
    have hout : ∀ c, (State.initial : State T).clientPc c = .construct ∧ c = 0 ∨
        (State.initial : State T).clientPc c = .out := by
      intro c
      by_cases hc : c = 0
      · exact .inl ⟨by rw [hc]; rfl, hc⟩
      · exact .inr (by simp [State.initial, hc])
    constructor
    · intro c hpc
      rcases hout c with ⟨-, hc⟩ | hno
      · exact ⟨hc, rfl⟩
      · cases hpc.symm.trans hno
    · exact Nat.zero_le _
    · exact fun hno => absurd rfl hno
    · exact fun _ _ => rfl
    · intro c hpc
      rcases hout c with ⟨hc, -⟩ | hc <;> rw [hc] at hpc <;> cases hpc
    · simp [State.initial]
    · intro c i hpc
      rcases hout c with ⟨hc, -⟩ | hc <;> rw [hc] at hpc <;> cases hpc
    · simp [State.initial]
  · intro s a t _ hs _ hst
    cases step_cases hst with
    | worker hi h =>
        obtain ⟨pc, hworker, hclient, hcnt, hphase, -⟩ := h.moves
        exact hs.worker hi h.active hworker ⟨hclient, hcnt, hphase, h.stop_⟩
    | client h => exact hs.clientStep h
    | @call c op hphase hpc =>
        exact hs.client (c := c) rfl ⟨rfl, rfl, rfl⟩ hs.stopped (by simp)
          (by simp [ClientPc.destroys]) (by simp)
    | @nest i n op task hpc hi =>
        refine hs.worker hi ?_ rfl ⟨rfl, rfl, rfl, rfl⟩
        simp [hpc]
    | @destroy c hphase hpc =>
        have hnot : s.phase ≠ .constructing := by
          simp [hphase]
        refine hs.enter (c := c) rfl ⟨rfl, rfl, rfl⟩ (fun hno => absurd hno hnot)
          (hs.workers hnot) (fun _ => rfl) (by simp) (fun _ => rfl) (by simp) (by simp)
    | spurious t =>
        exact ⟨hs.construct, hs.upTo, hs.workers, hs.idle, hs.destroys, hs.stopped, hs.joined,
          hs.destroyed⟩

/-- A worker that has left has seen the queue empty for good, so the destructor's joins
leave nothing behind. -/
theorem Ledger.drained {threads : ℕ} {s : State T} (hs : Ledger s) (hlife : Life threads s)
    (hinf : Informed s) (hphase : s.phase = .destroyed) :
    s.tasks_ = [] ∧ s.finished.Perm s.accepted.zipIdx := by
  have hended := hlife.destroyed hphase
  have hnobody : ∀ hand : WorkerPc T → Option (T × ℕ), hand .ended = none →
      inHands s.workers_ (fun i => hand (s.workerPc i)) = 0 := by
    intro hand hnone
    refine Finset.sum_eq_zero fun i hi => ?_
    simp only [hended i (Finset.mem_range.mp hi), hnone]
    rfl
  have hempty : s.tasks_ = [] := by
    have hcnt : s.workers_ = max threads 1 := hlife.workers (by rw [hphase]; nofun)
    have hknows := hinf.worker 0
    rw [hended 0 (by omega)] at hknows
    exact hknows.2
  refine ⟨hempty, Multiset.coe_eq_coe.mp ?_⟩
  calc (s.finished : Multiset (T × ℕ))
      = (s.begun : Multiset (T × ℕ)) := by
        rw [← hs.finished, hnobody WorkerPc.executing rfl, add_zero]
    _ = (s.taken.zipIdx : Multiset (T × ℕ)) := by
        rw [← hs.begun, hnobody WorkerPc.ready rfl, add_zero]
    _ = (s.accepted.zipIdx : Multiset (T × ℕ)) := by rw [hs.fifo, hempty, List.append_nil]

/-! ## After `stop_` is set -/

theorem Step.stop_kept {threads : ℕ} {s t : State T} {a : Action T} (h : Step threads s a t)
    (hstop : s.stop_ = true) : t.stop_ = true := by
  cases h with
  | worker hi h => exact h.stop_.trans hstop
  | client h =>
      cases h with
      | call hpc h | returns hpc h => exact h.stop_.trans hstop
      | destroySet => rfl
      | _ => exact hstop
  | _ => exact hstop

/-- Tasks are accepted and refused by the calls only. -/
theorem Step.submission {threads : ℕ} {s t : State T} {a : Action T} (h : Step threads s a t) :
    (t.accepted = s.accepted ∧ t.refused = s.refused) ∨
      ∃ u pc s' call, s.call u = some pc ∧ CallStep u s pc s' call ∧
        t.accepted = s'.accepted ∧ t.refused = s'.refused := by
  cases h with
  | @worker i wake t hi h =>
      cases h with
      | @nested task n pc s' call hpc h =>
          exact .inr ⟨_, pc, s', call, State.call_worker.mpr ⟨task, n, hpc⟩, h, rfl, rfl⟩
      | _ => exact .inl ⟨rfl, rfl⟩
  | @client c wake t h =>
      cases h with
      | @call pc pc' s' hpc h =>
          exact .inr ⟨_, pc, s', some pc', State.call_client.mpr hpc, h, rfl, rfl⟩
      | @returns pc s' hpc h =>
          exact .inr ⟨_, pc, s', none, State.call_client.mpr hpc, h, rfl, rfl⟩
      | _ => exact .inl ⟨rfl, rfl⟩
  | _ => exact .inl ⟨rfl, rfl⟩

theorem Step.accepted_late {threads : ℕ} {s t : State T} {a : Action T} (h : Step threads s a t)
    (hs : Informed s) (hstop : s.stop_ = true) : t.accepted = s.accepted := by
  rcases h.submission with ⟨hsame, -⟩ | ⟨u, pc, s', call, hpc, hcall, haccepted, -⟩
  · exact hsame
  · have hknows := hs.call hpc
    rw [haccepted]
    cases hcall with
    | emplace task => cases hstop.symm.trans hknows
    | _ => rfl

/-- What was accepted when `stop_` is set is all that ever will be. -/
theorem accepted_final {threads : ℕ} {s t : State T} (h : (machine threads).Reach s)
    (hrun : (machine threads).RunBy (fun _ _ => True) s t) (hstop : s.stop_ = true) :
    t.accepted = s.accepted := by
  refine (hrun.invariant
    (P := fun t => (machine threads).Reach t ∧ t.stop_ = true ∧ t.accepted = s.accepted)
    ⟨h, hstop, rfl⟩ ?_).2.2
  intro u a t ⟨hu, hset, heq⟩ hG hst
  have hstep := step_cases hst
  exact ⟨hu.next hG hst, hstep.stop_kept hset,
    (hstep.accepted_late (.of_reach hu) hset).trans heq⟩

/-- A thread that runs inside a call makes a step of this call. -/
theorem Step.of_call {threads : ℕ} {s t : State T} {a : Action T} {u : Thread} {pc : CallPc T}
    (h : Step threads s a t) (hu : a.thread = some u) (hpc : s.call u = some pc) :
    ∃ s' call, CallStep u s pc s' call ∧ t.call u = call ∧ t.tasks_ = s'.tasks_ ∧
      t.accepted = s'.accepted ∧ t.refused = s'.refused := by
  cases h with
  | @worker i wake t hi h =>
      cases hu
      obtain ⟨task, n, hrun⟩ := State.call_worker.mp hpc
      cases h with
      | @nested task' n' pc' s' call hpc' h =>
          cases hrun.symm.trans hpc'
          refine ⟨s', call, h, ?_, rfl, rfl, rfl⟩
          simp [State.call, WorkerPc.call]
      | go h | unlock h =>
          rw [hrun] at h
          cases h
      | lock hpc' =>
          rw [hrun] at hpc'
          rcases hpc' with hpc' | ⟨hpc', -⟩ <;> cases hpc'
      | block hpc' | take hpc' | begins hpc' | ends hpc' => cases hrun.symm.trans hpc'
  | @client c wake t h =>
      cases hu
      have hcall := State.call_client.mp hpc
      cases h with
      | @call pc₁ pc' s' hpc' h =>
          cases hcall.symm.trans hpc'
          refine ⟨s', some pc', h, ?_, rfl, rfl, rfl⟩
          simp [State.call, ClientPc.call?]
      | @returns pc₁ s' hpc' h =>
          cases hcall.symm.trans hpc'
          refine ⟨s', none, h, ?_, rfl, rfl, rfl⟩
          simp [State.call, ClientPc.call?]
      | _ hpc' => cases hcall.symm.trans hpc'
  | _ => cases hu

/-- Once `stop_` is set, a submission that reaches its test is turned away, and the queue
stays as it is. -/
theorem Step.refuses {threads : ℕ} {s t : State T} {a : Action T} {u : Thread} {how : Submit}
    {task : T} (h : Step threads s a t) (hu : a.thread = some u) (hstop : s.stop_ = true) :
    (s.call u = some (.test how task) →
      t.call u = some (.refuse how task) ∧ t.tasks_ = s.tasks_) ∧
    (s.call u = some (.refuse how task) →
      t.call u = none ∧ t.tasks_ = s.tasks_ ∧ t.refused = s.refused ++ [(task, how.refusal)]) := by
  constructor
  · intro hpc
    obtain ⟨s', call, hcall, hnext, htasks, -, -⟩ := h.of_call hu hpc
    rw [hnext, htasks]
    cases hcall with
    | go hgo =>
        cases hgo with
        | stopped => exact ⟨rfl, rfl⟩
        | «open» _ _ hopen => cases hstop.symm.trans hopen
    | lock hlock => cases hlock
    | unlock hunlock => cases hunlock
  · intro hpc
    obtain ⟨s', call, hcall, hnext, htasks, -, hrefused⟩ := h.of_call hu hpc
    rw [hnext, htasks, hrefused]
    cases hcall with
    | refuse => exact ⟨rfl, rfl, rfl⟩
    | go hgo => cases hgo
    | lock hlock => cases hlock
    | unlock hunlock => cases hunlock

/-! ## The pool -/

/-- The workers take the tasks in the order of the pushes, none twice. When the destructor
has returned every task accepted was executed. Nothing is accepted any more once `stop_` is
set, and no worker leaves before the queue is empty. -/
theorem executes_once {threads : ℕ} {s : State T} (h : (machine threads).Reach s) :
    s.accepted = s.taken ++ s.tasks_ ∧
    ((s.begun.map Prod.snd).Nodup ∧ ∀ task n, (task, n) ∈ s.begun → s.taken[n]? = some task) ∧
    (s.phase = .destroyed → s.tasks_ = [] ∧ s.finished.Perm s.accepted.zipIdx) ∧
    (s.stop_ = true →
      (∀ t, (machine threads).RunBy (fun _ _ => True) s t →
        t.accepted = s.accepted ∧ ∀ task n, (task, n) ∈ t.begun → s.accepted[n]? = some task) ∧
      ∀ u how task a t, a.thread = some u → (machine threads).step s a = some t →
        (s.call u = some (.test how task) →
          t.call u = some (.refuse how task) ∧ t.tasks_ = s.tasks_) ∧
        (s.call u = some (.refuse how task) →
          t.call u = none ∧ t.tasks_ = s.tasks_ ∧
            t.refused = s.refused ++ [(task, how.refusal)])) ∧
    ∀ i, s.workerPc i = .leaveExit ∨ s.workerPc i = .ended → s.tasks_ = [] := by
  have hledger := Ledger.of_reach h
  have hinf := Informed.of_reach h
  refine ⟨hledger.fifo, ⟨hledger.begun_nodup, fun _ _ => hledger.begun_taken⟩,
    hledger.drained (.of_reach h) hinf, ?_, ?_⟩
  · intro hstop
    refine ⟨fun t hrun => ?_, fun u how task a t hu hst => (step_cases hst).refuses hu hstop⟩
    have hfinal := accepted_final h hrun hstop
    refine ⟨hfinal, fun task n hmem => ?_⟩
    have hlater := Ledger.of_reach (h.run hrun)
    have htaken := hlater.begun_taken hmem
    rw [← hfinal, hlater.fifo, List.getElem?_append_left (List.getElem?_eq_some_iff.mp htaken).1]
    exact htaken
  · intro i hleft
    have hknows := hinf.worker i
    rcases hleft with hpc | hpc <;> rw [hpc] at hknows <;> exact hknows.2

/-- A task is executed, the pool is destroyed, and a task that is offered meanwhile makes
`enqueue_future` throw. -/
theorem executes_once_destroyed :
    ∃ s : State ℕ, (s.phase = .destroyed ∧ s.finished = [(5, 0)] ∧
        s.refused = [(7, some "enqueue on stopped thread_pool")]) ∧
      s.finished.Perm s.accepted.zipIdx := by
  obtain ⟨s, hs, hread⟩ := Machine.ReachBy.of_exec (M := machine 1) (G := fun _ _ => True)
    State.initial
    (List.replicate 2 (.client 0 none) ++ runCall (.enqueue 5) 5 ++ runWorker 7 ++
      .destroy 0 :: List.replicate 4 (.client 0 none) ++
      .call 1 (.enqueueFuture 7) :: List.replicate 3 (.client 1 none) ++ runWorker 4 ++
      List.replicate 2 (.client 0 none))
    (fun s : State ℕ => s.phase = .destroyed ∧ s.finished = [(5, 0)] ∧
      s.refused = [(7, some "enqueue on stopped thread_pool")]) rfl (by decide)
  exact ⟨s, hread, ((executes_once hs).2.2.1 hread.1).2⟩

end ThreadPool
