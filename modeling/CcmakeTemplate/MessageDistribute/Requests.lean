import CcmakeTemplate.MessageDistribute.Delivery
import CcmakeTemplate.ThreadPool.Requests
import CcmakeTemplate.Concurrency.Deadlock

/-!
# What the threads of a distributor wait for

A thread may wait for `listLock` or for `queue_mutex_`. It calls the pool only from the loop
of `distribute`, where it has released `listLock`, and a worker of the pool is inside a
method only while it runs a callback. So whoever owns one of the two mutexes asks for
neither.
-/

namespace MessageDistribute

open Concurrency

open ThreadPool (Thread)

variable {F A : Type} {poolSize : ℕ}

/-! ## The pool is called from the loop of `distribute` -/

def Pc.enqueues : Pc F A → Bool
  | .enqueueing .. => true
  | _ => false

structure Nested (s : State F A) : Prop where
  calls : ∀ u, s.pool_.call u ≠ none → (s.pc u).enqueues = true
  runs : ∀ u, s.pc u ≠ .out → s.pool_.call u = none → s.pool_.outside u = true

/-- The steps that the pool makes by itself take nobody in from outside, but for the
destructor. -/
theorem State.admits_mover {s : State F A} {a : ThreadPool.Action (Task F A)}
    {pool : ThreadPool.State (Task F A)} (h : s.admits a = true)
    (hst : ThreadPool.step poolSize s.pool_ a = some pool) {u : Thread}
    (hu : a.mover = some u) (hout : s.pool_.outside u = true) :
    ∃ c, a = .destroy c ∧ u = .client c ∧ (s.pc u).isOut = true := by
  cases a with
  | worker i wake =>
      cases hu
      obtain ⟨task, n, hpc⟩ := ThreadPool.WorkerPc.outside_eq.mp hout
      simp [State.admits, hpc] at h
  | client c wake =>
      cases hu
      have hpc := ThreadPool.ClientPc.outside_eq.mp hout
      simp [ThreadPool.step, ThreadPool.clientStep, hpc] at hst
  | destroy c =>
      cases hu
      exact ⟨c, rfl, rfl, h⟩
  | call | nest => cases h
  | spurious => cases hu

theorem Nested.pool {s : State F A} (hs : Nested s) (hlife : ThreadPool.Life poolSize s.pool_)
    {a : ThreadPool.Action (Task F A)} {pool : ThreadPool.State (Task F A)}
    (ha : a.starts = false) (hst : ThreadPool.step poolSize s.pool_ a = some pool)
    (hmover : ∀ u, a.mover = some u → s.pool_.outside u = true → s.pc u = .out) :
    Nested { s with pool_ := pool } := by
  have hstep := ThreadPool.step_cases hst
  constructor
  · intro u hu
    refine hs.calls u fun hnone => hu ?_
    obtain ⟨v, hmove⟩ := hstep.callMove ha hlife
    by_cases huv : u = v
    · subst huv
      rcases hmove.own with ⟨hsame, -⟩ | ⟨pc, s', call, hpc, -⟩
      · exact hsame.trans hnone
      · cases hnone.symm.trans hpc
    · exact (hmove.others u huv).trans hnone
  · intro u hpc hcall
    by_cases hold : s.pool_.call u = none
    · have hout := hs.runs u hpc hold
      have hu : a.mover ≠ some u := fun hu => hpc (hmover u hu hout)
      exact (hstep.outside_other hlife hu).1.trans hout
    · exact hstep.call_ends hlife hold hcall

theorem Nested.go {s t : State F A} (hs : Nested s) {u : Thread} {pc : Pc F A}
    (hpc : t.pc = Function.update s.pc u pc) (hpool : t.pool_ = s.pool_)
    (hcall : s.pool_.call u = none) (hout : pc ≠ .out → s.pool_.outside u = true) :
    Nested t := by
  constructor
  · intro v hv
    rw [hpool] at hv
    have hvu : v ≠ u := fun heq => hv (heq ▸ hcall)
    rw [hpc, Function.update_of_ne hvu]
    exact hs.calls v hv
  · intro v hv hcall'
    rw [hpool] at hcall' ⊢
    by_cases hvu : v = u
    · subst hvu
      rw [hpc, Function.update_self] at hv
      exact hout hv
    · rw [hpc, Function.update_of_ne hvu] at hv
      exact hs.runs v hv hcall'

theorem OwnStep.pc_ne_out {s t : State F A} {u : Thread} (h : OwnStep poolSize u s t) :
    s.pc u ≠ .out := by
  intro hout
  cases h with
  | go h =>
      rw [hout] at h
      cases h
  | make hpc | lock hpc | record hpc | unlock hpc | returns hpc | enqueue hpc =>
      cases hout.symm.trans hpc

theorem poolCall_mover (task : Task F A) (u : Thread) : (poolCall task u).mover = some u := by
  cases u <;> rfl

/-- A step of the distributor leaves the other threads where they are. -/
theorem OwnStep.others {s t : State F A} {u : Thread} (h : OwnStep poolSize u s t)
    (hlife : ThreadPool.Life poolSize s.pool_) {v : Thread} (hv : v ≠ u) :
    t.pc v = s.pc v ∧ t.pool_.outside v = s.pool_.outside v ∧
      t.pool_.call v = s.pool_.call v := by
  obtain ⟨pc, hpc, -⟩ := h.moves
  refine ⟨by rw [hpc, Function.update_of_ne hv], ?_⟩
  cases h with
  | enqueue hpc hfn h =>
      refine (ThreadPool.step_cases h).outside_other hlife fun hmover => hv ?_
      rw [poolCall_mover] at hmover
      exact (Option.some.inj hmover).symm
  | _ => exact ⟨rfl, rfl⟩

theorem Nested.own {s t : State F A} (hs : Nested s) (hlife : ThreadPool.Life poolSize s.pool_)
    {u : Thread} (hcall : s.pool_.call u = none) (h : OwnStep poolSize u s t) : Nested t := by
  have hothers : ∀ v, v ≠ u → t.pc v = s.pc v ∧ t.pool_.outside v = s.pool_.outside v ∧
      t.pool_.call v = s.pool_.call v := fun v hv => h.others hlife hv
  have hout := hs.runs u h.pc_ne_out hcall
  cases h with
  | @enqueue n c fn localList args pool hpc hfn h =>
      have hself : pool.call u ≠ none := by
        intro hno
        have hhand := (poolCall_spec h).1
        rw [ThreadPool.State.inHand, hno] at hhand
        cases hhand
      constructor
      · intro v hv
        by_cases hvu : v = u
        · subst hvu
          rw [State.go_self]
          rfl
        · obtain ⟨hpcv, -, hcallv⟩ := hothers v hvu
          rw [hpcv]
          exact hs.calls v fun hno => hv (hcallv.trans hno)
      · intro v hv hno
        by_cases hvu : v = u
        · subst hvu
          exact absurd hno hself
        · obtain ⟨hpcv, houtv, hcallv⟩ := hothers v hvu
          rw [hpcv] at hv
          exact houtv.trans (hs.runs v hv (hcallv.symm.trans hno))
  | _ => exact hs.go rfl rfl hcall fun _ => hout

theorem State.free_outside {s : State F A} {u : Thread} (h : s.free u = true) :
    s.pool_.outside u = true := by
  have hfree := (Bool.and_eq_true_iff.mp h).2
  cases u with
  | client c =>
      simp only at hfree
      split at hfree
      · rename_i hpc
        exact ThreadPool.ClientPc.outside_eq.mpr hpc
      · rename_i hpc
        exact ThreadPool.ClientPc.outside_eq.mpr hpc
      · cases hfree
  | worker i =>
      simp only at hfree
      split at hfree
      · rename_i task n hpc
        exact ThreadPool.WorkerPc.outside_eq.mpr ⟨task, n, hpc⟩
      · cases hfree

theorem Pc.isOut_eq {pc : Pc F A} (h : pc.isOut = true) : pc = .out := by
  cases pc <;> first | rfl | cases h

theorem pool_life {s : State F A} (h : (machine poolSize).Reach s) :
    ThreadPool.Life poolSize s.pool_ :=
  .of_reach ((refines_pool poolSize).reach h)

theorem Nested.of_reach {s : State F A} (h : (machine poolSize).Reach s) : Nested s := by
  refine h.invariant (P := Nested) ?_ ?_
  · rintro s rfl
    refine ⟨fun u hu => absurd ?_ hu, fun u hu => absurd rfl hu⟩
    cases u with
    | worker i => rfl
    | client c =>
        by_cases hc : c = 0
        · subst hc
          rfl
        · simp [ThreadPool.State.call, State.initial, ThreadPool.State.initial, hc,
            ThreadPool.ClientPc.call?]
  · intro s a t hreach hs _ hst
    have hlife := pool_life hreach
    cases step_move hst with
    | pool hadmits h =>
        refine hs.pool hlife (State.admits_starts hadmits) h fun u hu hout => ?_
        obtain ⟨c, -, -, hpc⟩ := State.admits_mover hadmits h hu hout
        exact Pc.isOut_eq hpc
    | finish hpc hout h =>
        refine hs.pool hlife rfl h fun u hu _ => ?_
        cases hu
        exact hout
    | start op hfree =>
        have houtside := State.free_outside hfree
        exact hs.go rfl rfl (ThreadPool.outside_asks houtside).2 fun _ => houtside
    | own hcall h => exact hs.own hlife hcall h

/-! ## `listLock` -/

theorem OwnStep.enters {s t : State F A} {u : Thread} (h : OwnStep poolSize u s t)
    (hfree : s.listLock = none) (htake : t.listLock = some u) : (t.pc u).inside = true := by
  cases h with
  | lock =>
      rw [State.go_self]
      rfl
  | unlock => cases htake
  | _ => cases hfree.symm.trans htake

theorem listLock_exact {s : State F A} (h : (machine poolSize).Reach s) :
    s.listLock.Exact fun u => (s.pc u).inside := by
  refine h.invariant (P := fun s : State F A => s.listLock.Exact fun u => (s.pc u).inside) ?_ ?_
  · rintro s rfl u
    exact ⟨nofun, nofun⟩
  · intro s a t _ hs _ hst
    cases step_cases hst with
    | pool => exact hs
    | @start u op hfree =>
        refine hs.step (t := u) (.keep rfl ?_) (fun hno htake => ?_) fun v hv => ?_
        · rw [State.go_self, State.free_out hfree, op.entry_inside]
          rfl
        · cases hno.symm.trans htake
        · rw [State.go_other hv]
    | @own u t hcall h =>
        obtain ⟨pc, hpc, hhand⟩ := h.moves
        refine hs.step (t := u) ?_ (fun hfree htake => h.enters hfree htake) fun v hv => ?_
        · rw [hpc, Function.update_self]
          exact hhand
        · rw [hpc, Function.update_of_ne hv]

/-! ## Who waits for whom -/

inductive Request where
  | listLock
  | queueMutex
deriving DecidableEq

def Pc.asks : Pc F A → Bool
  | .lock _ => true
  | _ => false

namespace State

def asks (s : State F A) (t : Thread) : Request → Prop
  | .listLock => (s.pc t).asks = true
  | .queueMutex => s.pool_.asks t

def blocks (s : State F A) (u : Thread) : Request → Prop
  | .listLock => s.listLock = some u
  | .queueMutex => s.pool_.queue_mutex_ = some u

/-- The thread runs code from elsewhere: a client between its calls, or a worker in its
callback. -/
def outside (s : State F A) (t : Thread) : Bool := (s.pc t).isOut && s.pool_.outside t

end State

theorem outside_iff {s : State F A} {u : Thread} :
    s.outside u = true ↔ s.pc u = .out ∧ s.pool_.outside u = true := by
  rw [State.outside, Bool.and_eq_true]
  refine and_congr_left fun _ => ⟨Pc.isOut_eq, fun h => ?_⟩
  rw [h]
  rfl

theorem outside_asks {s : State F A} {t : Thread} (h : s.outside t = true) (r : Request) :
    ¬ s.asks t r := by
  obtain ⟨hpc, hout⟩ := outside_iff.mp h
  cases r with
  | listLock =>
      intro hasks
      simp [State.asks, hpc, Pc.asks] at hasks
  | queueMutex => exact (ThreadPool.outside_asks hout).1

theorem Pc.inside_asks {pc : Pc F A} (h : pc.inside = true) :
    pc.asks = false ∧ pc.enqueues = false ∧ pc.isOut = false := by
  cases pc <;> first | exact ⟨rfl, rfl, rfl⟩ | cases h

/-- The owner of `listLock` or of `queue_mutex_` asks for neither. -/
theorem owner_asks {s : State F A} (h : (machine poolSize).Reach s) {t : Thread} {r' : Request}
    (hblocks : s.blocks t r') : (∀ r, ¬ s.asks t r) ∧ s.outside t = false := by
  have hnested := Nested.of_reach h
  cases r' with
  | listLock =>
      obtain ⟨hasks, henqueues, hpc⟩ := Pc.inside_asks ((listLock_exact h t).mp hblocks)
      have hcall : s.pool_.call t = none := by
        by_contra hcall
        cases henqueues.symm.trans (hnested.calls t hcall)
      have hout := hnested.runs t (fun hno => by rw [hno] at hpc; cases hpc) hcall
      refine ⟨fun r => ?_, by rw [State.outside, hpc, Bool.false_and]⟩
      cases r with
      | listLock => simp [State.asks, hasks]
      | queueMutex => exact (ThreadPool.outside_asks hout).1
  | queueMutex =>
      have hin := (ThreadPool.queue_mutex_exact ((refines_pool poolSize).reach h) t).mp hblocks
      obtain ⟨hasks, hout⟩ := ThreadPool.inside_asks hin
      refine ⟨fun r => ?_, by rw [State.outside, hout, Bool.and_false]⟩
      cases r with
      | queueMutex => exact hasks
      | listLock =>
          intro hlock
          by_cases hcall : s.pool_.call t = none
          · have hpc : s.pc t ≠ .out := by
              intro hno
              simp [State.asks, hno, Pc.asks] at hlock
            cases hout.symm.trans (hnested.runs t hpc hcall)
          · have henqueues := hnested.calls t hcall
            simp only [State.asks] at hlock
            generalize s.pc t = pc at hlock henqueues
            cases pc with
            | enqueueing => cases hlock
            | _ => cases henqueues

/-! ## Threads outside -/

/-- The thread that an action takes out of the code from elsewhere. -/
def Action.enters : Action F A → Option Thread
  | .start u _ => some u
  | .finish i _ => some (.worker i)
  | .pool (.destroy c) => some (.client c)
  | _ => none

theorem stays_outside {s t : State F A} {a : Action F A} (h : (machine poolSize).Reach s)
    (hst : step poolSize s a = some t) {u : Thread} (hu : a.enters ≠ some u)
    (hout : s.outside u = true) : t.outside u = true := by
  have hlife := pool_life h
  obtain ⟨hpc, hout⟩ := outside_iff.mp hout
  refine outside_iff.mpr ?_
  cases step_move hst with
  | @pool a pool hadmits hpool =>
      have hmover : a.mover ≠ some u := by
        intro hmover
        obtain ⟨c, rfl, rfl, -⟩ := State.admits_mover hadmits hpool hmover hout
        exact hu rfl
      exact ⟨hpc, ((ThreadPool.step_cases hpool).outside_other hlife hmover).1.trans hout⟩
  | @finish i outcome task n pool _ _ hpool =>
      refine ⟨hpc, ((ThreadPool.step_cases hpool).outside_other hlife ?_).1.trans hout⟩
      exact hu
  | @start v op hfree =>
      have hv : u ≠ v := fun heq => hu (heq ▸ rfl)
      exact ⟨(State.go_other hv ..).trans hpc, hout⟩
  | @own v t hcall hown =>
      have hv : u ≠ v := by
        rintro rfl
        exact hown.pc_ne_out hpc
      obtain ⟨hpcu, houtu, -⟩ := hown.others hlife hv
      exact ⟨hpcu.trans hpc, houtu.trans hout⟩

/-- A worker of the pool keeps its callback until the callback ends. -/
theorem executing_kept {s t : State F A} {a : Action F A} (h : (machine poolSize).Reach s)
    (hst : step poolSize s a = some t) {i : ℕ} (ha : ∀ outcome, a ≠ .finish i outcome)
    {x : Task F A × ℕ} (hx : (s.pool_.workerPc i).executing = some x) :
    (t.pool_.workerPc i).executing = some x := by
  have hlife := pool_life h
  cases step_move hst with
  | @pool a pool hadmits hpool =>
      refine (ThreadPool.step_cases hpool).executing_kept hlife hx ?_
      rintro wake rfl
      rw [Bool.eq_false_iff]
      intro hout
      obtain ⟨c, hc, -⟩ := State.admits_mover (u := .worker i) hadmits hpool rfl hout
      cases hc
  | @finish j outcome task n pool _ _ hpool =>
      refine (ThreadPool.step_cases hpool).executing_kept hlife hx ?_
      rintro wake heq
      cases heq
      exact absurd rfl (ha outcome)
  | start => exact hx
  | @own u t hcall hown =>
      cases hown with
      | enqueue hpc hfn hpool =>
          refine (ThreadPool.step_cases hpool).executing_kept hlife hx ?_
          rintro wake heq
          cases u <;> cases heq
      | _ => exact hx

/-! ## Callbacks that re-enter -/

/-- Neither of the two mutexes is the thread's. -/
def State.lockless (s : State F A) (t : Thread) : Prop :=
  s.listLock ≠ some t ∧ s.pool_.queue_mutex_ ≠ some t

/-- Code from elsewhere holds no lock of the distributor. -/
theorem outside_lockless {s : State F A} (h : (machine poolSize).Reach s) {t : Thread}
    (hout : s.outside t = true) : s.lockless t := by
  constructor
  · intro hlock
    have hblocks : s.blocks t .listLock := hlock
    cases hout.symm.trans (owner_asks h hblocks).2
  · intro hlock
    have hblocks : s.blocks t .queueMutex := hlock
    cases hout.symm.trans (owner_asks h hblocks).2

/-- A worker that begins a callback is inside no method. -/
theorem begins_outside {s t : State F A} {a : Action F A} (h : (machine poolSize).Reach s)
    (hst : step poolSize s a = some t) {i : ℕ} (hold : (s.pool_.workerPc i).executing = none)
    {x : Task F A × ℕ} (hnew : (t.pool_.workerPc i).executing = some x) :
    t.outside (.worker i) = true := by
  have hmoved : s.pool_.workerPc i ≠ t.pool_.workerPc i := by
    intro hsame
    rw [hsame, hnew] at hold
    cases hold
  have hlife := pool_life h
  have hout : s.pc (.worker i) = .out := by
    -- a method's code runs inside a task
    by_contra hpc
    by_cases hcall : s.pool_.call (.worker i) = none
    · obtain ⟨task, n, hrun⟩ :=
        ThreadPool.WorkerPc.outside_eq.mp ((Nested.of_reach h).runs _ hpc hcall)
      rw [hrun] at hold
      cases hold
    · obtain ⟨pc, hpc⟩ := Option.ne_none_iff_exists'.mp hcall
      obtain ⟨task, n, hrun⟩ := ThreadPool.State.call_worker.mp hpc
      rw [hrun] at hold
      cases hold
  have hbegins : ∀ {a : ThreadPool.Action (Task F A)},
      ThreadPool.Step poolSize s.pool_ a t.pool_ → t.pool_.outside (.worker i) = true := by
    intro a hstep
    have hmover : a.mover = some (.worker i) := by
      by_contra hno
      exact hmoved (hstep.workerPc_other hlife hno).symm
    generalize hpool : t.pool_ = pool at hstep hnew
    cases hstep with
    | worker hi hstep =>
        cases hmover
        cases hstep with
        | begins => simp [ThreadPool.State.outside, ThreadPool.WorkerPc.outside]
        | go hstep | unlock hstep =>
            rw [ThreadPool.State.goWorker_self, hstep.hands.2, hold] at hnew
            cases hnew
        | nested hrun =>
            rw [hrun] at hold
            cases hold
        | lock | block | take | ends =>
            rw [ThreadPool.State.goWorker_self] at hnew
            cases hnew
    | nest hrun =>
        cases hmover
        rw [hrun] at hold
        cases hold
    | client | call | destroy | spurious => cases hmover
  cases step_move hst with
  | pool hadmits hpool => exact outside_iff.mpr ⟨hout, hbegins (ThreadPool.step_cases hpool)⟩
  | finish hpc hout' hpool => exact outside_iff.mpr ⟨hout, hbegins (ThreadPool.step_cases hpool)⟩
  | start => exact absurd rfl hmoved
  | @own u t hcall hown =>
      cases hown with
      | enqueue hpc hfn hpool =>
          have hu : u ≠ .worker i := by
            rintro rfl
            cases hout.symm.trans hpc
          exact outside_iff.mpr ⟨(State.go_other hu.symm ..).trans hout,
            hbegins (ThreadPool.step_cases hpool)⟩
      | _ => exact absurd rfl hmoved

/-- A callback holds none of the distributor's locks when it is entered, nor at its own steps
outside its calls of the distributor, and no threads wait for these locks in a cycle. -/
theorem callbacks_reenter {s : State F A} (h : (machine poolSize).Reach s) :
    (∀ a t i x, step poolSize s a = some t → (s.pool_.workerPc i).executing = none →
      (t.pool_.workerPc i).executing = some x → t.lockless (.worker i)) ∧
    (∀ i task n, s.pool_.workerPc i = .running task n none → s.pc (.worker i) = .out →
      s.lockless (.worker i)) ∧
    Acyclic (WaitsFor s.asks s.blocks) := by
  refine ⟨fun a t i x hst hold hnew => ?_, fun i task n hpc hout => ?_, ?_⟩
  · exact outside_lockless (h.next trivial hst) (begins_outside h hst hold hnew)
  · exact outside_lockless h
      (outside_iff.mpr ⟨hout, ThreadPool.WorkerPc.outside_eq.mpr ⟨_, _, hpc⟩⟩)
  · -- whoever stands in the way asks for nothing, so any levels will do
    exact .of_levels (fun _ => 0) fun t r r' hasks hblocks =>
      absurd hasks ((owner_asks h hblocks).1 r)

/-- A callback runs while a client is inside `callbackCount`. -/
theorem callbacks_reenter_running :
    ∃ s : State ℕ ℕ, (s.pool_.workerPc 0 = .running ⟨1, 0, 7, 9⟩ 0 none ∧
        (s.pc (.worker 0)).isOut = true ∧ s.listLock = some (.client 0)) ∧
      s.lockless (.worker 0) ∧ Acyclic (WaitsFor s.asks s.blocks) := by
  obtain ⟨s, hs, hread⟩ := Machine.ReachBy.of_exec (M := machine 1)
    (G := fun _ _ => True) State.initial
    (runClient 2 ++ runMethod (.client 0) (.addUpdateCallback (some 7)) 4 ++
      runMethod (.client 0) (.distribute 9) 4 ++ runClient 5 ++ [.own (.client 0)] ++
      runWorker 6 ++ runMethod (.client 0) .callbackCount 1)
    (fun s : State ℕ ℕ => s.pool_.workerPc 0 = .running ⟨1, 0, 7, 9⟩ 0 none ∧
      (s.pc (.worker 0)).isOut = true ∧ s.listLock = some (.client 0)) rfl (by decide)
  obtain ⟨-, hlockless, hacyclic⟩ := callbacks_reenter hs
  exact ⟨s, hread, hlockless 0 _ _ hread.1 (Pc.isOut_eq hread.2.1), hacyclic⟩

end MessageDistribute
