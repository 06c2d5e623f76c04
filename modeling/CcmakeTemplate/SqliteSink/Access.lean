import CcmakeTemplate.SqliteSink.Model
import CcmakeTemplate.Concurrency.Machine
import CcmakeTemplate.Concurrency.Sync
import CcmakeTemplate.Concurrency.Threads

/-!
# The threads of the logger on one connection

`log` constructs a `std::unique_lock` on `dblock` with `std::defer_lock`, and nobody locks it
afterwards. The threads of the pool therefore go through `insertLog` side by side.

There is one step for the lock object, the map, each call of `sqlite3` and each return. Time
points are numbers of ticks. An error message belongs to the connection, where the next error
replaces it.
-/

namespace SqliteSink

open Concurrency

/-! ## The machine -/

/-- Program points of `log` and `insertLog`; `out` is outside of them. -/
inductive Pc where
  | out
  | lockObject (msg : LogMsg ℤ)
  | fillMap (msg : LogMsg ℤ)
  | testDb (info : InfoMap)
  | prepare (info : InfoMap)
  | prepareError
  | bind (info : InfoMap) (stmt : Statement) (names : List String)
  | step (stmt : Statement)
  | stepError
  | reset
  | finalize
  | unlockObject

structure State where
  sink : Sink
  errmsg : String
  dblock : Mutex ℕ
  /-- What the `unique_lock` of each thread owns. -/
  owns : ℕ → Bool
  pc : ℕ → Pc

def State.go (s : State) (t : ℕ) (pc : Pc) : State := { s with pc := Function.update s.pc t pc }

variable (format : ℤ → CString) (currentPID : ℤ)

/-- One step of thread `t`. The scheduler chooses what `sqlite3_prepare_v2` and
`sqlite3_step` return. -/
def logStep (t : ℕ) (rc : Except String Unit) (s : State) : Option State :=
  match s.pc t with
  | .out => none
  | .lockObject msg =>
      -- `std::defer_lock`: the constructor does not lock
      some ({ s with owns := Function.update s.owns t false }.go t (.fillMap msg))
  | .fillMap msg =>
      -- a name without a NUL is undefined behaviour, after which there is no step
      (fromPointer msg.logger_name.data).map fun loggerName =>
        s.go t (.testDb (messageInfoMap format currentPID msg loggerName))
  | .testDb info => some (s.go t (if s.sink.db.isSome then .prepare info else .unlockObject))
  | .prepare info =>
      match rc with
      | .error errmsg => some ({ s with errmsg := errmsg }.go t .prepareError)
      | .ok () => some (s.go t (.bind info [] infoName))
  | .prepareError =>
      some ({ s with sink := s.sink.print ("Failed to prepare statement: " ++ s.errmsg) }.go t
        .unlockObject)
  | .bind info stmt (name :: names) => some (s.go t (.bind info (bindInfo info stmt name) names))
  | .bind _ stmt [] => some (s.go t (.step stmt))
  | .step stmt =>
      match rc with
      | .error errmsg => some ({ s with errmsg := errmsg }.go t .stepError)
      | .ok () =>
          some ({ s with sink := { s.sink with
            db := s.sink.db.map fun rows => rows ++ [storedRow stmt] } }.go t .reset)
  | .stepError =>
      some ({ s with sink := s.sink.print ("Failed to insert data: " ++ s.errmsg) }.go t .reset)
  | .reset => some (s.go t .finalize)
  | .finalize => some (s.go t .unlockObject)
  | .unlockObject =>
      some ({ s with dblock := if s.owns t then none else s.dblock }.go t .out)

inductive Action where
  | log (t : ℕ) (msg : LogMsg ℤ)
  | step (t : ℕ) (rc : Except String Unit)

/-- The pool has `n` threads, each of which calls `log` again and again. -/
def step (n : ℕ) (s : State) : Action → Option State
  | .log t msg =>
      match s.pc t with
      | .out => if t < n then some (s.go t (.lockObject msg)) else none
      | _ => none
  | .step t rc => logStep format currentPID t rc s

def machine (n : ℕ) (db : Option (List Row)) : Machine State Action where
  init := fun s => s =
    { sink := ⟨db, []⟩, errmsg := "", dblock := none, owns := fun _ => false, pc := fun _ => .out }
  step := step format currentPID n

/-- The thread is between `sqlite3_prepare_v2` and `sqlite3_finalize`, or about to read the
error of its own call. -/
def Pc.inStatement : Pc → Bool
  | .prepareError | .bind _ _ _ | .step _ | .stepError | .reset | .finalize => true
  | _ => false

def Overlap (s : State) : Prop :=
  ∃ t u, t ≠ u ∧ (s.pc t).inStatement = true ∧ (s.pc u).inStatement = true

/-! ## One step of a thread -/

/-- The thread has found the database open and has not left the statement. -/
def Pc.onDb : Pc → Bool
  | .prepare _ => true
  | pc => pc.inStatement

theorem Pc.onDb_of_inStatement {pc : Pc} (h : pc.inStatement = true) : pc.onDb = true := by
  cases pc <;> first | exact h | rfl

@[simp] theorem State.go_pc (s : State) (t : ℕ) (pc : Pc) :
    (s.go t pc).pc = Function.update s.pc t pc := rfl

/-- What any step inside `log` does. -/
structure Moves (t : ℕ) (s s' : State) : Prop where
  inside : s.pc t ≠ .out
  pc : ∃ pc', s'.pc = Function.update s.pc t pc' ∧
    (s.sink.db = none → (s.pc t).onDb = false → pc'.onDb = false)
  db : s'.sink.db = none ↔ s.sink.db = none
  dblock : s'.dblock = s.dblock ∨ s'.dblock = none

variable {format currentPID} {n : ℕ} {db : Option (List Row)} {t : ℕ} {s s' : State}

/-- From `old` the thread goes on to `pc'`, and nothing that is asked about changes. -/
theorem Moves.go {old pc' : Pc} {s₁ : State} (hpc : s.pc t = old) (hin : old ≠ .out)
    (hoff : s.sink.db = none → old.onDb = false → pc'.onDb = false) (hsame : s₁.pc = s.pc)
    (hdb : s₁.sink.db = none ↔ s.sink.db = none)
    (hlock : s₁.dblock = s.dblock ∨ s₁.dblock = none) : Moves t s (s₁.go t pc') := by
  subst hpc
  exact ⟨hin, ⟨pc', by rw [State.go_pc, hsame], hoff⟩, hdb, hlock⟩

theorem logStep_moves {rc : Except String Unit}
    (h : logStep format currentPID t rc s = some s') : Moves t s s' := by
  unfold logStep at h
  cases hpc : s.pc t with
  | out => simp [hpc] at h
  | testDb info =>
      simp only [hpc, Option.some.injEq] at h
      subst h
      refine .go hpc nofun (fun hdb _ => ?_) rfl .rfl (.inl rfl)
      simp [hdb, Pc.onDb, Pc.inStatement]
  | unlockObject =>
      simp only [hpc, Option.some.injEq] at h
      subst h
      refine .go hpc nofun (fun _ _ => rfl) rfl .rfl ?_
      by_cases howns : s.owns t = true <;> simp [howns]
  | prepare info =>
      cases rc with
      | error errmsg | ok value =>
          simp only [hpc, Option.some.injEq] at h
          subst h
          exact .go hpc nofun nofun rfl .rfl (.inl rfl)
  | bind info stmt names =>
      cases names with
      | nil | cons name names =>
          simp only [hpc, Option.some.injEq] at h
          subst h
          exact .go hpc nofun nofun rfl .rfl (.inl rfl)
  | step stmt =>
      cases rc with
      | error errmsg | ok value =>
          simp only [hpc, Option.some.injEq] at h
          subst h
          exact .go hpc nofun nofun rfl (by simp) (.inl rfl)
  | stepError | reset =>
      simp only [hpc, Option.some.injEq] at h
      subst h
      exact .go hpc nofun nofun rfl .rfl (.inl rfl)
  | fillMap msg =>
      simp only [hpc] at h
      obtain ⟨loggerName, -, rfl⟩ := Option.map_eq_some_iff.mp h
      exact .go hpc nofun (fun _ _ => rfl) rfl .rfl (.inl rfl)
  | lockObject | prepareError | finalize =>
      simp only [hpc, Option.some.injEq] at h
      subst h
      exact .go hpc nofun (fun _ _ => rfl) rfl .rfl (.inl rfl)

theorem step_log {msg : LogMsg ℤ} :
    (machine format currentPID n db).step s (.log t msg) = some s' ↔
      s.pc t = .out ∧ t < n ∧ s' = s.go t (.lockObject msg) := by
  simp only [machine, step]
  split
  · rename_i hout
    simp [hout, eq_comm]
  · rename_i hin
    simp [show s.pc t ≠ .out from hin]

/-- The lock object never takes the mutex. -/
theorem dblock_free (h : (machine format currentPID n db).Reach s) : s.dblock = none := by
  refine h.invariant (P := fun s => s.dblock = none) ?_ ?_
  · rintro s rfl
    rfl
  · intro s a s' _ hfree _ hst
    cases a with
    | log t msg =>
        obtain ⟨_, _, rfl⟩ := step_log.mp hst
        exact hfree
    | step t rc =>
        rcases (logStep_moves hst).dblock with hkeep | hnone
        · exact hkeep.trans hfree
        · exact hnone

/-! ## A thread on its own -/

section Solo

variable {G : State → Action → Prop}

/-- From `s` the thread gets to `pc` while all others stay where they are. -/
def Gets (M : Machine State Action) (G : State → Action → Prop) (t : ℕ) (s : State) (sink : Sink)
    (pc : Pc) : Prop :=
  ∃ s', M.RunBy G s s' ∧ s'.sink = sink ∧ s'.pc = Function.update s.pc t pc

variable {sink sink' : Sink} {pc pc' : Pc}

theorem Gets.next (h : Gets (machine format currentPID n db) G t s sink pc)
    (hgo : ∀ s rc, G s (.step t rc)) (rc : Except String Unit)
    (hstep : ∀ s' : State, s'.sink = sink → s'.pc t = pc → ∃ s'' : State, s''.sink = sink' ∧
      logStep format currentPID t rc s' = some (s''.go t pc') ∧ s''.pc = s'.pc) :
    Gets (machine format currentPID n db) G t s sink' pc' := by
  obtain ⟨s', hrun, hsink, hpc⟩ := h
  obtain ⟨s'', hsink'', hst, hpc''⟩ := hstep s' hsink (by simp [hpc])
  refine ⟨s''.go t pc', hrun.tail ⟨.step t rc, hgo s' rc, hst⟩, hsink'', ?_⟩
  simp [hpc'', hpc]

/-- A call that fails, and the line that is printed about it. -/
theorem Gets.fail (h : Gets (machine format currentPID n db) G t s sink pc)
    (hgo : ∀ s rc, G s (.step t rc)) (label errmsg : String) (pcError : Pc)
    (hcall : ∀ s' : State, s'.pc t = pc → logStep format currentPID t (.error errmsg) s' =
      some ({ s' with errmsg := errmsg }.go t pcError))
    (hprint : ∀ s' : State, s'.pc t = pcError → logStep format currentPID t (.ok ()) s' =
      some ({ s' with sink := s'.sink.print (label ++ s'.errmsg) }.go t pc')) :
    Gets (machine format currentPID n db) G t s (sink.print (label ++ errmsg)) pc' := by
  obtain ⟨s', hrun, hsink, hpc⟩ := h
  have hfailed := hcall s' (by simp [hpc])
  have hprinted := hprint ({ s' with errmsg := errmsg }.go t pcError) (by simp)
  refine ⟨_, (hrun.tail ⟨.step t (.error errmsg), hgo _ _, hfailed⟩).tail
    ⟨.step t (.ok ()), hgo _ _, hprinted⟩, ?_, ?_⟩
  · exact congrArg (fun sink => sink.print (label ++ errmsg)) hsink
  · simp [hpc]

section

variable {msg : LogMsg ℤ} {loggerName : Bytes}
  (hname : fromPointer msg.logger_name.data = some loggerName) (hout : s.pc t = .out) (ht : t < n)
  (hlog : G s (.log t msg)) (hgo : ∀ s rc, G s (.step t rc))

include hname hout ht hlog hgo

/-- A thread that calls `log` gets to its test of the database. -/
theorem gets_testDb :
    Gets (machine format currentPID n db) G t s s.sink
      (.testDb (messageInfoMap format currentPID msg loggerName)) := by
  have hcall : Gets (machine format currentPID n db) G t s s.sink (.lockObject msg) :=
    ⟨_, .single ⟨_, hlog, step_log.mpr ⟨hout, ht, rfl⟩⟩, rfl, rfl⟩
  have hobject : Gets (machine format currentPID n db) G t s s.sink (.fillMap msg) :=
    hcall.next hgo (.ok ()) fun s' hsink hpc =>
      ⟨{ s' with owns := Function.update s'.owns t false }, hsink, by simp only [logStep, hpc],
        rfl⟩
  exact hobject.next hgo (.ok ()) fun s' hsink hpc =>
    ⟨s', hsink, by simp only [logStep, hpc, hname, Option.map_some], rfl⟩

/-- It goes on to `sqlite3_prepare_v2` when the database is open. -/
theorem gets_prepare (hdb : s.sink.db.isSome = true) :
    Gets (machine format currentPID n db) G t s s.sink
      (.prepare (messageInfoMap format currentPID msg loggerName)) :=
  (gets_testDb hname hout ht hlog hgo).next hgo (.ok ()) fun s' hsink hpc =>
    ⟨s', hsink, by simp only [logStep, hpc, hsink, hdb, if_true], rfl⟩

/-- From there it can get between the calls of `sqlite3_prepare_v2` and `sqlite3_finalize`. -/
theorem gets_bind (hdb : s.sink.db.isSome = true) :
    Gets (machine format currentPID n db) G t s s.sink
      (.bind (messageInfoMap format currentPID msg loggerName) [] infoName) :=
  (gets_prepare hname hout ht hlog hgo hdb).next hgo (.ok ()) fun s' hsink hpc =>
    ⟨s', hsink, by simp only [logStep, hpc], rfl⟩

end

theorem Gets.bindInfo {info : InfoMap} (hgo : ∀ s rc, G s (.step t rc)) (names : List String)
    {stmt : Statement}
    (h : Gets (machine format currentPID n db) G t s sink (.bind info stmt names)) :
    Gets (machine format currentPID n db) G t s sink
      (.step (names.foldl (bindInfo info) stmt)) := by
  induction names generalizing stmt with
  | nil =>
      exact h.next hgo (.ok ()) fun s' hsink hpc =>
        ⟨s', hsink, by simp only [logStep, hpc, List.foldl_nil], rfl⟩
  | cons name names ih =>
      have hname : Gets (machine format currentPID n db) G t s sink
          (.bind info (SqliteSink.bindInfo info stmt name) names) :=
        h.next hgo (.ok ()) fun s' hsink hpc => ⟨s', hsink, by simp only [logStep, hpc], rfl⟩
      exact ih hname

theorem Gets.finish (hgo : ∀ s rc, G s (.step t rc))
    (h : Gets (machine format currentPID n db) G t s sink .reset) :
    Gets (machine format currentPID n db) G t s sink .unlockObject := by
  have hfinalize : Gets (machine format currentPID n db) G t s sink .finalize :=
    h.next hgo (.ok ()) fun s' hsink hpc => ⟨s', hsink, by simp only [logStep, hpc], rfl⟩
  exact hfinalize.next hgo (.ok ()) fun s' hsink hpc =>
    ⟨s', hsink, by simp only [logStep, hpc], rfl⟩

/-- A thread that nobody gets in the way of does to the sink what `log` does. -/
theorem gets_log (sqlite : Sqlite) {msg : LogMsg ℤ} {sink : Sink}
    (hdone : log sqlite format currentPID s.sink msg = some sink) (hout : s.pc t = .out)
    (ht : t < n) (hlog : G s (.log t msg)) (hgo : ∀ s rc, G s (.step t rc)) :
    Gets (machine format currentPID n db) G t s sink .out := by
  obtain ⟨loggerName, hname, rfl⟩ := Option.map_eq_some_iff.mp hdone
  have hinsert : Gets (machine format currentPID n db) G t s
      (insertLog sqlite s.sink (messageInfoMap format currentPID msg loggerName))
      .unlockObject := by
    unfold insertLog
    cases hdb : s.sink.db with
    | none =>
        exact (gets_testDb hname hout ht hlog hgo).next hgo (.ok ()) fun s' hsink hpc =>
          ⟨s', hsink, by simp [logStep, hpc, hsink, hdb], rfl⟩
    | some rows =>
        have hopen : s.sink.db.isSome = true := by rw [hdb]; rfl
        cases hprepare : sqlite.prepare with
        | error errmsg =>
            exact (gets_prepare hname hout ht hlog hgo hopen).fail hgo
              "Failed to prepare statement: " errmsg .prepareError
              (fun s' hpc => by simp only [logStep, hpc])
              (fun s' hpc => by simp only [logStep, hpc])
        | ok value =>
            have hbound : Gets (machine format currentPID n db) G t s s.sink
                (.step (infoName.foldl
                  (bindInfo (messageInfoMap format currentPID msg loggerName)) [])) :=
              (gets_bind hname hout ht hlog hgo hopen).bindInfo hgo infoName
            refine Gets.finish hgo ?_
            cases hstep : sqlite.step with
            | error errmsg =>
                exact hbound.fail hgo "Failed to insert data: " errmsg .stepError
                  (fun s' hpc => by simp only [logStep, hpc])
                  (fun s' hpc => by simp only [logStep, hpc])
            | ok value =>
                exact hbound.next hgo (.ok ()) fun s' hsink hpc =>
                  ⟨{ s' with sink := { s'.sink with db := s'.sink.db.map fun rows =>
                      rows ++ [storedRow (infoName.foldl (bindInfo (messageInfoMap format
                        currentPID msg loggerName)) [])] } }, by simp [hsink, hdb],
                    by simp only [logStep, hpc], rfl⟩
  exact hinsert.next hgo (.ok ()) fun s' hsink hpc =>
    ⟨{ s' with dblock := if s'.owns t then none else s'.dblock }, hsink,
      by simp only [logStep, hpc], rfl⟩

end Solo

/-! ## Overlaps -/

/-- A call of `log` starts only while no other thread is in one, unless the database is not
open. -/
def Alone (s : State) : Action → Prop
  | .log _ _ => s.sink.db = none ∨ ∀ t, s.pc t = .out
  | .step _ _ => True

/-- With a database at most one thread is in `log`; without one nobody gets past the test. -/
structure Apart (s : State) : Prop where
  opened : s.sink.db ≠ none → ∀ t u, s.pc t ≠ .out → s.pc u ≠ .out → t = u
  closed : s.sink.db = none → ∀ t, (s.pc t).onDb = false

theorem Apart.not_overlap (h : Apart s) : ¬ Overlap s := by
  rintro ⟨t, u, hne, ht, hu⟩
  by_cases hdb : s.sink.db = none
  · have hoff := h.closed hdb t
    rw [Pc.onDb_of_inStatement ht] at hoff
    cases hoff
  · refine hne (h.opened hdb t u ?_ ?_)
    · intro hout
      simp [hout, Pc.inStatement] at ht
    · intro hout
      simp [hout, Pc.inStatement] at hu

theorem Apart.log (h : Apart s) {msg : LogMsg ℤ}
    (hG : s.sink.db = none ∨ ∀ t, s.pc t = .out) : Apart (s.go t (.lockObject msg)) := by
  constructor
  · intro hdb u v hu hv
    have hout := hG.resolve_left hdb
    -- the caller is the only thread that is not outside
    have hself : ∀ w, (s.go t (.lockObject msg)).pc w ≠ .out → w = t := by
      intro w hw
      by_contra hne
      exact hw (by simp [Function.update_of_ne hne, hout])
    exact (hself u hu).trans (hself v hv).symm
  · intro hdb
    exact forall_update (P := fun _ (pc : Pc) => pc.onDb = false) (h.closed hdb) rfl

theorem Apart.moves (h : Apart s) (hm : Moves t s s') : Apart s' := by
  obtain ⟨pc', hpc, hoff⟩ := hm.pc
  constructor
  · intro hdb u v hu hv
    -- whoever is in `log` has been there before the step
    have hinside : ∀ w, s'.pc w ≠ .out → s.pc w ≠ .out := by
      intro w hw
      by_cases hwt : w = t
      · exact hwt ▸ hm.inside
      · rwa [hpc, Function.update_of_ne hwt] at hw
    exact h.opened (mt hm.db.mpr hdb) u v (hinside u hu) (hinside v hv)
  · intro hdb
    have hold := hm.db.mp hdb
    rw [hpc]
    exact forall_update (P := fun _ (pc : Pc) => pc.onDb = false) (h.closed hold)
      (hoff hold (h.closed hold t))

theorem apart (h : (machine format currentPID n db).ReachBy Alone s) : Apart s := by
  refine h.invariant (P := Apart) ?_ ?_
  · rintro s rfl
    exact ⟨fun _ t _ ht => absurd rfl ht, fun _ _ => rfl⟩
  · intro s a s' _ hapart hG hst
    cases a with
    | log t msg =>
        obtain ⟨_, _, rfl⟩ := step_log.mp hst
        exact hapart.log hG
    | step t rc => exact hapart.moves (logStep_moves hst)

/-- Only threads of the pool call `log`, and no call opens or closes the database. -/
structure Bounded (n : ℕ) (db : Option (List Row)) (s : State) : Prop where
  pool : ∀ t, s.pc t ≠ .out → t < n
  db : s.sink.db = none ↔ db = none

theorem bounded (h : (machine format currentPID n db).Reach s) : Bounded n db s := by
  refine h.invariant (P := Bounded n db) ?_ ?_
  · rintro s rfl
    exact ⟨fun t ht => absurd rfl ht, .rfl⟩
  · intro s a s' _ hb _ hst
    cases a with
    | log t msg =>
        obtain ⟨_, ht, rfl⟩ := step_log.mp hst
        refine ⟨?_, hb.db⟩
        exact forall_update (P := fun u pc => pc ≠ Pc.out → u < n) hb.pool fun _ => ht
    | step t rc =>
        have hm := logStep_moves hst
        obtain ⟨pc', hpc, _⟩ := hm.pc
        refine ⟨?_, hm.db.trans hb.db⟩
        rw [hpc]
        exact forall_update (P := fun u pc => pc ≠ Pc.out → u < n) hb.pool fun _ =>
          hb.pool t hm.inside

/-- A pool of one thread, or a sink without a database, starts no call next to another. -/
theorem reach_alone (hn : n ≤ 1 ∨ db = none) (h : (machine format currentPID n db).Reach s) :
    (machine format currentPID n db).ReachBy Alone s := by
  refine h.invariant (P := (machine format currentPID n db).ReachBy Alone) (fun _ => .start) ?_
  intro s a s' hs ih _ hst
  have hb := bounded hs
  refine ih.next ?_ hst
  cases a with
  | log t msg =>
      obtain ⟨hout, ht, _⟩ := step_log.mp hst
      rcases hn with hn | hdb
      · right
        intro u
        by_contra hu
        -- with one thread this is the caller, and the caller is outside
        obtain rfl : u = t := by have := hb.pool u hu; omega
        exact hu hout
      · exact .inl (hb.db.mpr hdb)
  | step t rc => trivial

/-- Two threads of a larger pool overlap on an open database. -/
theorem overlap_reachable (format : ℤ → CString) (currentPID : ℤ) {rows : List Row} (hn : 1 < n) :
    ∃ s, (machine format currentPID n (some rows)).Reach s ∧ Overlap s := by
  let msg : LogMsg ℤ := ⟨⟨some [0], 0, by decide⟩, .info, 0, 0, ⟨none, 0, none⟩, []⟩
  let s₀ : State := ⟨⟨some rows, []⟩, "", none, fun _ => false, fun _ => .out⟩
  have hfirst : Gets (machine format currentPID n (some rows)) (fun _ _ => True) 0 s₀ s₀.sink
      (.bind (messageInfoMap format currentPID msg []) [] infoName) :=
    gets_bind rfl rfl (by omega) trivial (fun _ _ => trivial) rfl
  obtain ⟨s₁, hrun₁, hsink₁, hpc₁⟩ := hfirst
  -- the second thread finds the database open and nothing in its way
  have hsecond : Gets (machine format currentPID n (some rows)) (fun _ _ => True) 1 s₁ s₁.sink
      (.bind (messageInfoMap format currentPID msg []) [] infoName) :=
    gets_bind rfl (by simp [hpc₁, s₀]) hn trivial (fun _ _ => trivial) (by simp [hsink₁, s₀])
  obtain ⟨s₂, hrun₂, -, hpc₂⟩ := hsecond
  refine ⟨s₂, ⟨s₀, rfl, hrun₁.trans hrun₂⟩, 0, 1, by decide, ?_, ?_⟩
  · simp [hpc₂, hpc₁, Pc.inStatement]
  · simp [hpc₂, Pc.inStatement]

/-- The statements of two calls never overlap in a run in which each call starts alone. That
every run is of this kind, or that none overlaps, holds of pools of one thread and of sinks
without a database only. -/
theorem serialised_iff (format : ℤ → CString) (currentPID : ℤ) (n : ℕ) (db : Option (List Row)) :
    (∀ s, (machine format currentPID n db).ReachBy Alone s → ¬ Overlap s) ∧
      ((∀ s, (machine format currentPID n db).Reach s → ¬ Overlap s) ↔ n ≤ 1 ∨ db = none) := by
  refine ⟨fun s hs => (apart hs).not_overlap, ?_⟩
  constructor
  · intro hsafe
    by_contra hn
    obtain ⟨hmany, hdb⟩ := not_or.mp hn
    obtain ⟨rows, rfl⟩ := Option.ne_none_iff_exists'.mp hdb
    obtain ⟨s, hs, hoverlap⟩ := overlap_reachable format currentPID (not_le.mp hmany)
    exact hsafe s hs hoverlap
  · intro hn s hs
    exact (apart (reach_alone hn hs)).not_overlap

/-- A pool of two threads on an empty table. -/
theorem statements_overlap :
    ¬ ∀ s, (machine (fun _ => ⟨[], by decide⟩) 1 2 (some [])).Reach s → ¬ Overlap s := by
  intro hsafe
  obtain ⟨s, hs, hoverlap⟩ := overlap_reachable _ _ one_lt_two
  exact hsafe s hs hoverlap

end SqliteSink
