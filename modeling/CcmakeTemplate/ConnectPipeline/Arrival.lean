import CcmakeTemplate.ConnectPipeline.Feed
import CcmakeTemplate.Pipeline.Numbered

/-!
# The jobs in the queue of the pipeline

`addJob` pushes a job some steps after its call, and two workers of the observer pool that
have both called it may push in the other order. When a worker calls the factory of a
connection only after the `addJob` of the other one has returned, the jobs of a connection
enter the queue in the order in which the factory made them, whoever else adds jobs.
-/

namespace ConnectPipeline

open Concurrency

variable {F G H σ I O : Type} {p : Program F σ I O}

/-! ## Who pushes -/

structure Tracked (F G H σ I O : Type) where
  base : State F G H σ I O
  /-- The jobs pushed into the queue of the pipeline, each with the connection it is from. -/
  entered : List (Option ℕ × I)

/-- The connection for which the pipeline takes the step. -/
def State.feeder (s : State F G H σ I O) : Pipeline.Action I H → Option ℕ
  | .client c _ => if c % 2 = 0 then none else s.runs (c / 2)
  | _ => none

/-- What a step pushes into the queue. -/
def State.pushes (s : State F G H σ I O) : Action F G I H → List (Option ℕ × I)
  | .pipe a => (s.pipe.pushes a).map (s.feeder a, ·)
  | _ => []

def trackedMachine (p : Program F σ I O) : Machine (Tracked F G H σ I O) (Action F G I H) where
  init := fun s => s = ⟨State.initial p, []⟩
  step := fun s a => (step p s.base a).map fun t => ⟨t, s.entered ++ s.base.pushes a⟩

/-- The jobs of connection `k` that have entered the queue, in order. -/
def Tracked.arrived (s : Tracked F G H σ I O) (k : ℕ) : List I :=
  (s.entered.filter fun e => e.1 = some k).map Prod.snd

/-- The connection whose observer has called its factory and is not back from `addJob`. -/
def State.feeds (s : State F G H σ I O) (i : ℕ) : Option ℕ :=
  match s.observerPc i with
  | .inAddJob => s.runs i
  | pc => pc.serves

/-- A worker calls the factory of a connection only while no other worker is between its
call of that factory and the return of its `addJob`. -/
def SerialToTheEnd (s : Tracked F G H σ I O) : Action F G I H → Prop
  | .observer i => ∀ k ∈ s.base.begins i, ∀ j < TickObservers.poolSize, s.base.feeds j ≠ some k
  | _ => True

instance (s : Tracked F G H σ I O) (a : Action F G I H) : Decidable (SerialToTheEnd s a) :=
  match a with
  | .observer i =>
      inferInstanceAs (Decidable (∀ k ∈ s.base.begins i, ∀ j < TickObservers.poolSize,
        s.base.feeds j ≠ some k))
  | .ticks _ | .connectPipeline _ | .pipe _ => inferInstanceAs (Decidable True)

theorem State.feeds_of_serves {s : State F G H σ I O} {i k : ℕ}
    (h : (s.observerPc i).serves = some k) : s.feeds i = some k := by
  unfold State.feeds
  generalize s.observerPc i = pc at h
  cases pc with
  | inAddJob => cases h
  | _ => exact h

theorem SerialToTheEnd.serial {s : Tracked F G H σ I O} {a : Action F G I H}
    (h : SerialToTheEnd s a) : Serial s.base a := by
  cases a with
  | observer i => exact fun k hk j hj hserves => h k hk j hj (State.feeds_of_serves hserves)
  | _ => trivial

theorem tracked_refines :
    (trackedMachine p : Machine (Tracked F G H σ I O) _).Refines SerialToTheEnd (machine p)
      Serial Tracked.base := by
  refine ⟨?_, ?_⟩
  · rintro s rfl
    rfl
  · intro s a t _ hG hst
    obtain ⟨base, hbase, rfl⟩ := Option.map_eq_some_iff.mp hst
    exact .inr ⟨a, hG.serial, hbase⟩

/-! ## The client of a worker -/

/-- Worker `i` of the pool serves the connection that it runs, and its client is inside the
pipeline during the `addJob` of the observer only. -/
structure InTouch (s : State F G H σ I O) : Prop where
  runs : ∀ i k, (s.observerPc i).serves = some k → s.runs i = some k
  out : ∀ i, s.observerPc i ≠ .inAddJob → s.pipe.clientPc (2 * i + 1) = .out

variable {s t : State F G H σ I O} {i k : ℕ}

/-- A worker runs its observer until the observer ends. -/
theorem runs_ticks (hreach : (machine p).Reach s)
    {a : TickObservers.Action F (Observer G)} {ticks : TickObservers.State F (Observer G)}
    (h : TickObservers.step p.maxLag s.ticks a = some ticks)
    (ha : ∀ outcome, a ≠ .observers (.finish i outcome)) (hruns : s.runs i = some k) :
    State.runs { s with ticks } i = some k := by
  have hkept := fun x => ticks_executing hreach h ha (x := x)
  simp only [State.runs] at hruns ⊢
  generalize s.ticks.tickObservers_.pool_.workerPc i = pc at hkept hruns
  cases pc with
  | running task n call =>
      have hsame := hkept (task, n) rfl
      generalize ticks.tickObservers_.pool_.workerPc i = pc' at hsame
      cases pc' with
      | running task' n' call' =>
          cases hsame
          exact hruns
      | _ => cases hsame
  | _ => cases hruns

theorem runs_inAddJob (hreach : (machine p).Reach s)
    {a : TickObservers.Action F (Observer G)} {ticks : TickObservers.State F (Observer G)}
    (h : TickObservers.step p.maxLag s.ticks a = some ticks)
    (ha : ∀ outcome, a ≠ .observers (.finish i outcome)) (hpc : s.observerPc i = .inAddJob) :
    State.runs { s with ticks } i = s.runs i := by
  cases hruns : s.runs i with
  | none => cases (idle_enter hreach i hruns).symm.trans hpc
  | some k => exact runs_ticks hreach h ha hruns

/-- An observer that ends is back from `addJob`. -/
theorem ends_back (hreach : (machine p).Reach s) {outcome : MessageDistribute.Outcome}
    (hends : s.ends i outcome = true) : s.observerPc i ≠ .inAddJob := by
  intro hpc
  cases hruns : s.runs i with
  | none => cases (idle_enter hreach i hruns).symm.trans hpc
  | some k => simp [State.ends, hruns, hpc] at hends

/-- The pipeline's own steps and those of its even clients leave an odd client that is
outside where it is. -/
theorem clientPc_out {pipe : Pipeline.State I O H} {a : Pipeline.Action I H}
    (hadmits : admitsPipe a = true) (h : Pipeline.Step p.process s.pipe a pipe)
    (hout : s.pipe.clientPc (2 * i + 1) = .out) : pipe.clientPc (2 * i + 1) = .out := by
  cases h with
  | process _ h => rw [h.frame.clientPc, hout]
  | callback _ h =>
      cases h with
      | nested _ h => exact (congrFun h.frame.1 _).trans hout
      | _ => exact hout
  | @client c _ _ _ h =>
      by_cases hc : 2 * i + 1 = c
      · subst hc
        rw [hout] at h
        exact absurd h Pipeline.CallStep.not_out
      · exact (Function.update_of_ne hc ..).trans ((congrFun h.frame.1 _).trans hout)
  | @call c op =>
      have hc : 2 * i + 1 ≠ c := by
        have heven := of_decide_eq_true hadmits
        omega
      exact (Function.update_of_ne hc ..).trans hout
  | destroy => cases hadmits
  | nest | spurious => exact hout

theorem call_enters {pipe : Pipeline.State I O H} {c : ℕ} {op : Pipeline.Op I H}
    (h : Pipeline.step p.process s.pipe (.call c op) = some pipe) :
    s.pipe.clientPc c = .out ∧ pipe = s.pipe.goClient c op.entry := by
  cases Pipeline.step_cases h with
  | call _ hout => exact ⟨hout, rfl⟩

/-- A worker gets on with the observer that it runs. -/
theorem InTouch.go (hs : InTouch s) (hticks : t.ticks = s.ticks) {pc : ObserverPc σ I}
    (hpc : t.observerPc = Function.update s.observerPc i pc)
    (hruns : ∀ k, pc.serves = some k → s.runs i = some k)
    (hclient : ∀ c, c ≠ 2 * i + 1 → t.pipe.clientPc c = s.pipe.clientPc c)
    (hout : pc ≠ .inAddJob → t.pipe.clientPc (2 * i + 1) = .out) : InTouch t := by
  have hsame : ∀ j, t.runs j = s.runs j := fun j => by simp only [State.runs, hticks]
  constructor
  · intro j k hserves
    rw [hsame]
    rw [hpc] at hserves
    by_cases hj : j = i
    · subst hj
      rw [Function.update_self] at hserves
      exact hruns k hserves
    · rw [Function.update_of_ne hj] at hserves
      exact hs.runs j k hserves
  · intro j hj
    rw [hpc] at hj
    by_cases hji : j = i
    · subst hji
      rw [Function.update_self] at hj
      exact hout hj
    · rw [Function.update_of_ne hji] at hj
      rw [hclient _ (by omega)]
      exact hs.out j hj

theorem ObserverStep.inTouch (h : ObserverStep p i s t) (hs : InTouch s) : InTouch t := by
  cases h with
  | begins hruns hpc =>
      refine hs.go rfl rfl ?_ (fun _ _ => rfl) fun _ => hs.out i (by simp [hpc])
      rintro k ⟨⟩
      exact hruns
  | throws hpc => exact hs.go rfl rfl nofun (fun _ _ => rfl) fun _ => hs.out i (by simp [hpc])
  | back hpc hout => exact hs.go rfl rfl nofun (fun _ _ => rfl) fun _ => hout
  | returns hpc =>
      have hruns := hs.runs i _ (by rw [hpc]; rfl)
      refine hs.go rfl rfl ?_ (fun _ _ => rfl) fun _ => hs.out i (by simp [hpc])
      rintro k ⟨⟩
      exact hruns
  | passes hpc h =>
      obtain rfl := (call_enters h).2
      refine hs.go rfl rfl nofun (fun c hc => Function.update_of_ne hc ..) fun hno => absurd rfl hno

theorem inTouch (h : (machine p).Reach s) : InTouch s := by
  refine h.invariant (P := InTouch) ?_ ?_
  · rintro s rfl
    refine ⟨fun i k hserves => (by cases hserves), fun i _ => ?_⟩
    simp [State.initial, Pipeline.State.initial]
  · intro s a t hreach hs _ hst
    cases step_cases hst with
    | ticks hends h =>
        refine ⟨fun i k hserves => ?_, hs.out⟩
        exact runs_ticks hreach h (hends i) (hs.runs i k hserves)
    | connect h =>
        refine ⟨fun i k hserves => ?_, hs.out⟩
        exact runs_ticks hreach h (fun _ heq => (by cases heq)) (hs.runs i k hserves)
    | @finish i outcome ticks hends h =>
        constructor
        · intro j k hserves
          have hij : j ≠ i := by
            rintro rfl
            simp [ObserverPc.serves] at hserves
          simp only [Function.update_of_ne hij] at hserves
          refine runs_ticks hreach h (fun outcome' heq => ?_) (hs.runs j k hserves)
          cases heq
          exact hij rfl
        · intro j hj
          by_cases hij : j = i
          · subst hij
            exact hs.out j (ends_back hreach hends)
          · simp only [Function.update_of_ne hij] at hj
            exact hs.out j hj
    | observer _ h => exact h.inTouch hs
    | pipe hadmits h =>
        refine ⟨hs.runs, fun i hpc => ?_⟩
        exact clientPc_out hadmits (Pipeline.step_cases h) (hs.out i hpc)

/-! ## On the way into the queue -/

/-- The job with which worker `i` has called `addJob` for connection `k`, until it is pushed. -/
def State.carries (s : State F G H σ I O) (k i : ℕ) : Option I :=
  if s.runs i = some k then (s.pipe.clientPc (2 * i + 1)).adding else none

theorem InTouch.feeds_of_carries (hs : InTouch s) {job : I} (h : s.carries k i = some job) :
    s.feeds i = some k := by
  unfold State.carries at h
  split at h
  · rename_i hruns
    have hpc : s.observerPc i = .inAddJob := by
      by_contra hpc
      rw [hs.out i hpc] at h
      cases h
    simp only [State.feeds, hpc, hruns]
  · cases h

theorem InTouch.runs_of_feeds (hs : InTouch s) (h : s.feeds i = some k) : s.runs i = some k := by
  unfold State.feeds at h
  split at h
  · exact h
  · exact hs.runs i k h

structure Arrives (s : Tracked F G H σ I O) (k : ℕ) : Prop where
  alone : ∀ i j, s.base.feeds i = some k → s.base.feeds j = some k → i = j
  waiting : ∀ i job, s.base.carries k i = some job → s.base.passed k = s.arrived k ++ [job]
  done : (∀ i, s.base.carries k i = none) → s.base.passed k = s.arrived k

section

variable {s : Tracked F G H σ I O} {t : State F G H σ I O}

theorem Arrives.of_same (hs : Arrives s k)
    (halone : ∀ i j, t.feeds i = some k → t.feeds j = some k → i = j)
    (hcarries : ∀ i, t.carries k i = s.base.carries k i)
    (hpassed : t.passed k = s.base.passed k) {new : List (Option ℕ × I)}
    (hnew : ∀ e ∈ new, e.1 ≠ some k) : Arrives ⟨t, s.entered ++ new⟩ k := by
  have harrived : Tracked.arrived ⟨t, s.entered ++ new⟩ k = s.arrived k := by
    have hnone : (new.filter fun e => e.1 = some k) = [] :=
      List.filter_eq_nil_iff.mpr fun e he => by simpa using hnew e he
    simp only [Tracked.arrived, List.filter_append, hnone, List.append_nil]
  constructor
  · exact halone
  · intro i job hi
    rw [harrived]
    exact hpassed.trans (hs.waiting i job ((hcarries i).symm.trans hi))
  · intro hnone
    rw [harrived]
    exact hpassed.trans (hs.done fun i => (hcarries i).symm.trans (hnone i))

/-- Nothing of the connection changes but who serves it. -/
theorem Arrives.keep (hs : Arrives s k)
    (hfeeds : ∀ i, t.feeds i = some k → s.base.feeds i = some k)
    (hcarries : ∀ i, t.carries k i = s.base.carries k i)
    (hpassed : t.passed k = s.base.passed k) : Arrives ⟨t, s.entered ++ []⟩ k := by
  refine hs.of_same (fun i j hi hj => ?_) hcarries hpassed fun _ he => absurd he List.not_mem_nil
  exact hs.alone i j (hfeeds i hi) (hfeeds j hj)

/-- A step of the ticks, which runs no code of a connection. -/
theorem Arrives.ticks (hs : Arrives s k) (htouch : InTouch s.base)
    (hpipe : t.pipe = s.base.pipe) (hpassed : t.passed = s.base.passed)
    (hruns : ∀ i, s.base.observerPc i = .inAddJob → t.runs i = s.base.runs i)
    (hpc : ∀ i, t.observerPc i = s.base.observerPc i ∨
      t.observerPc i = .enter ∧ s.base.observerPc i ≠ .inAddJob) :
    Arrives ⟨t, s.entered ++ []⟩ k := by
  refine hs.keep (fun i hfeeds => ?_) (fun i => ?_) (congrFun hpassed k)
  · unfold State.feeds at hfeeds ⊢
    rcases hpc i with hpc | ⟨hpc, -⟩
    · rw [hpc] at hfeeds
      split at hfeeds
      · rename_i hin
        rwa [← hruns i hin]
      · exact hfeeds
    · rw [hpc] at hfeeds
      cases hfeeds
  · unfold State.carries
    rw [hpipe]
    by_cases hin : s.base.observerPc i = .inAddJob
    · rw [hruns i hin]
    · rw [htouch.out i hin]
      exact (ite_self _).trans (ite_self _).symm

/-- A step of the observer on worker `i` lets no other worker feed a connection. -/
theorem feeds_back {s t : State F G H σ I O} {pc : ObserverPc σ I} (hticks : t.ticks = s.ticks)
    (hpc : t.observerPc = Function.update s.observerPc i pc)
    (hi : t.feeds i = some k → s.feeds i = some k) (j : ℕ) (hj : t.feeds j = some k) :
    s.feeds j = some k := by
  by_cases hji : j = i
  · subst hji
    exact hi hj
  · simpa only [State.feeds, State.runs, hticks, hpc, Function.update_of_ne hji] using hj

/-- The worker calls `addJob`. -/
theorem Arrives.passes (hs : Arrives s k) (htouch : InTouch s.base) {k' : ℕ} {job : I}
    (hpc : s.base.observerPc i = .addJob k' job) (hticks : t.ticks = s.base.ticks)
    (hgo : t.observerPc = Function.update s.base.observerPc i .inAddJob)
    (hclient : t.pipe.clientPc =
      Function.update s.base.pipe.clientPc (2 * i + 1) (.addJobLock job))
    (hpassed : t.passed = Function.update s.base.passed k' (s.base.passed k' ++ [job])) :
    Arrives ⟨t, s.entered ++ []⟩ k := by
  have hsame : ∀ j, t.runs j = s.base.runs j := fun j => by simp only [State.runs, hticks]
  have hruns : s.base.runs i = some k' := htouch.runs i k' (by rw [hpc]; rfl)
  have hold : s.base.feeds i = some k' := State.feeds_of_serves (by rw [hpc]; rfl)
  have hnone : s.base.carries k i = none := by
    unfold State.carries
    rw [htouch.out i (by simp [hpc])]
    exact ite_self _
  have hnew : t.carries k i = if k' = k then some job else none := by
    unfold State.carries
    rw [hsame, hruns, hclient, Function.update_self]
    simp only [Option.some.injEq]
    rfl
  have hother : ∀ j, j ≠ i → t.carries k j = s.base.carries k j := by
    intro j hj
    unfold State.carries
    rw [hsame, hclient, Function.update_of_ne (by omega)]
  have hfeeds : ∀ j, t.feeds j = some k → s.base.feeds j = some k := by
    refine feeds_back hticks hgo fun hi => ?_
    simp only [State.feeds, hgo, Function.update_self, hsame, hruns] at hi
    exact hold.trans hi
  by_cases hk : k' = k
  · subst hk
    rw [if_pos rfl] at hnew
    -- no other job of the connection is on its way
    have hnobody : ∀ j, s.base.carries k' j = none := by
      intro j
      cases hj : s.base.carries k' j with
      | none => rfl
      | some job' =>
          have hji := hs.alone j i (htouch.feeds_of_carries hj) hold
          subst hji
          cases hnone.symm.trans hj
    have hdone := hs.done hnobody
    constructor
    · exact fun j j' hj hj' => hs.alone j j' (hfeeds j hj) (hfeeds j' hj')
    · intro j job' hj
      have hji : j = i := by
        by_contra hji
        cases (hnobody j).symm.trans ((hother j hji).symm.trans hj)
      subst hji
      cases hnew.symm.trans hj
      rw [hpassed, Function.update_self, hdone]
      simp [Tracked.arrived]
    · intro hall
      cases hnew.symm.trans (hall i)
  · rw [if_neg hk] at hnew
    refine hs.keep hfeeds (fun j => ?_) ?_
    · by_cases hji : j = i
      · rw [hji, hnew, hnone]
      · exact hother j hji
    · rw [hpassed, Function.update_of_ne (Ne.symm hk)]

theorem Arrives.observer (hs : Arrives s k) (htouch : InTouch s.base)
    (hlt : ∀ i k, s.base.runs i = some k → i < TickObservers.poolSize)
    (hserial : SerialToTheEnd s (.observer i)) (h : ObserverStep p i s.base t) :
    Arrives ⟨t, s.entered ++ []⟩ k := by
  cases h with
  | @begins k' hruns hpc =>
      by_cases hk : k' = k
      · subst hk
        have hfree : ∀ j, s.base.feeds j ≠ some k' := by
          intro j hj
          refine hserial k' ?_ j (hlt j k' (htouch.runs_of_feeds hj)) hj
          simp [State.begins, hpc, hruns]
        refine hs.of_same ?_ ?_ ?_ fun _ he => absurd he List.not_mem_nil
        · have honly : ∀ j, (s.base.goObserver i (.inFactory k' (s.base.memory k'))).feeds j =
              some k' → j = i := by
            intro j hj
            by_contra hji
            simp only [State.feeds, Function.update_of_ne hji] at hj
            exact hfree j hj
          exact fun j j' hj hj' => (honly j hj).trans (honly j' hj').symm
        · exact fun _ => rfl
        · rfl
      · refine hs.keep (feeds_back rfl rfl ?_) ?_ ?_
        · simp [State.feeds, ObserverPc.serves, hk]
        · exact fun _ => rfl
        · rfl
  | throws hpc =>
      refine hs.keep (feeds_back rfl rfl ?_) ?_ ?_
      · simp [State.feeds, ObserverPc.serves]
      · exact fun _ => rfl
      · rfl
  | back hpc hout =>
      refine hs.keep (feeds_back rfl rfl ?_) ?_ ?_
      · simp [State.feeds, ObserverPc.serves]
      · exact fun _ => rfl
      · rfl
  | returns hpc =>
      refine hs.keep (feeds_back rfl rfl ?_) ?_ ?_
      · simp [State.feeds, ObserverPc.serves, hpc]
      · exact fun _ => rfl
      · rfl
  | @passes k' job pipe hpc h =>
      obtain ⟨-, rfl⟩ := call_enters h
      exact hs.passes htouch hpc rfl rfl rfl rfl

/-- A step of the pipeline that is not one of the client of a worker. -/
theorem Arrives.pipe (hs : Arrives s k) {pipe : Pipeline.State I O H}
    {a : Pipeline.Action I H} (hclient : ∀ i, pipe.clientPc (2 * i + 1) =
      s.base.pipe.clientPc (2 * i + 1)) (hfeeder : s.base.feeder a = none) :
    Arrives ⟨{ s.base with pipe }, s.entered ++ s.base.pushes (.pipe a)⟩ k := by
  refine hs.of_same (t := { s.base with pipe }) hs.alone (fun i => ?_) rfl fun e he => ?_
  · unfold State.carries
    rw [hclient]
    rfl
  · obtain ⟨job, -, rfl⟩ := List.mem_map.mp he
    rw [hfeeder]
    nofun

/-- A step of `addJob` on worker `i`. -/
theorem Arrives.addJob (hs : Arrives s k) (htouch : InTouch s.base) {wake : Option Pipeline.Thread}
    {pipe : Pipeline.State I O H} {pc : Pipeline.CallPc I H}
    (h : Pipeline.CallStep (.client (2 * i + 1)) s.base.pipe
      (s.base.pipe.clientPc (2 * i + 1)) pipe pc) :
    Arrives ⟨{ s.base with pipe := pipe.goClient (2 * i + 1) pc },
      s.entered ++ s.base.pushes (.pipe (.client (2 * i + 1) wake))⟩ k := by
  have hfeeder : s.base.feeder (.client (2 * i + 1) wake : Pipeline.Action I H) =
      s.base.runs i := by
    have hodd : ¬ (2 * i + 1) % 2 = 0 := by omega
    have hhalf : (2 * i + 1) / 2 = i := by omega
    simp only [State.feeder, if_neg hodd, hhalf]
  have hpushes : s.base.pushes (.pipe (.client (2 * i + 1) wake) : Action F G I H) =
      (s.base.pipe.clientPc (2 * i + 1)).pushes.map (s.base.runs i, ·) := by
    rw [← hfeeder]
    rfl
  have hother : ∀ j, j ≠ i → State.carries
      { s.base with pipe := pipe.goClient (2 * i + 1) pc } k j = s.base.carries k j := by
    intro j hj
    show (if s.base.runs j = some k then
      (Function.update pipe.clientPc (2 * i + 1) pc (2 * j + 1)).adding else none) = _
    rw [Function.update_of_ne (by omega), h.frame.1]
    rfl
  have hself : State.carries { s.base with pipe := pipe.goClient (2 * i + 1) pc } k i =
      if s.base.runs i = some k then pc.adding else none := by
    show (if s.base.runs i = some k then
      (Function.update pipe.clientPc (2 * i + 1) pc (2 * i + 1)).adding else none) = _
    rw [Function.update_self]
  rw [hpushes]
  rcases h.adding with ⟨-, hnone, hadding⟩ | ⟨job, hpc, -, hadding⟩
  · rw [hnone]
    refine hs.keep (fun _ => id) (fun j => ?_) rfl
    by_cases hji : j = i
    · rw [hji, hself, hadding]
      rfl
    · exact hother j hji
  · rw [hadding, ite_self] at hself
    by_cases hruns : s.base.runs i = some k
    · have hcarried : s.base.carries k i = some job := by
        unfold State.carries
        rw [if_pos hruns, hpc]
        rfl
      have hpassed := hs.waiting i job hcarried
      have hfed := htouch.feeds_of_carries hcarried
      rw [hpc, hruns]
      refine ⟨hs.alone, fun j job' hj => ?_, fun _ => ?_⟩
      · have hji : j ≠ i := by
          rintro rfl
          cases hself.symm.trans hj
        rw [hother j hji] at hj
        exact absurd (hs.alone j i (htouch.feeds_of_carries hj) hfed) hji
      · refine hpassed.trans ?_
        simp [Tracked.arrived, Pipeline.CallPc.pushes]
    · refine hs.of_same (t := { s.base with pipe := pipe.goClient (2 * i + 1) pc }) hs.alone
        (fun j => ?_) rfl fun e he => ?_
      · by_cases hji : j = i
        · rw [hji, hself]
          exact (if_neg hruns).symm
        · exact hother j hji
      · obtain ⟨job', -, rfl⟩ := List.mem_map.mp he
        exact hruns

theorem Arrives.ofPipe (hs : Arrives s k) (htouch : InTouch s.base) {pipe : Pipeline.State I O H}
    {a : Pipeline.Action I H} (hadmits : admitsPipe a = true)
    (h : Pipeline.Step p.process s.base.pipe a pipe) :
    Arrives ⟨{ s.base with pipe }, s.entered ++ s.base.pushes (.pipe a)⟩ k := by
  cases h with
  | process _ h => exact hs.pipe (fun i => by rw [h.frame.clientPc]) rfl
  | callback _ h =>
      refine hs.pipe (fun i => ?_) rfl
      cases h with
      | nested _ h => exact congrFun h.frame.1 _
      | _ => rfl
  | @client c wake t pc h =>
      by_cases hc : c % 2 = 0
      · refine hs.pipe (fun i => ?_) (if_pos hc)
        refine (Function.update_of_ne (by omega) ..).trans (congrFun h.frame.1 _)
      · obtain ⟨i, rfl⟩ : ∃ i, c = 2 * i + 1 := ⟨c / 2, by omega⟩
        exact hs.addJob htouch h
  | @call c op =>
      have heven := of_decide_eq_true hadmits
      exact hs.pipe (fun i => Function.update_of_ne (by omega) ..) rfl
  | destroy => cases hadmits
  | nest | spurious => exact hs.pipe (fun _ => rfl) rfl

end

/-! ## Every run -/

variable {s : Tracked F G H σ I O}

theorem arrives (h : (trackedMachine p).ReachBy SerialToTheEnd s) (k : ℕ) : Arrives s k := by
  refine h.invariant (P := fun s => Arrives s k) ?_ ?_
  · rintro s rfl
    refine ⟨fun i j hi => (by cases hi), fun i job hi => ?_, fun _ => rfl⟩
    unfold State.carries at hi
    split at hi
    · simp [State.initial, Pipeline.State.initial, Pipeline.CallPc.adding] at hi
    · cases hi
  · intro s a t hreach hs hserial hst
    obtain ⟨base, hbase, rfl⟩ := Option.map_eq_some_iff.mp hst
    have hbelow := (tracked_refines.reach hreach).reach
    have htouch := inTouch hbelow
    cases step_cases hbase with
    | ticks hends h =>
        exact hs.ticks htouch rfl rfl (fun i => runs_inAddJob hbelow h (hends i)) fun _ => .inl rfl
    | connect h =>
        refine hs.ticks htouch rfl rfl (fun i => ?_) fun _ => .inl rfl
        exact runs_inAddJob hbelow h fun _ heq => (by cases heq)
    | @finish i outcome ticks hends h =>
        have hleft := ends_back hbelow hends
        refine hs.ticks htouch rfl rfl (fun j hpc => ?_) fun j => ?_
        · refine runs_inAddJob hbelow h (fun outcome' heq => ?_) hpc
          cases heq
          exact hleft hpc
        · by_cases hji : j = i
          · subst hji
            exact .inr ⟨Function.update_self .., hleft⟩
          · exact .inl (Function.update_of_ne hji ..)
    | observer _ h =>
        exact hs.observer htouch (fun i k' => runs_lt hbelow) hserial h
    | pipe hadmits h => exact hs.ofPipe htouch hadmits (Pipeline.step_cases h)

/-- Everything in the queue was pushed in a step that the history records. -/
theorem entered_added (h : (trackedMachine p).ReachBy SerialToTheEnd s) :
    s.entered.map Prod.snd = s.base.pipe.added := by
  refine h.invariant (P := fun s => s.entered.map Prod.snd = s.base.pipe.added) ?_ ?_
  · rintro s rfl
    rfl
  · intro s a t _ hs _ hst
    obtain ⟨base, hbase, rfl⟩ := Option.map_eq_some_iff.mp hst
    have hadds : base.pipe.added = s.base.pipe.added ++ (s.base.pushes a).map Prod.snd := by
      cases step_cases hbase with
      | ticks | finish | connect => exact (List.append_nil _).symm
      | observer _ h =>
          cases h with
          | passes _ h =>
              rw [(call_enters h).2]
              exact (List.append_nil _).symm
          | _ => exact (List.append_nil _).symm
      | pipe _ h =>
          refine (Pipeline.step_cases h).added.trans (congrArg _ ?_)
          simp [State.pushes, Function.comp_def]
    rw [List.map_append, hs, hadds]

/-- What the queue is to look like: the jobs of connection `k` are made and passed in order,
and those that have entered the queue are the ones passed so far, in the same order, all but
one whose `addJob` has yet to push it. -/
structure QueuedInOrder (p : Program F σ I O) (s : Tracked F G H σ I O) (k : ℕ) : Prop where
  fed : InOrder p s.base k
  queue : s.entered.map Prod.snd = s.base.pipe.added
  arrived : ∃ held : Option I, s.base.passed k = s.arrived k ++ held.toList ∧
    ∀ job ∈ held, ∃ i, s.base.carries k i = some job

/-- So it is in every run in which a worker calls the factory of a connection only while no
other worker is between its call of that factory and the return of its `addJob`. -/
theorem queued_in_order (h : (trackedMachine p).ReachBy SerialToTheEnd s) (k : ℕ) :
    QueuedInOrder p s k := by
  have hs := arrives h k
  refine ⟨(Fed.of_reach (tracked_refines.reach h) k).inOrder, entered_added h, ?_⟩
  by_cases hnone : ∀ i, s.base.carries k i = none
  · refine ⟨none, ?_, nofun⟩
    rw [Option.toList_none, List.append_nil]
    exact hs.done hnone
  · obtain ⟨i, hi⟩ := not_forall.mp hnone
    obtain ⟨job, hjob⟩ := Option.ne_none_iff_exists'.mp hi
    refine ⟨some job, hs.waiting i job hjob, ?_⟩
    rintro job' ⟨⟩
    exact ⟨i, hjob⟩

/-- Two ticks whose observers run on different workers, one after the other. -/
theorem queued_in_order_two : ∃ s : Tracked Unit Unit Unit ℕ ℕ ℕ,
    s.base.pipe.added = [1, 2] ∧ QueuedInOrder doublePipe s 0 := by
  obtain ⟨s, hs, hread⟩ := Machine.ReachBy.of_exec (M := trackedMachine doublePipe)
    (G := SerialToTheEnd) ⟨State.initial doublePipe, []⟩
    (runConnected ++ runRound ++ runObserver 0 3 ++ List.replicate 4 (.pipe (.client 1 none)) ++
      [.observer 0] ++ runPeriod ++ runRound ++ runObserver 1 3 ++
      List.replicate 2 (.pipe (.client 3 none)))
    (fun s : Tracked Unit Unit Unit ℕ ℕ ℕ => s.base.pipe.added = [1, 2]) rfl (by decide +kernel)
  exact ⟨s, hread, queued_in_order hs 0⟩

end ConnectPipeline
