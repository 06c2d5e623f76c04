import CcmakeTemplate.PeriodicWork.Halting

/-!
# `start` and `stop` keep their promises

A `stop` joins a thread only after it has set `threadQuit` and stopped the semaphore. As long
as one call at a time handles the pointers and no `start` clears the flag in between, the
thread that is joined was told to end, so each thread is joined and deleted once.
-/

namespace PeriodicWork

open Concurrency Semaphore

variable {F : Type}

/-! ## What `start` and `stop` promise -/

/-- Thread `i` of either job was told to end, and does not sleep unless a `stop` is about to
wake it. -/
structure Dismissed (s : State F) (i : ℕ) : Prop where
  quit : s.threadQuit = true
  stopped : (s.sems i).stopped_ = true
  timer : s.timerBlocked i → ∃ c, s.Notifies c
  worker : ∀ k, ¬ s.workerBlocked i k

structure Tidy (s : State F) : Prop where
  /-- Nobody has dereferenced null, and no thread was joined or deleted a second time. -/
  faultless : Faultless s
  /-- A thread object is still pointed to, or it was joined and deleted. -/
  accounted : ∀ j i, i < s.created j → s.thread_ j = some i ∨
    (∃ c, s.clientPc c = .start (.assign j i)) ∨
    s.object j i = { joined := true, deleted := true }
  /-- A `stop` joins only what was told to end. -/
  joins : ∀ c again j i, s.clientPc c = .stop again (.join j) → s.thread_ j = some i →
    Dismissed s i
  /-- At its end a `stop` leaves no thread behind. -/
  cleared : ∀ c again, s.clientPc c = .stop again .resetSem → ∀ j, s.thread_ j = none
  /-- Whoever is inside a call on a semaphore is so before it is deleted. -/
  sems : ∀ k u, s.callers k u ≠ .out → s.semDeleted k = false
  /-- One timer and one worker run at most. -/
  single : ∀ j i i', i < s.created j → i' < s.created j → s.ended j i = false →
    s.ended j i' = false → i = i'

/-- The step drops the pointer to a thread that still runs. -/
def Overwrites (s t : State F) : Prop :=
  ∃ j i, s.thread_ j = some i ∧ t.thread_ j ≠ some i ∧ s.ended j i = false

theorem CallPc.Stage.fresh {pc : CallPc F} {shape : Shape} {j : Job} (h : pc.Stage shape)
    (hslot : shape.slot j = .fresh) : ∃ i, pc = .start (.assign j i) := by
  cases pc with
  | out | set pc =>
      rcases h with rfl | rfl
      · cases j <;> cases hslot
      · cases j <;> cases hslot
  | stop again pc =>
      rcases h with rfl | ⟨-, rfl⟩
      · cases pc with
        | joinTest j' | joinable j' | join j' | delete j' | null j' =>
            cases j' <;> cases j <;> cases hslot
        | _ => cases j <;> cases hslot
      · cases j <;> cases hslot
  | start pc =>
      obtain rfl : shape = pc.shape := h
      cases pc with
      | assign j' i =>
          cases j' <;> cases j <;> first | exact ⟨i, rfl⟩ | cases hslot
      | create j' => cases j' <;> cases j <;> cases hslot
      | _ => cases j <;> cases hslot
  | fault => exact absurd h id

section

variable {s t : State F} {E : ℕ} {shape : Shape}

theorem Handled.accounted (hs : Handled s E shape) {j : Job} {i : ℕ} (hi : i < s.created j) :
    s.thread_ j = some i ∨ (∃ c, s.clientPc c = .start (.assign j i)) ∨
      s.object j i = { joined := true, deleted := true } := by
  -- the point of the handler, or of nobody
  obtain ⟨pc, harr, hclient⟩ : ∃ pc, s.Arranged pc E shape ∧
      (pc = .out ∨ ∃ c, s.clientPc c = pc) := by
    cases hs with
    | nobody h => exact ⟨_, h, .inl rfl⟩
    | one c hc h => exact ⟨_, h, .inr ⟨c, rfl⟩⟩
  obtain ⟨b, hstaged⟩ := harr
  have hslot : (shape.slot j).Holds E (s.thread_ j) (s.created j) (s.object j) := hstaged.slot j
  by_cases hold : i < E
  · exact .inr (.inr (hstaged.old j i hold))
  · have hcreated : s.created j = E + 1 → i = E := by omega
    cases hkind : shape.slot j with
    | vacant =>
        rw [hkind] at hslot
        obtain ⟨-, hnone⟩ := hslot
        omega
    | fresh =>
        rw [hkind] at hslot
        obtain rfl := hcreated hslot.2.1
        obtain ⟨i', hpc⟩ := hstaged.stage.fresh hkind
        have hnames := hstaged.names
        rw [hpc] at hnames
        obtain rfl : i' = i := hnames
        rcases hclient with hout | ⟨c, hc⟩
        · cases hout.symm.trans hpc
        · exact .inr (.inl ⟨c, hc.trans hpc⟩)
    | live | joined | deleted =>
        rw [hkind] at hslot
        obtain rfl := hcreated hslot.2.1
        exact .inl hslot.1
    | gone =>
        rw [hkind] at hslot
        obtain rfl := hcreated hslot.2.1
        exact .inr (.inr hslot.2.2)

/-- What `start` and `stop` overwrite was joined. -/
theorem Handled.overwritten {maxLag : ℕ} {a : Action F} (hs : Handled s E shape)
    (h : Step maxLag s a t) {j : Job} {i : ℕ} (hold : s.thread_ j = some i)
    (hnew : t.thread_ j ≠ some i) : (s.object j i).joined = true := by
  cases h with
  | timer hi h => exact absurd ((congrArg (·.thread_ j) h.owned.1).trans hold) hnew
  | worker hi h => exact absurd ((congrArg (·.thread_ j) h.owned.1).trans hold) hnew
  | @client c _ _ u pc h =>
      generalize hpc : s.clientPc c = old at h
      have hone : old.handles = true → ∃ b, Staged ({ s with threadQuit := b } : State F).owned old
          E shape := by
        intro hc
        cases hs with
        | nobody harr hvain =>
            rw [← hpc] at hc
            obtain ⟨rfl, -⟩ := hvain c hc
            cases hold.symm.trans (harr.unowned.1 j)
        | one c' hc' harr hsem halone =>
            obtain rfl : c = c' := halone.eq (hpc ▸ hc)
            rwa [hpc] at harr
      have hwritten : ∀ j' x, u.thread_ = Function.update s.thread_ j' x → j = j' := by
        intro j' x htable
        by_contra hne
        refine hnew ?_
        show u.thread_ j = some i
        rw [htable, Function.update_of_ne hne, hold]
      cases h with
      | set h | setReturns h => exact absurd ((congrArg (·.thread_ j) h.owned.1).trans hold) hnew
      | stop h =>
          cases h with
          | null j' =>
              obtain ⟨b, hstaged⟩ := hone (by cases j' <;> rfl)
              obtain rfl : j = j' := hwritten j' _ rfl
              have hslot : (shape.slot j).Holds E (s.thread_ j) (s.created j) (s.object j) :=
                hstaged.slot j
              -- `stop` writes null where it has joined and deleted, or where nothing was
              rcases hstaged.stage with rfl | ⟨-, rfl⟩
              · have hdeleted : Slot.deleted.Holds E (s.thread_ j) (s.created j) (s.object j) := by
                  cases j <;> exact hslot
                obtain ⟨hthread, -, hobj⟩ := hdeleted
                cases hold.symm.trans hthread
                rw [hobj]
              · cases j <;> cases hold.symm.trans hslot.1
          | _ => exact absurd hold hnew
      | start h =>
          cases h with
          | create j' => cases j' <;> exact absurd hold hnew
          | assign j' i' =>
              obtain ⟨b, hstaged⟩ := hone (by cases j' <;> rfl)
              obtain rfl : j = j' := hwritten j' _ rfl
              have hslot : (shape.slot j).Holds E (s.thread_ j) (s.created j) (s.object j) :=
                hstaged.slot j
              obtain rfl : shape = (StartPc.assign j i').shape := hstaged.stage
              cases j <;> cases hold.symm.trans hslot.1
          | _ => exact absurd hold hnew
  | _ => exact absurd hold hnew

theorem Handled.sems (hs : Handled s E shape) (hsettled : Settled s) (hcalls : InCall s)
    (hspent : Spent s) {k : ℕ} {u : Thread} (hu : s.callers k u ≠ .out)
    (hborn : ∀ j i, u = .job j i → i < s.created j) : s.semDeleted k = false := by
  suffices hsem : s.sem_ = some k by
    by_contra hno
    exact (hspent.gone k (Bool.not_eq_false _ ▸ hno)).2 hsem
  have hcall := hcalls.callsSem hu
  generalize s.callers k u = pc at hcall
  cases hcall with
  | timer hpc =>
      have hended : s.ended .timer k = false := by
        rw [Bool.eq_false_iff, Ne, State.ended_timer, hpc]
        nofun
      exact (hs.mover hsettled (hborn .timer k rfl) hended).2.2
  | worker hpc =>
      have hended : s.ended .worker k = false := by
        rw [Bool.eq_false_iff, Ne, State.ended_worker, hpc]
        nofun
      exact (hs.mover hsettled (hborn .worker k rfl) hended).2.2
  | @client c again hpc =>
      exact hs.stopping_sem hpc

theorem Handled.cleared (hs : Handled s E shape) {c : ℕ} {again : Bool}
    (hpc : s.clientPc c = .stop again .resetSem) (j : Job) : s.thread_ j = none := by
  have hhandles : (s.clientPc c).handles = true := by
    rw [hpc]
    rfl
  cases hs with
  | nobody harr hvain =>
      obtain ⟨rfl, -⟩ := hvain c hhandles
      exact harr.unowned.1 j
  | one c' hc' harr hsem halone =>
      obtain rfl : c = c' := halone.eq hhandles
      rw [hpc] at harr
      obtain ⟨b, hstaged⟩ := harr
      have hslot : (shape.slot j).Holds E (s.thread_ j) (s.created j) (s.object j) :=
        hstaged.slot j
      rcases hstaged.stage with rfl | ⟨-, rfl⟩
      · cases j <;> exact hslot.1
      · cases j <;> exact hslot.1

end

/-! ## Nobody is joined in vain -/

/-- A step sets `threadQuit` before a `stop` counts on it, and only `start` clears it. -/
theorem CallStep.quits {maxLag : ℕ} {u : Thread} {s t : State F} {pc pc' : CallPc F}
    (h : CallStep maxLag u s pc t pc') (hpc : pc.quits = true → s.threadQuit = true) :
    (pc'.quits = true → t.threadQuit = true) ∧
      (s.threadQuit = true → pc ≠ .start .quit → t.threadQuit = true) := by
  cases h with
  | set h | setReturns h =>
      exact ⟨nofun, fun hset _ => (congrArg Owned.threadQuit h.owned.1).trans hset⟩
  | @stop again _ _ _ h =>
      cases h with
      | setQuit => exact ⟨fun _ => rfl, fun _ _ => rfl⟩
      | go h =>
          refine ⟨?_, fun hset _ => hset⟩
          cases h with
          | joinAbsent j | @unjoinable j =>
              cases j with
              | timer => exact hpc
              | worker => exact nofun
          | deleteAbsent j => cases j <;> exact nofun
          | _ => exact hpc
      | @join j =>
          refine ⟨?_, fun hset _ => hset⟩
          cases j with
          | timer => exact hpc
          | worker => exact nofun
      | @delete j | null j => exact ⟨by cases j <;> exact nofun, fun hset _ => hset⟩
      | resetNull | deleteSem =>
          refine ⟨fun hno => ?_, fun hset _ => hset⟩
          cases again <;> cases hno
      | fault | lock | reset => exact ⟨nofun, fun hset _ => hset⟩
      | _ => exact ⟨hpc, fun hset _ => hset⟩
  | start h =>
      cases h with
      | quit => exact ⟨nofun, fun _ hno => absurd rfl hno⟩
      | create j => exact ⟨nofun, fun hset _ => by cases j <;> exact hset⟩
      | assign j => exact ⟨by cases j <;> exact nofun, fun hset _ => hset⟩
      | _ => exact ⟨nofun, fun hset _ => hset⟩

section Runs

variable {callback : Option F} {period maxLag : ℕ}

/-- No `start` clears the flag under a `stop` that has still to join. -/
theorem quits_set {s : State F} (h : (machine callback period maxLag).ReachBy HandledAlone s)
    {c : ℕ} (hc : (s.clientPc c).quits = true) : s.threadQuit = true := by
  refine h.invariant (P := fun s => ∀ c, (s.clientPc c).quits = true → s.threadQuit = true)
    ?_ ?_ c hc
  · rintro s rfl c hc
    cases hc
  · intro s a t _ hs hG hst c hc
    have hstep := step_cases hst
    cases hstep with
    | timer hi h | worker hi h =>
        rw [h.owned.2] at hc
        exact (congrArg Owned.threadQuit h.owned.1).trans (hs c hc)
    | @client d _ _ u pc h =>
        obtain ⟨hself, hother⟩ := h.quits (hs d)
        by_cases hcd : c = d
        · subst hcd
          simp only [Function.update_self] at hc
          exact hself hc
        · simp only [Function.update_of_ne hcd, h.clientPc] at hc
          refine hother (hs c hc) fun hstart => ?_
          simp only [HandledAlone, hstart] at hG
          cases hc.symm.trans (hG c hcd)
    | @set d op hpc | @starts d hpc | @stops d hpc =>
        by_cases hcd : c = d
        · subst hcd
          simp only [Function.update_self] at hc
          cases hc
        · simp only [Function.update_of_ne hcd] at hc
          exact hs c hc
    | nest | tick | spurious => exact hs c hc

theorem dismissed {s : State F} (h : (machine callback period maxLag).ReachBy HandledAlone s)
    {c i : ℕ} {again : Bool} {j : Job} (hpc : s.clientPc c = .stop again (.join j))
    (hi : s.thread_ j = some i) : Dismissed s i := by
  obtain ⟨E, shape, hhandled⟩ := Handled.of_reach h
  have hhandles : (s.clientPc c).handles = true := by
    rw [hpc]
    rfl
  obtain ⟨⟨b, hstaged⟩, hsem, -⟩ := hhandled.stopping hpc hhandles rfl
  -- what is joined is the thread of the epoch
  obtain rfl : i = E := by
    have hslot : (shape.slot j).Holds E (s.thread_ j) (s.created j) (s.object j) :=
      hstaged.slot j
    rcases hstaged.stage with rfl | ⟨hno, -⟩
    · have hlive : Slot.live.Holds E (s.thread_ j) (s.created j) (s.object j) := by
        cases j <;> exact hslot
      exact Option.some.inj (hi.symm.trans hlive.1)
    · cases hno
  have hquit : s.threadQuit = true := quits_set h (c := c) (by rw [hpc]; rfl)
  refine ⟨hquit, semStopped h c again (.join j) i hpc rfl hsem, (quitTold h).woken hquit i, ?_⟩
  intro k hblocked
  have hcall := (InCall.of_alone h).worker i
  rw [hblocked.1] at hcall
  obtain ⟨rfl, -, -⟩ := hcall
  exact worker_awake h hpc rfl rfl hsem k hblocked

end Runs

/-- While at most one call at a time handles pointers that are not null, and no `start` clears
`threadQuit` under a `stop`, every thread is joined and deleted once, whoever is joined was told
to end, and nothing is used after it was deleted. -/
theorem handled_alone_tidy {callback : Option F} {period maxLag : ℕ} {s : State F}
    (h : (machine callback period maxLag).ReachBy HandledAlone s) :
    Tidy s ∧ ∀ a t, HandledAlone s a → step maxLag s a = some t → ¬ Overwrites s t := by
  obtain ⟨E, shape, hhandled⟩ := Handled.of_reach h
  have hsettled := Settled.of_alone h
  refine ⟨⟨.of_alone h, fun j i => hhandled.accounted, ?_, fun c again => hhandled.cleared, ?_,
    ?_⟩, ?_⟩
  · exact fun c again j i => dismissed h
  · intro k u hu
    refine hhandled.sems hsettled (.of_alone h) (.of_alone h) hu ?_
    rintro j i rfl
    by_contra hi
    cases j with
    | timer => exact hu (by simp [State.callers, callersOf, (hsettled.unborn i).1 (not_lt.mp hi),
        TimerPc.semPc])
    | worker =>
        have hunborn := ((hsettled.unborn i).2 (not_lt.mp hi)).1
        exact hu (by simp [State.callers, callersOf, hunborn, WorkerPc.semPc])
  · intro j i i' hi hi' hended hended'
    rw [(hhandled.mover hsettled hi hended).2.1, (hhandled.mover hsettled hi' hended').2.1]
  · rintro a t hG hst ⟨j, i, hold, hnew, hended⟩
    have hjoined := hhandled.overwritten (step_cases hst) hold hnew
    rw [hsettled.joined j i hjoined] at hended
    cases hended

/-- An object is started, stopped and started again by one thread. -/
theorem handled_alone_tidy_restart :
    ∃ s : State Unit, (s.created .timer = 2 ∧
        s.object .timer 0 = { joined := true, deleted := true }) ∧ Tidy s := by
  obtain ⟨s, hs, hread⟩ := Machine.ReachBy.of_exec
    (M := machine (none : Option Unit) 1000 1) (G := OneControl) (State.initial none 1000 1)
    (runStart ++ .start 0 :: List.replicate 11 (.client 0 false none) ++ runTimer 7 ++
      runWorker 1 ++ List.replicate 19 (.client 0 false none))
    (fun s : State Unit => s.created .timer = 2 ∧
      s.object .timer 0 = { joined := true, deleted := true }) rfl (by decide)
  exact ⟨s, hread, (handled_alone_tidy (handled_alone_of_control hs)).1⟩

/-- Two threads call `stop`, both find the timer joinable, and the second join hits a
thread that was joined. -/
theorem two_stops_join_twice :
    ¬ ∀ s : State Unit, (machine (none : Option Unit) 1000 1).Reach s → Tidy s := by
  intro hall
  obtain ⟨s, hs, hfault⟩ := Machine.ReachBy.of_exec
    (M := machine (none : Option Unit) 1000 1) (G := fun _ _ => True) (State.initial none 1000 1)
    (runStart ++ [.stop 1, .stop 2] ++ List.replicate 12 (.client 1 false none) ++
      List.replicate 12 (.client 2 false none) ++ runTimer 7 ++
      [.client 1 false none, .client 2 false none, .client 1 false none, .client 2 false none])
    (fun s : State Unit => s.clientPc 2 = .fault) rfl (by decide)
  exact (hall s hs).faultless.client 2 hfault

end PeriodicWork
