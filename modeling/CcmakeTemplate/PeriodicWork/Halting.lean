import CcmakeTemplate.PeriodicWork.PeriodWakeup
import CcmakeTemplate.PeriodicWork.Locks
import CcmakeTemplate.PeriodicWork.Overlap

/-!
# `stop` wakes both threads

Three protocols meet in `stop`. `threadQuit` is set under `workLock` and notified outside
it: a timer that is about to sleep holds the mutex, so it has read the flag or sleeps when
it is notified. `stopped_` is stored outside the mutex of the semaphore and notified
inside it. And a unit is notified only when it is the first one, which is enough for one
acquirer.
-/

namespace PeriodicWork

open Concurrency Semaphore

variable {F : Type}

/-! ## Blocked threads -/

/-- The timer is blocked in `wait_until`. -/
def State.timerBlocked (s : State F) (i : ℕ) : Prop :=
  s.timerPc i = .waiting ∧ .job .timer i ∈ s.workCv

/-- The worker is blocked in semaphore `k`. -/
def State.workerBlocked (s : State F) (i k : ℕ) : Prop :=
  s.workerPc i = .acquire k .waiting ∧ .job .worker i ∈ (s.sems k).cv_

/-- `stop` has issued its `workCv.notify_one` and its `sem_->stop()`. -/
def StopPc.issued : StopPc → Bool
  | .sem _ .out | .joinTest _ | .joinable _ | .join _ | .delete _ | .null _ | .resetSem
  | .deleteSem _ => true
  | _ => false

/-- A `stop` has issued both, and no `start` has cleared `threadQuit` since. -/
def State.stopIssued (s : State F) : Bool :=
  match s.clientPc 0 with
  | .stop _ pc => pc.issued
  | .out | .set _ | .start .quit => s.threadQuit
  | _ => false

/-! ## The timer -/

/-- The timer has read that `threadQuit` is unset and has not slept since. -/
def TimerPc.tested : TimerPc → Bool
  | .testChanged _ | .block => true
  | _ => false

/-- Client `c` has set `threadQuit` in `stop` and has not notified yet. -/
def State.Notifies (s : State F) (c : ℕ) : Prop :=
  ∃ again, s.clientPc c = .stop again .unlock ∨ s.clientPc c = .stop again .notify

structure QuitTold (s : State F) : Prop where
  tested : s.threadQuit = true → ∀ i, (s.timerPc i).tested = false
  woken : s.threadQuit = true → ∀ i, s.timerBlocked i → ∃ c, s.Notifies c

/-- What a step that is not a timer's does to the timers. -/
theorem Step.timers {maxLag : ℕ} {s t : State F} {a : Action F} (h : Step maxLag s a t)
    (hs : Settled s) : (∃ i, i < s.created .timer ∧ TimerStep i s t) ∨
      t.timerPc = s.timerPc ∧ t.workCv.Sublist s.workCv := by
  cases h.periodStep hs with
  | timer hi h => exact .inl ⟨_, hi, h⟩
  | sets _ _ h _ _ _ hcv hkept => exact .inr ⟨hkept.timerPc, hcv ▸ h.workCv⟩
  | enters _ _ _ _ _ hcv hkept => exact .inr ⟨hkept.timerPc, hcv ▸ List.Sublist.refl _⟩
  | other _ _ _ hcv hkept => exact .inr ⟨hkept.timerPc, hcv⟩

/-- With `threadQuit` set the test is never passed. -/
theorem TimerStep.tested {i : ℕ} {s t : State F} (h : TimerStep i s t)
    (hquit : s.threadQuit = true) (ht : (t.timerPc i).tested = true) :
    (s.timerPc i).tested = true := by
  cases h with
  | go h =>
      simp only [Function.update_self] at ht
      generalize s.timerPc i = old at h ⊢
      cases h with
      | quitUnset timedOut hno => cases hquit.symm.trans hno
      | sleep => rfl
      | absent first | ticked first => cases first <;> cases ht
      | _ => cases ht
  | reads | tries | sem | plans | lock | expires | block | wakes | leaves | unlock | clears =>
      simp only [Function.update_self] at ht
      cases ht

theorem QuitTold.timer {s t : State F} {i : ℕ} (hs : QuitTold s) (hsleep : Sleepers s)
    (h : TimerStep i s t) : QuitTold t := by
  have hquit : t.threadQuit = s.threadQuit := congrArg Owned.threadQuit h.owned.1
  refine ⟨fun hset j => ?_, fun hset j hblocked => ?_⟩
  · rw [hquit] at hset
    by_cases hji : j = i
    · subst hji
      rw [← Bool.not_eq_true]
      intro ht
      cases (h.tested hset ht).symm.trans (hs.tested hset j)
    · rw [(h.other hji).1]
      exact hs.tested hset j
  · rw [hquit] at hset
    unfold State.Notifies
    rw [h.owned.2]
    refine hs.woken hset j ?_
    rcases h.asleep hsleep hblocked.1 hblocked.2 with ⟨-, hblock⟩ | hasleep
    · have hno := hs.tested hset j
      rw [hblock] at hno
      cases hno
    · exact hasleep

/-- Steps that set nothing and notify nobody. -/
theorem QuitTold.keep {s t : State F} (hs : QuitTold s)
    (htimers : t.timerPc = s.timerPc ∧ t.workCv.Sublist s.workCv)
    (hquit : t.threadQuit = true → s.threadQuit = true)
    (hclient : ∀ c, s.Notifies c → t.Notifies c) : QuitTold t := by
  obtain ⟨hpc, hcv⟩ := htimers
  refine ⟨fun hset j => ?_, fun hset j hblocked => ?_⟩
  · rw [hpc]
    exact hs.tested (hquit hset) j
  · obtain ⟨c, hold⟩ := hs.woken (hquit hset) j ⟨hpc ▸ hblocked.1, hcv.subset hblocked.2⟩
    exact ⟨c, hclient c hold⟩

/-- The other clients notify as before. -/
theorem State.Notifies.other {s t : State F} {c d : ℕ} {pc : CallPc F}
    (htable : t.clientPc = Function.update s.clientPc d pc) (hne : c ≠ d) (h : s.Notifies c) :
    t.Notifies c := by
  unfold State.Notifies
  rwa [htable, Function.update_of_ne hne]

/-- A step of a client. -/
theorem QuitTold.client {maxLag c : ℕ} {s t : State F} {pc : CallPc F} (hs : QuitTold s)
    (hsleep : Sleepers s)
    (hone : ∀ i j, s.timerPc i = .waiting → s.timerPc j = .waiting → i = j)
    (hexact : s.workLock.Exact s.inside)
    (h : CallStep maxLag (.client c) s (s.clientPc c) t pc)
    (htimers : (t.goClient c pc).timerPc = s.timerPc ∧
      (t.goClient c pc).workCv.Sublist s.workCv) : QuitTold (t.goClient c pc) := by
  have hself : (t.goClient c pc).clientPc c = pc := by simp
  have htable : (t.goClient c pc).clientPc = Function.update s.clientPc c pc := by
    rw [← h.clientPc]
  generalize hold : s.clientPc c = old at h
  -- the points that do not lie between setting the flag and notifying
  have hkeep : (t.threadQuit = true → s.threadQuit = true) →
      (∀ again, old ≠ .stop again .unlock ∧ old ≠ .stop again .notify) →
      QuitTold (t.goClient c pc) := by
    intro hquit hother
    refine hs.keep htimers hquit fun d hd => hd.other htable ?_
    rintro rfl
    obtain ⟨again, hno | hno⟩ := hd
    · exact (hother again).1 (hold.symm.trans hno)
    · exact (hother again).2 (hold.symm.trans hno)
  cases h with
  | set h | setReturns h =>
      exact hkeep (fun hset => (congrArg Owned.threadQuit h.owned.1).symm.trans hset)
        fun _ => ⟨by simp, by simp⟩
  | start h =>
      refine hkeep ?_ fun _ => ⟨by simp, by simp⟩
      cases h with
      | quit =>
          intro hset
          cases hset
      | create j => cases j <;> exact id
      | _ => exact id
  | @stop again _ _ _ h =>
      cases h with
      | setQuit =>
          refine ⟨fun _ j => ?_, fun _ j _ => ⟨c, again, .inl hself⟩⟩
          -- a timer that has passed the test would own `workLock`
          rw [← Bool.not_eq_true]
          intro htested
          have htimer : s.inside (.job .timer j) = true := by
            show (s.timerPc j).inside = true
            have htested' : (s.timerPc j).tested = true := htested
            generalize s.timerPc j = p at htested'
            cases p <;> first | rfl | cases htested'
          have hclient : s.inside (.client c) = true := by
            simp only [State.inside, hold, CallPc.inside]
          cases hexact.unique htimer hclient
      | unlock =>
          exact ⟨fun hset j => hs.tested hset j, fun _ j _ => ⟨c, again, .inr hself⟩⟩
      | notify hcv =>
          exact ⟨fun hset j => hs.tested hset j,
            fun _ j hblocked => absurd hblocked.2 (hsleep.notifyOne hone hcv)⟩
      | go h =>
          refine hkeep id fun again' => ?_
          cases h <;> simp
      | fault h =>
          refine hkeep id fun again' => ?_
          cases h <;> simp
      | _ => exact hkeep id fun _ => ⟨by simp, by simp⟩

theorem QuitTold.step {maxLag : ℕ} {s t : State F} {a : Action F} (hs : QuitTold s)
    (hsettled : Settled s) (hsleep : Sleepers s)
    (hone : ∀ i j, s.timerPc i = .waiting → s.timerPc j = .waiting → i = j)
    (hexact : s.workLock.Exact s.inside) (h : Step maxLag s a t) : QuitTold t := by
  rcases h.timers hsettled with ⟨i, hi, h⟩ | htimers
  · exact hs.timer hsleep h
  · cases h with
    | timer hi h => exact hs.timer hsleep h
    | worker hi h =>
        refine hs.keep htimers ?_ fun d => ?_
        · exact fun hset => (congrArg Owned.threadQuit h.owned.1).symm.trans hset
        · unfold State.Notifies
          rw [h.owned.2]
          exact id
    | client h => exact hs.client hsleep hone hexact h htimers
    | @set c op hpc | @starts c hpc | @stops c hpc =>
        refine hs.keep htimers id fun d hd => hd.other rfl ?_
        rintro rfl
        obtain ⟨again, hold⟩ := hd
        rw [hpc] at hold
        rcases hold with hold | hold <;> cases hold
    | nest | tick | spurious => exact hs.keep htimers id fun _ => id

section Runs

variable {callback : Option F} {period maxLag : ℕ}

theorem quitTold {s : State F} (h : (machine callback period maxLag).ReachBy HandledAlone s) :
    QuitTold s := by
  refine h.invariant (P := QuitTold) ?_ ?_
  · rintro s rfl
    exact ⟨nofun, nofun⟩
  · intro s a t hreach hs _ hst
    obtain ⟨E, shape, hhandled⟩ := Handled.of_reach hreach
    have hsettled := Settled.of_alone hreach
    exact hs.step hsettled (.of_settled (fun _ => Settled.of_alone) hreach)
      (hhandled.waiting_unique hsettled)
      (workLock_exact_of (fun _ => Settled.of_alone) hreach) (step_cases hst)

/-! ## The worker -/

/-- `sem_->stop()` has stored `stopped_`. -/
def StopPc.stored : StopPc → Bool
  | .sem _ .stopLock | .sem _ .stopNotify | .sem _ .stopUnlock | .sem _ .out
  | .joinTest _ | .joinable _ | .join _ | .delete _ | .null _ | .resetSem => true
  | _ => false

/-- Past the store the semaphore of the epoch is stopped. -/
def SemStopped (s : State F) : Prop :=
  ∀ c again pc k, s.clientPc c = .stop again pc → pc.stored = true → s.sem_ = some k →
    (s.sems k).stopped_ = true

/-- A step inside `stop`. -/
theorem StopStep.stored {u : Thread} {s t : State F} {again again' : Bool} {pc pc' : StopPc}
    {k : ℕ} (h : StopStep u s again pc t (.stop again' pc'))
    (hnames : ∀ k' pc'', pc = .sem k' pc'' → s.sem_ = some k')
    (hcall : (CallPc.stop again pc : CallPc F).Calls s.semCnt) (hpc' : pc'.stored = true)
    (hk : t.sem_ = some k) :
    s.sem_ = some k ∧ (pc.stored = true ∨ (t.sems k).stopped_ = true) := by
  generalize hnew : (CallPc.stop again' pc' : CallPc F) = new at h
  cases h with
  | go h =>
      cases hnew
      cases h with
      | absent h => cases h.symm.trans hk
      | present | deref => cases hpc'
      | _ => exact ⟨hk, .inl rfl⟩
  | @sem k' pc pc'' sem h =>
      cases hnew
      have hsem : s.sem_ = some k := hk
      obtain rfl : k' = k := Option.some.inj ((hnames k' pc rfl).symm.trans hsem)
      refine ⟨hsem, ?_⟩
      have hwithin := hcall.2
      cases pc with
      | stopStore => exact .inr (by simpa using h.stores)
      | out | stopLock | stopNotify | stopUnlock => exact .inl rfl
      | _ => cases hwithin
  | reset => cases hk
  | resetNull | deleteSem => cases again <;> cases hnew
  | join | delete | null =>
      cases hnew
      exact ⟨hk, .inl rfl⟩
  | lock | setQuit | unlock | notify =>
      cases hnew
      cases hpc'
  | fault => cases hnew

/-- Only one step of `start` sets `sem_`. -/
theorem CallStep.sem_kept {maxLag k : ℕ} {u : Thread} {s t : State F} {pc pc' : CallPc F}
    (h : CallStep maxLag u s pc t pc') (hpc : pc ≠ .start .sem) (hk : t.sem_ = some k) :
    s.sem_ = some k := by
  cases h with
  | set h | setReturns h => exact (congrArg Owned.sem_ h.owned.1).symm.trans hk
  | stop h =>
      cases h with
      | reset => cases hk
      | _ => exact hk
  | start h =>
      cases h with
      | sem => exact absurd rfl hpc
      | create j => cases j <;> exact hk
      | _ => exact hk

theorem StopPc.stored_handles {again : Bool} {pc : StopPc} (h : pc.stored = true) :
    (CallPc.stop again pc : CallPc F).handles = true := by
  cases pc <;> first | rfl | cases h

theorem semStopped {s : State F} (h : (machine callback period maxLag).ReachBy HandledAlone s) :
    SemStopped s := by
  refine h.invariant (P := SemStopped) ?_ ?_
  · rintro s rfl c again pc k hpc
    cases hpc
  · intro s a t hreach hs hG hst c again pc k hpc hstored hk
    obtain ⟨E, shape, hhandled⟩ := Handled.of_reach hreach
    have hstep := step_cases hst
    -- what was stopped stays stopped
    have hkeep : s.sem_ = some k → (s.sems k).stopped_ = true → (t.sems k).stopped_ = true :=
      fun hk hstop =>
        (hstep.semMove (Settled.of_alone hreach) (hhandled.sem_lt hk)).stopped_kept hstop
    have hold : s.clientPc c = .stop again pc → s.sem_ = some k → (t.sems k).stopped_ = true :=
      fun hpc hk => hkeep hk (hs c again pc k hpc hstored hk)
    cases hstep with
    | timer hi h | worker hi h =>
        exact hold (h.owned.2 ▸ hpc) ((congrArg Owned.sem_ h.owned.1).symm.trans hk)
    | @client d _ _ u pc' h =>
        by_cases hcd : c = d
        · subst hcd
          obtain rfl : pc' = .stop again pc := by simpa using hpc
          have hcalls := (InCall.of_alone hreach).client c
          have hnames : ∀ again' k' pc'', s.clientPc c = .stop again' (.sem k' pc'') →
              s.sem_ = some k' := fun _ _ _ => hhandled.stopping_sem
          generalize hbefore : s.clientPc c = before at h hcalls hnames
          cases h with
          | @stop again' pc₀ _ _ h =>
              obtain ⟨hsem, hpast | hstop⟩ :=
                h.stored (fun k' pc'' heq => hnames again' k' pc'' (heq ▸ rfl)) hcalls hstored hk
              · exact hkeep hsem (hs c again' pc₀ k hbefore hpast hsem)
              · exact hstop
          | start h =>
              generalize hnew : (CallPc.stop again pc : CallPc F) = new at h
              cases h with
              | assign j => cases j <;> cases hnew
              | _ => cases hnew
        · have hbefore : s.clientPc c = .stop again pc := by
            rw [← h.clientPc]
            simpa [hcd] using hpc
          refine hold hbefore (h.sem_kept ?_ hk)
          -- a `start` does not replace the semaphore under another call that handles it
          intro hstart
          simp only [HandledAlone, hstart] at hG
          have hbusy := hG.2 c hcd
          rw [hbefore, StopPc.stored_handles hstored] at hbusy
          cases hbusy
    | @set d op hout | @starts d hout | @stops d hout =>
        by_cases hcd : c = d
        · subst hcd
          simp only [Function.update_self] at hpc
          cases hpc <;> cases hstored
        · simp only [Function.update_of_ne hcd] at hpc
          exact hold hpc hk
    | nest | tick | spurious => exact hold hpc hk

/-! ## Nobody is left asleep -/

theorem issued_quit {s : State F} {E : ℕ} {shape : Shape} (hc : Controlled s E shape)
    (h : s.stopIssued = true) : s.threadQuit = true := by
  have hquit := hc.staged.quit
  unfold State.stopIssued at h
  generalize s.clientPc 0 = pc at h hquit
  cases pc with
  | out | set pc => exact h
  | stop again pc =>
      refine hquit true ?_
      cases pc <;> first | rfl | cases h
  | start pc =>
      cases pc with
      | quit => exact h
      | _ => cases h
  | fault => cases h

theorem timer_not_blocked {s : State F}
    (h : (machine callback period maxLag).ReachBy OneControl s) (hissued : s.stopIssued = true)
    (i : ℕ) : ¬ s.timerBlocked i := by
  intro hblocked
  obtain ⟨E, shape, hc⟩ := Controlled.of_reach h
  obtain ⟨c, again, hpc⟩ :=
    (quitTold (handled_alone_of_control h)).woken (issued_quit hc hissued) i hblocked
  obtain rfl : c = 0 := by
    by_contra hc0
    have hsettles := hc.others c hc0
    rcases hpc with hpc | hpc <;>
    · rw [hpc] at hsettles
      cases hsettles
  rw [State.stopIssued] at hissued
  rcases hpc with hpc | hpc <;>
  · rw [hpc] at hissued
    cases hissued

/-- Whoever has stored `stopped_` and has not notified yet is a client inside `stop`. -/
theorem InCall.stops_client {s : State F} (hcalls : InCall s) {k : ℕ} {u : Thread}
    (hu : (s.callers k u).stops = true) :
    ∃ c again pc, s.clientPc c = .stop again (.sem k pc) ∧ pc.stops = true := by
  obtain ⟨hstop, hout⟩ := SemPc.stops_within hu
  have hcall := hcalls.callsSem hout
  generalize s.callers k u = pc at hu hcall hstop hout
  cases hcall with
  | timer _ hwithin | worker _ hwithin => cases SemPc.within_unique hwithin hstop hout
  | @client c again hpc => exact ⟨c, again, pc, hpc, hu⟩

/-- Once `sem_->stop()` has come back, its notification has woken all sleepers. -/
theorem worker_awake {s : State F}
    (h : (machine callback period maxLag).ReachBy HandledAlone s) {c k : ℕ} {again : Bool}
    {pc : StopPc} (hpc : s.clientPc c = .stop again pc) (hstored : pc.stored = true)
    (hissued : pc.issued = true) (hsem : s.sem_ = some k) (i : ℕ) : ¬ s.workerBlocked i k := by
  rintro ⟨hworker, hmem⟩
  obtain ⟨E, shape, hhandled⟩ := Handled.of_reach h
  have hcalls := InCall.of_alone h
  have hcall := hcalls.worker i
  rw [hworker] at hcall
  obtain ⟨rfl, hk, -⟩ := hcall
  have hstop := semStopped h c again pc k hpc hstored hsem
  have hnobody : ∀ u, (s.callers k u).stops = false := by
    intro u
    rw [← Bool.not_eq_true]
    intro hu
    -- it would be the call that handles the pointers, which is `c`
    obtain ⟨d, again', pc', hclient, hstops⟩ := hcalls.stops_client hu
    have hhandles : (s.clientPc d).handles = true := by
      rw [hclient]
      rfl
    obtain ⟨-, -, halone⟩ := hhandled.stopping hclient hhandles rfl
    obtain rfl : c = d := halone.eq (by rw [hpc]; exact StopPc.stored_handles hstored)
    cases hpc.symm.trans hclient
    cases pc' with
    | out => cases hstops
    | _ => cases hissued
  rw [(served_of (fun _ => Settled.of_alone) (fun _ => InCall.of_alone) h hk).awake_after_stop
    hstop hnobody] at hmem
  cases hmem

theorem worker_not_blocked {s : State F}
    (h : (machine callback period maxLag).ReachBy OneControl s) (hissued : s.stopIssued = true)
    (i k : ℕ) : ¬ s.workerBlocked i k := by
  rintro ⟨hpc, hmem⟩
  obtain ⟨E, shape, hc⟩ := Controlled.of_reach h
  have hrest := Resting.of_reach h
  have hcall := (InCall.of_reach h).worker i
  rw [hpc] at hcall
  obtain ⟨rfl, -, -⟩ := hcall
  have hborn : k < s.created .worker := by
    by_contra hborn
    cases hpc.symm.trans ((hrest.unborn k).2 (not_lt.mp hborn)).1
  have hended : s.ended .worker k = false := by
    rw [Bool.eq_false_iff, Ne, State.ended_worker]
    intro hended
    cases hpc.symm.trans hended
  obtain ⟨-, rfl, hruns, hsem⟩ := hrest.mover hc hborn hended
  have hquit := issued_quit hc hissued
  obtain ⟨again, pc, hclient, -, -⟩ := hc.staged.stopping hruns hquit
  -- with a thread alive after `stop` was issued, client 0 is still inside that `stop`
  have hpast : pc.issued = true := by
    rw [State.stopIssued, hclient] at hissued
    exact hissued
  have hstored : pc.stored = true := by
    cases pc with
    | sem k' pc =>
        cases pc with
        | out => rfl
        | _ => cases hpast
    | deleteSem k' =>
        have hstage := hc.staged.stage
        rw [hclient] at hstage
        rcases hstage with rfl | ⟨hno, -⟩
        · cases hruns
        · cases hno
    | joinTest | joinable | join | delete | null | resetSem => rfl
    | _ => cases hpast
  exact worker_awake (handled_alone_of_control h) hclient hstored hpast hsem k ⟨hpc, hmem⟩

/-- A worker sleeps beside a unit only while the timer that made it the first one has still
to notify. -/
theorem unit_notified {s : State F} (h : (machine callback period maxLag).ReachBy OneControl s)
    {i k : ℕ} (hblocked : s.workerBlocked i k) (hpos : 0 < (s.sems k).count_) :
    ∃ first, s.timerPc i = .release first k .releaseLock ∨
      s.timerPc i = .release first k .releaseNotify := by
  obtain ⟨hpc, hmem⟩ := hblocked
  have hcalls := InCall.of_reach h
  have hcall := hcalls.worker i
  rw [hpc] at hcall
  obtain ⟨rfl, hk, -⟩ := hcall
  obtain ⟨u, hu⟩ := (served h hk).notified hmem hpos
  obtain ⟨hrelease, hout⟩ := SemPc.notifies_within hu
  have hcall := hcalls.callsSem hout
  generalize s.callers k u = pc at hu hcall hrelease hout
  cases hcall with
  | @timer first htimer =>
      refine ⟨first, ?_⟩
      rw [htimer]
      cases pc with
      | releaseLock => exact .inl rfl
      | releaseNotify => exact .inr rfl
      | _ => cases hu
  | worker _ hwithin | client _ hwithin => cases SemPc.within_unique hwithin hrelease hout

end Runs

end PeriodicWork
