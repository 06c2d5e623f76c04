import CcmakeTemplate.PeriodicWork.Callers

/-!
# Changes of the period

`setPeriod` stores the period, sets `periodChanged_` and notifies, all without
`workLock`. The timer reads the period when it computes a deadline and tests the flag
when the wait for that deadline is over. A change that falls in between is either told
by the flag or by a caller that has yet to set it, so the timer never goes on from a
deadline of an older period. It may sleep that deadline out, though: a caller that
notifies while the timer is between its test and its sleep wakes nobody.
-/

namespace PeriodicWork

open Concurrency Semaphore

variable {F : Type}

/-! ## Calls of `setPeriod` -/

def CallPc.setCall : CallPc F → Option (SetPc F)
  | .set pc => some pc
  | _ => none

def WorkerPc.setCall : WorkerPc F → Option (SetPc F)
  | .inTask _ call => call
  | _ => none

/-- The call is one of `setPeriod`. -/
def SetPc.ofPeriod : SetPc F → Bool
  | .periodStore _ | .periodChanged | .periodNotify => true
  | _ => false

namespace State

/-- The call of `setPeriod` or `setCallback` that the thread is in. -/
def setCall (s : State F) : Thread → Option (SetPc F)
  | .client c => (s.clientPc c).setCall
  | .job .worker i => (s.workerPc i).setCall
  | .job .timer _ => none

def SettingPeriod (s : State F) : Prop := ∃ u pc, s.setCall u = some pc ∧ pc.ofPeriod = true

/-- The flag is set, or a caller that has stored a period is about to set it. -/
def Told (s : State F) : Prop :=
  s.periodChanged_ = true ∨ ∃ u, s.setCall u = some .periodChanged

theorem setCall_congr {s t : State F} (hworker : t.workerPc = s.workerPc)
    (hclient : t.clientPc = s.clientPc) : t.setCall = s.setCall := by
  funext u
  rcases u with ⟨⟨⟩, i⟩ | c
  · rfl
  · exact congrArg WorkerPc.setCall (congrFun hworker i)
  · exact congrArg CallPc.setCall (congrFun hclient c)

theorem setCall_goWorker (s : State F) (i : ℕ) (pc : WorkerPc F) :
    (s.goWorker i pc).setCall = Function.update s.setCall (.job .worker i) pc.setCall := by
  funext u
  rcases u with ⟨⟨⟩, j⟩ | c
  · simp [setCall]
  · by_cases hj : j = i
    · subst hj
      simp [setCall]
    · simp [setCall, hj]
  · simp [setCall]

theorem setCall_goClient (s : State F) (c : ℕ) (pc : CallPc F) :
    (s.goClient c pc).setCall = Function.update s.setCall (.client c) pc.setCall := by
  funext u
  rcases u with ⟨⟨⟩, i⟩ | c'
  · simp [setCall]
  · simp [setCall]
  · by_cases hc : c' = c
    · subst hc
      simp [setCall]
    · simp [setCall, hc]

end State

/-- From the computation of a deadline to the test that ends the wait for it. -/
def TimerPc.waits : TimerPc → Bool
  | .lock | .testQuit _ | .testChanged _ | .block | .waiting | .relock _ | .quitTest
  | .leaveQuit | .unlock | .changedTest => true
  | _ => false

/-! ## One step -/

/-- What the steps of other threads leave to the timers. -/
structure TimersKept (s t : State F) : Prop where
  timerPc : t.timerPc = s.timerPc
  planned : t.planned = s.planned
  nextRun : t.nextRun = s.nextRun

/-- The thread that takes the step. -/
def Action.thread : Action F → Option Thread
  | .timer i _ _ _ => some (.job .timer i)
  | .worker i _ _ => some (.job .worker i)
  | .client c _ _ => some (.client c)
  | _ => none

/-- One step, as far as the period is concerned. -/
inductive PeriodStep (s : State F) (a : Action F) (t : State F) : Prop
  | timer {i : ℕ} (hi : i < s.created .timer) (h : TimerStep i s t)
      (hcalls : t.setCall = s.setCall)
  | sets {u : Thread} {pc : SetPc F} {call : Option (SetPc F)} {s' : State F}
      (ha : a.thread = some u) (hcall : s.setCall u = some pc) (h : SetStep u s pc s' call)
      (hcalls : t.setCall = Function.update s.setCall u call) (hperiod : t.periodMs = s'.periodMs)
      (hchanged : t.periodChanged_ = s'.periodChanged_) (hcv : t.workCv = s'.workCv)
      (hkept : TimersKept s t)
  | enters {u : Thread} {op : SetOp F} (ha : (∃ c, a = .set c op) ∨ ∃ i, a = .nest i op)
      (hcall : s.setCall u = none)
      (hcalls : t.setCall = Function.update s.setCall u (some op.entry))
      (hperiod : t.periodMs = s.periodMs) (hchanged : t.periodChanged_ = s.periodChanged_)
      (hcv : t.workCv = s.workCv) (hkept : TimersKept s t)
  | other (hcalls : t.setCall = s.setCall) (hperiod : t.periodMs = s.periodMs)
      (hchanged : t.periodChanged_ = s.periodChanged_ ∨
        t.periodChanged_ = false ∧ ∃ c, s.clientPc c = .start .changed)
      (hcv : t.workCv.Sublist s.workCv) (hkept : TimersKept s t)

theorem WorkerStep.periodStep {i : ℕ} {s t : State F} {a : Action F} (h : WorkerStep i s t)
    (ha : a.thread = some (.job .worker i)) : PeriodStep s a t := by
  have hkeep : ∀ (s' : State F) (pc : WorkerPc F), s'.setCall = s.setCall →
      pc.setCall = (s.workerPc i).setCall → (s'.goWorker i pc).setCall = s.setCall := by
    intro s' pc hcalls hpc
    rw [State.setCall_goWorker, hcalls, hpc]
    exact Function.update_eq_self (Thread.job .worker i) s.setCall
  cases h with
  | go h =>
      refine .other (hkeep _ _ rfl ?_) rfl (.inl rfl) (List.Sublist.refl _) ⟨rfl, rfl, rfl⟩
      generalize s.workerPc i = pc at h
      cases h <;> rfl
  | does h =>
      refine .other (hkeep _ _ rfl ?_) rfl (.inl rfl) (List.Sublist.refl _) ⟨rfl, rfl, rfl⟩
      generalize s.workerPc i = pc at h
      cases h <;> rfl
  | sem hpc | lock hpc | unlock hpc =>
      refine .other (hkeep _ _ rfl ?_) rfl (.inl rfl) (List.Sublist.refl _) ⟨rfl, rfl, rfl⟩
      rw [hpc]
      rfl
  | @nested f pc s' call hpc h =>
      obtain ⟨htimer, hworker, -⟩ := h.frame
      refine .sets ha ?_ h ?_ rfl rfl rfl ⟨htimer, ?_, ?_⟩
      · exact congrArg WorkerPc.setCall hpc
      · rw [State.setCall_goWorker, State.setCall_congr hworker h.owned.2]
        rfl
      · cases h <;> rfl
      · cases h <;> rfl

theorem CallStep.periodStep {maxLag c : ℕ} {s t : State F} {a : Action F} {pc : CallPc F}
    (h : CallStep maxLag (.client c) s (s.clientPc c) t pc) (ha : a.thread = some (.client c))
    (hs : Settled s) : PeriodStep s a (t.goClient c pc) := by
  obtain ⟨htimer, hworker⟩ := h.threads hs
  have hcalls : t.setCall = s.setCall := State.setCall_congr hworker h.clientPc
  have hkeep : pc.setCall = (s.clientPc c).setCall → (t.goClient c pc).setCall = s.setCall := by
    intro hpc
    rw [State.setCall_goClient, hcalls, hpc]
    exact Function.update_eq_self (Thread.client c) s.setCall
  have hold : s.setCall (.client c) = (s.clientPc c).setCall := rfl
  generalize hpc : s.clientPc c = old at h hkeep hold
  cases h with
  | set h =>
      refine .sets ha hold h ?_ rfl rfl rfl ⟨htimer, ?_, ?_⟩
      · rw [State.setCall_goClient, hcalls]
        rfl
      · cases h <;> rfl
      · cases h <;> rfl
  | setReturns h =>
      refine .sets ha hold h ?_ rfl rfl rfl ⟨htimer, ?_, ?_⟩
      · rw [State.setCall_goClient, hcalls]
        rfl
      · cases h <;> rfl
      · cases h <;> rfl
  | @stop again _ _ _ h =>
      have hafter : ∀ again, (afterStop again : CallPc F).setCall = none := by
        intro again
        cases again <;> rfl
      refine .other (hkeep ?_) ?_ (.inl ?_) ?_ ⟨htimer, ?_, ?_⟩
      · cases h with
        | resetNull | deleteSem => exact hafter again
        | _ => rfl
      · cases h <;> rfl
      · cases h <;> rfl
      · cases h with
        | notify hcv =>
            rcases CondVar.notifyOne_eq_some hcv with ⟨hnil, rfl⟩ | ⟨v, -, rfl⟩
            · exact List.nil_sublist _
            · exact List.erase_sublist
        | _ => exact List.Sublist.refl _
      · cases h <;> rfl
      · cases h <;> rfl
  | start h =>
      cases h with
      | changed =>
          exact .other (hkeep rfl) rfl (.inr ⟨rfl, c, hpc⟩) (List.Sublist.refl _) ⟨rfl, rfl, rfl⟩
      | create j =>
          cases j <;>
            exact .other (hkeep rfl) rfl (.inl rfl) (List.Sublist.refl _) ⟨htimer, rfl, rfl⟩
      | assign j i =>
          refine .other (hkeep ?_) rfl (.inl rfl) (List.Sublist.refl _) ⟨rfl, rfl, rfl⟩
          cases j <;> rfl
      | _ => exact .other (hkeep rfl) rfl (.inl rfl) (List.Sublist.refl _) ⟨rfl, rfl, rfl⟩

theorem Step.periodStep {maxLag : ℕ} {s t : State F} {a : Action F} (h : Step maxLag s a t)
    (hs : Settled s) : PeriodStep s a t := by
  cases h with
  | timer hi h =>
      obtain ⟨-, -, hworker, -⟩ := h.moves
      exact .timer hi h (State.setCall_congr hworker h.owned.2)
  | worker hi h => exact h.periodStep rfl
  | client h => exact h.periodStep rfl hs
  | @set c op hpc =>
      refine .enters (u := .client c) (.inl ⟨c, rfl⟩) ?_ ?_ rfl rfl rfl ⟨rfl, rfl, rfl⟩
      · exact congrArg CallPc.setCall hpc
      · rw [State.setCall_goClient]
        rfl
  | @nest i op f hpc hi =>
      refine .enters (u := .job .worker i) (.inr ⟨i, rfl⟩) ?_ ?_ rfl rfl rfl ⟨rfl, rfl, rfl⟩
      · exact congrArg WorkerPc.setCall hpc
      · rw [State.setCall_goWorker]
        rfl
  | @starts c hpc | @stops c hpc =>
      refine .other ?_ rfl (.inl rfl) (List.Sublist.refl _) ⟨rfl, rfl, rfl⟩
      rw [State.setCall_goClient]
      refine (congrArg (Function.update s.setCall (.client c)) ?_).trans
        (Function.update_eq_self (Thread.client c) s.setCall)
      exact (congrArg CallPc.setCall hpc).symm
  | tick time => exact .other rfl rfl (.inl rfl) (List.Sublist.refl _) ⟨rfl, rfl, rfl⟩
  | spurious u => exact .other rfl rfl (.inl rfl) List.erase_sublist ⟨rfl, rfl, rfl⟩

/-! ## Steps of a timer -/

theorem TimerStep.period {i : ℕ} {s t : State F} (h : TimerStep i s t) :
    t.periodMs = s.periodMs ∧ (t.periodChanged_ = s.periodChanged_ ∨
      s.timerPc i = .clearChanged ∧ t.timerPc i = .resetNow) := by
  cases h with
  | clears hpc => exact ⟨rfl, .inr ⟨hpc, Function.update_self ..⟩⟩
  | _ => exact ⟨rfl, .inl rfl⟩

theorem TimerStep.other {i j : ℕ} {s t : State F} (h : TimerStep i s t) (hj : j ≠ i) :
    t.timerPc j = s.timerPc j ∧ t.planned j = s.planned j ∧ t.nextRun j = s.nextRun j := by
  cases h with
  | reads | plans => simp [Function.update_of_ne hj]
  | _ => simp [Function.update_of_ne hj]

/-- A wait begins with a deadline that was just computed. -/
theorem TimerStep.waits {i : ℕ} {s t : State F} (h : TimerStep i s t)
    (hw : (t.timerPc i).waits = true) :
    (s.timerPc i).waits = true ∧ t.planned i = s.planned i ∨
      s.timerPc i = .addPeriod ∧ t.planned i = t.periodMs := by
  have hafter : ∀ first, (afterTick first).waits = false := by
    intro first
    cases first <;> rfl
  cases h with
  | go h =>
      simp only [Function.update_self] at hw
      generalize s.timerPc i = old at h ⊢
      cases h with
      | absent first | ticked first => cases (hafter first).symm.trans hw
      | _ => first | exact .inl ⟨rfl, rfl⟩ | cases hw
  | plans hpc => exact .inr ⟨hpc, Function.update_self ..⟩
  | lock hpc =>
      rcases hpc with ⟨hpc, -⟩ | hpc
      · exact .inl ⟨by rw [hpc]; rfl, rfl⟩
      · exact .inl ⟨by rw [hpc]; rfl, rfl⟩
  | reads | tries | sem | leaves | clears =>
      simp only [Function.update_self] at hw
      cases hw
  | expires hpc | block hpc | wakes hpc | unlock hpc =>
      exact .inl ⟨by rw [hpc]; rfl, rfl⟩

/-! ## Nobody clears the flag during a wait -/

theorem waits_present {callback : Option F} {period maxLag : ℕ} {s : State F}
    (hreach : (machine callback period maxLag).ReachBy OneControl s) {i : ℕ}
    (hw : (s.timerPc i).waits = true) : i < s.created .timer ∧ s.ended .timer i = false := by
  refine ⟨?_, ?_⟩
  · by_contra hi
    rw [((Resting.of_reach hreach).unborn i).1 (not_lt.mp hi)] at hw
    cases hw
  · rw [Bool.eq_false_iff, Ne, State.ended_timer]
    intro hended
    rw [hended] at hw
    cases hw

theorem PeriodStep.clears {callback : Option F} {period maxLag : ℕ} {s t : State F} {a : Action F}
    (h : PeriodStep s a t) (hreach : (machine callback period maxLag).ReachBy OneControl s)
    (hset : s.periodChanged_ = true) (hclear : t.periodChanged_ = false) (i : ℕ) :
    (s.timerPc i).waits = false ∧ (t.timerPc i).waits = false := by
  obtain ⟨E, shape, hc⟩ := Controlled.of_reach hreach
  have hrest := Resting.of_reach hreach
  have hno : t.periodChanged_ ≠ s.periodChanged_ := by
    rw [hset, hclear]
    exact Bool.false_ne_true
  cases h with
  | @timer j hj h =>
      obtain ⟨hpc, hpc'⟩ := h.period.2.resolve_left hno
      by_cases hij : i = j
      · subst hij
        rw [hpc, hpc']
        exact ⟨rfl, rfl⟩
      · rw [(h.other hij).1, and_self, ← Bool.not_eq_true]
        intro hw
        obtain ⟨hi, hended⟩ := waits_present hreach hw
        exact hij ((hrest.mover hc hi hended).2.1.trans (hrest.mover hc hj h.not_ended).2.1.symm)
  | @sets u pc call s' ha hcall h hcalls hperiod hchanged hcv hkept =>
      rw [hchanged] at hno hclear
      cases h with
      | periodChanged => cases hclear
      | _ => exact absurd rfl hno
  | enters ha hcall hcalls hperiod hchanged => exact absurd hchanged hno
  | other hcalls hperiod hchanged hcv hkept =>
      obtain ⟨-, c, hpc⟩ := hchanged.resolve_left hno
      -- `start` clears the flag when no timer is left
      rw [hkept.timerPc, and_self, ← Bool.not_eq_true]
      intro hw
      obtain ⟨hi, hended⟩ := waits_present hreach hw
      obtain rfl : c = 0 := by
        by_contra hne
        have hsettles := hc.others c hne
        rw [hpc] at hsettles
        cases hsettles
      have hstaged := hc.staged
      rw [hpc] at hstaged
      obtain rfl : shape = .idle := hstaged.stage
      rw [hstaged.idle_ended hrest hi] at hended
      cases hended

/-! ## A stale deadline is told -/

theorem State.Told.keep {s t : State F} {a : Action F} (hs : s.Told) (h : PeriodStep s a t) :
    t.Told ∨ s.periodChanged_ = true ∧ t.periodChanged_ = false := by
  rcases hs with hset | ⟨u, hu⟩
  · cases hchanged : t.periodChanged_ with
    | true => exact .inl (.inl hchanged)
    | false => exact .inr ⟨hset, rfl⟩
  · cases h with
    | timer hi h hcalls | other hcalls => exact .inl (.inr ⟨u, by rw [hcalls, hu]⟩)
    | @sets v pc call s' ha hcall h hcalls hperiod hchanged =>
        by_cases huv : u = v
        · subst huv
          cases hu.symm.trans hcall
          cases h with
          | periodChanged => exact .inl (.inl hchanged)
        · exact .inl (.inr ⟨u, by rw [hcalls, Function.update_of_ne huv, hu]⟩)
    | @enters v op ha hcall hcalls =>
        refine .inl (.inr ⟨u, ?_⟩)
        rw [hcalls, Function.update_of_ne, hu]
        rintro rfl
        cases hu.symm.trans hcall

/-- A deadline becomes stale only by a store, and the caller will tell. -/
theorem PeriodStep.stale {s t : State F} {a : Action F} (h : PeriodStep s a t) {i : ℕ}
    (hw : (t.timerPc i).waits = true) (hstale : t.planned i ≠ t.periodMs) :
    ((s.timerPc i).waits = true ∧ s.planned i ≠ s.periodMs) ∨ t.Told := by
  cases h with
  | @timer j hj h =>
      refine .inl ?_
      rw [h.period.1] at hstale
      by_cases hij : i = j
      · subst hij
        rcases h.waits hw with ⟨hwaits, hplanned⟩ | ⟨-, hplanned⟩
        · exact ⟨hwaits, hplanned ▸ hstale⟩
        · exact absurd (hplanned.trans h.period.1) hstale
      · obtain ⟨hpc, hplanned, -⟩ := h.other hij
        exact ⟨hpc ▸ hw, hplanned ▸ hstale⟩
  | @sets u pc call s' ha hcall h hcalls hperiod hchanged hcv hkept =>
      rw [hkept.timerPc] at hw
      rw [hkept.planned, hperiod] at hstale
      cases h with
      | periodStore p => exact .inr (.inr ⟨u, by rw [hcalls, Function.update_self]⟩)
      | _ => exact .inl ⟨hw, hstale⟩
  | enters ha hcall hcalls hperiod hchanged hcv hkept
  | other hcalls hperiod hchanged hcv hkept =>
      rw [hkept.timerPc] at hw
      rw [hkept.planned, hperiod] at hstale
      exact .inl ⟨hw, hstale⟩

theorem stale_told {callback : Option F} {period maxLag : ℕ} {s : State F}
    (h : (machine callback period maxLag).ReachBy OneControl s) {i : ℕ}
    (hw : (s.timerPc i).waits = true) (hstale : s.planned i ≠ s.periodMs) : s.Told := by
  refine h.invariant (P := fun s => ∀ i, (s.timerPc i).waits = true → s.planned i ≠ s.periodMs →
    s.Told) ?_ ?_ i hw hstale
  · rintro s rfl i hw
    cases hw
  · intro s a t hreach hs _ hst i hw hstale
    have hstep := (step_cases hst).periodStep (Resting.of_reach hreach).settled
    rcases hstep.stale hw hstale with ⟨hw', hstale'⟩ | htold
    · rcases (hs i hw' hstale').keep hstep with htold | ⟨hset, hclear⟩
      · exact htold
      · cases (hstep.clears hreach hset hclear i).2.symm.trans hw
    · exact htold

/-! ## No update is lost -/

/-- Client 0 is the control thread, and nobody makes a further call of `setPeriod`. -/
def NoSetPeriod (s : State F) (a : Action F) : Prop :=
  OneControl s a ∧ match a with
    | .set _ (.setPeriod _) | .nest _ (.setPeriod _) => False
    | _ => True

/-- Timer `i` computes no deadline. -/
def Unplanned (i : ℕ) (s : State F) (a : Action F) : Prop :=
  OneControl s a ∧ s.timerPc i ≠ .addPeriod

def Waiting (i : ℕ) (s : State F) (a : Action F) : Prop :=
  OneControl s a ∧ (s.timerPc i).waits = true

/-- A call stores a period. -/
def Stores (s t : State F) : Prop :=
  ∃ u p, s.setCall u = some (.periodStore p) ∧ t.setCall u = some .periodChanged

/-- The next deadline of timer `i` does not build on the one it waited for at `t`. -/
def Renews (M : Machine (State F) (Action F)) (i : ℕ) (t : State F) : Prop :=
  ∀ u, M.RunBy (Unplanned i) t u → u.timerPc i = .addPeriod →
    ∃ v, M.RunBy OneControl t v ∧ v.timerPc i = .resetNow ∧ M.RunBy OneControl v u ∧
      u.nextRun i = v.clock

section Updates

variable {callback : Option F} {period maxLag : ℕ}

theorem settled_keeps {s t : State F} {a : Action F} (h : PeriodStep s a t)
    (hs : ¬ s.SettingPeriod) (hG : NoSetPeriod s a) :
    t.periodMs = s.periodMs ∧ ¬ t.SettingPeriod := by
  have hkeep : t.setCall = s.setCall → ¬ t.SettingPeriod := by
    intro hcalls
    rw [State.SettingPeriod, hcalls]
    exact hs
  cases h with
  | timer hi h hcalls => exact ⟨h.period.1, hkeep hcalls⟩
  | other hcalls hperiod => exact ⟨hperiod, hkeep hcalls⟩
  | @sets u pc call s' ha hcall h hcalls hperiod =>
      -- no call is inside `setPeriod`, so the step is one of `setCallback`
      have hother : pc.ofPeriod = false := by
        rw [← Bool.not_eq_true]
        exact fun hpc => hs ⟨u, pc, hcall, hpc⟩
      refine ⟨hperiod.trans ?_, ?_⟩
      · cases h with
        | periodStore => cases hother
        | _ => rfl
      · rintro ⟨v, pc', hv, hpc'⟩
        rw [hcalls] at hv
        by_cases huv : v = u
        · subst huv
          rw [Function.update_self] at hv
          subst hv
          cases h with
          | lock | assign => cases hpc'
          | periodStore | periodChanged => cases hother
        · rw [Function.update_of_ne huv] at hv
          exact hs ⟨v, pc', hv, hpc'⟩
  | @enters u op ha hcall hcalls hperiod =>
      refine ⟨hperiod, ?_⟩
      rintro ⟨v, pc', hv, hpc'⟩
      rw [hcalls] at hv
      by_cases huv : v = u
      · subst huv
        rw [Function.update_self] at hv
        cases hv
        cases op with
        | setCallback f => cases hpc'
        | setPeriod p =>
            rcases ha with ⟨c, rfl⟩ | ⟨i, rfl⟩
            · exact hG.2
            · exact hG.2
      · rw [Function.update_of_ne huv] at hv
        exact hs ⟨v, pc', hv, hpc'⟩

theorem settled_run {s t : State F} (hreach : (machine callback period maxLag).ReachBy OneControl s)
    (hs : ¬ s.SettingPeriod) (hrun : (machine callback period maxLag).RunBy NoSetPeriod s t) :
    t.periodMs = s.periodMs ∧ ¬ t.SettingPeriod := by
  refine (hrun.invariant (P := fun t => (machine callback period maxLag).ReachBy OneControl t ∧
    t.periodMs = s.periodMs ∧ ¬ t.SettingPeriod) ⟨hreach, rfl, hs⟩ ?_).2
  rintro t a u ⟨ht, hperiod, hsettled⟩ hG hst
  have hstep := (step_cases hst).periodStep (Resting.of_reach ht).settled
  obtain ⟨hperiod', hsettled'⟩ := settled_keeps hstep hsettled hG
  exact ⟨ht.next hG.1 hst, hperiod'.trans hperiod, hsettled'⟩

/-- A timer that computes no deadline begins no wait. -/
theorem unplanned_run {t u : State F} {i : ℕ}
    (hreach : (machine callback period maxLag).ReachBy OneControl t)
    (ht : (t.timerPc i).waits = false)
    (hrun : (machine callback period maxLag).RunBy (Unplanned i) t u) :
    (u.timerPc i).waits = false := by
  refine (hrun.invariant (P := fun u => (machine callback period maxLag).ReachBy OneControl u ∧
    (u.timerPc i).waits = false) ⟨hreach, ht⟩ ?_).2
  rintro u a v ⟨hu, hno⟩ hG hst
  refine ⟨hu.next hG.1 hst, ?_⟩
  rw [← Bool.not_eq_true] at hno ⊢
  intro hw
  cases (step_cases hst).periodStep (Resting.of_reach hu).settled with
  | @timer j hj h =>
      by_cases hij : i = j
      · subst hij
        rcases h.waits hw with ⟨hwaits, -⟩ | ⟨hplan, -⟩
        · exact hno hwaits
        · exact hG.2 hplan
      · exact hno ((h.other hij).1 ▸ hw)
  | sets _ _ _ _ _ _ _ hkept | enters _ _ _ _ _ _ hkept | other _ _ _ _ hkept =>
      exact hno (hkept.timerPc ▸ hw)

/-- What was told stays told until the wait is over. -/
theorem told_run {t u : State F} {i : ℕ}
    (hreach : (machine callback period maxLag).ReachBy OneControl t) (ht : t.Told)
    (hrun : (machine callback period maxLag).RunBy (Waiting i) t u) : u.Told := by
  refine (hrun.invariant (P := fun u => (machine callback period maxLag).ReachBy OneControl u ∧
    u.Told) ⟨hreach, ht⟩ ?_).2
  rintro u a v ⟨hu, htold⟩ hG hst
  refine ⟨hu.next hG.1 hst, ?_⟩
  have hstep := (step_cases hst).periodStep (Resting.of_reach hu).settled
  rcases htold.keep hstep with htold | ⟨hset, hclear⟩
  · exact htold
  · cases (hstep.clears hu hset hclear i).1.symm.trans hG.2

/-! ## The schedule restarts -/

/-- Where timer `i` is after a wait whose end finds the flag set. -/
inductive Renewing (M : Machine (State F) (Action F)) (i : ℕ) (t u : State F) : Prop
  | waits (hw : (u.timerPc i).waits = true) (hset : u.periodChanged_ = true)
  | resets (hpc : u.timerPc i = .clearChanged ∨ u.timerPc i = .resetNow)
  | renewed {v : State F} (hpc : u.timerPc i = .loop ∨ u.timerPc i = .addPeriod)
      (hv : M.RunBy OneControl t v) (hvpc : v.timerPc i = .resetNow)
      (hvu : M.RunBy OneControl v u) (hnext : u.nextRun i = v.clock)
  | ended (hpc : u.timerPc i = .ended)

/-- The test after the wait finds the flag set, unless the timer leaves. -/
theorem TimerStep.heeds {i : ℕ} {s t : State F} (h : TimerStep i s t)
    (hw : (s.timerPc i).waits = true) (hset : s.periodChanged_ = true) :
    (t.timerPc i).waits = true ∧ t.periodChanged_ = true ∨ t.timerPc i = .clearChanged ∨
      t.timerPc i = .ended := by
  cases h with
  | go h =>
      simp only [Function.update_self]
      generalize s.timerPc i = old at h hw
      cases h with
      | changed => exact .inr (.inl rfl)
      | unchanged h => cases hset.symm.trans h
      | _ => first | exact .inl ⟨rfl, hset⟩ | cases hw
  | lock | expires | block | wakes | unlock =>
      simp only [Function.update_self]
      exact .inl ⟨rfl, hset⟩
  | leaves => exact .inr (.inr (Function.update_self ..))
  | reads hpc =>
      rcases hpc with hpc | hpc <;>
      · rw [hpc] at hw
        cases hw
  | tries hpc | sem hpc | plans hpc | clears hpc =>
      rw [hpc] at hw
      cases hw

theorem Renewing.timer {t u w : State F} {i : ℕ}
    (hu : Renewing (machine callback period maxLag) i t u)
    (hrun : (machine callback period maxLag).RunBy OneControl t u)
    (hstep : (machine callback period maxLag).RunBy OneControl u w)
    (hplan : u.timerPc i ≠ .addPeriod) (h : TimerStep i u w) :
    Renewing (machine callback period maxLag) i t w := by
  -- from the wait with the flag up the way leads to the reset, and from there to the loop
  cases hu with
  | waits hw hset =>
      rcases h.heeds hw hset with ⟨hw', hset'⟩ | hpc | hpc
      · exact .waits hw' hset'
      · exact .resets (.inl hpc)
      · exact .ended hpc
  | resets hpc =>
      cases h with
      | clears => exact .resets (.inr (Function.update_self ..))
      | reads hpc' =>
          have hreset : u.timerPc i = .resetNow := by
            rcases hpc' with hpc' | hpc'
            · rcases hpc with hpc | hpc <;> cases hpc.symm.trans hpc'
            · exact hpc'
          exact .renewed (.inl (Function.update_self ..)) hrun hreset hstep
            (Function.update_self ..)
      | go h =>
          rcases hpc with hpc | hpc <;>
          · rw [hpc] at h
            cases h
      | lock hpc' =>
          rcases hpc' with ⟨hpc', -⟩ | hpc' <;>
          · rw [hpc'] at hpc
            simp at hpc
      | tries hpc' | sem hpc' | plans hpc' | expires hpc' | block hpc' | wakes hpc'
      | leaves hpc' | unlock hpc' =>
          rw [hpc'] at hpc
          simp at hpc
  | @renewed v hpc hv hvpc hvu hnext =>
      have hloop : u.timerPc i = .loop := hpc.resolve_right hplan
      cases h with
      | go h =>
          rw [hloop] at h
          cases h with
          | stops => exact .ended (Function.update_self ..)
          | goesOn =>
              exact .renewed (.inr (Function.update_self ..)) hv hvpc (hvu.trans hstep) hnext
      | reads hpc' => rcases hpc' with hpc' | hpc' <;> cases hloop.symm.trans hpc'
      | lock hpc' => rcases hpc' with ⟨hpc', -⟩ | hpc' <;> cases hloop.symm.trans hpc'
      | tries hpc' | sem hpc' | plans hpc' | expires hpc' | block hpc' | wakes hpc'
      | leaves hpc' | unlock hpc' | clears hpc' => cases hloop.symm.trans hpc'
  | ended hpc => exact absurd (State.ended_timer.mpr hpc) (by rw [h.not_ended]; simp)

/-- Another thread takes a step. -/
theorem Renewing.other {t u w : State F} {i : ℕ}
    (hu : Renewing (machine callback period maxLag) i t u)
    (hstep : (machine callback period maxLag).RunBy OneControl u w)
    (hpc : w.timerPc i = u.timerPc i) (hnext : w.nextRun i = u.nextRun i)
    (hset : (u.timerPc i).waits = true → u.periodChanged_ = true → w.periodChanged_ = true) :
    Renewing (machine callback period maxLag) i t w := by
  cases hu with
  | waits hw hchanged => exact .waits (hpc ▸ hw) (hset hw hchanged)
  | resets h => exact .resets (hpc ▸ h)
  | renewed h hv hvpc hvu hold =>
      exact .renewed (hpc ▸ h) hv hvpc (hvu.trans hstep) (hnext.trans hold)
  | ended h => exact .ended (hpc.trans h)

theorem renews {t : State F} (hreach : (machine callback period maxLag).ReachBy OneControl t)
    {i : ℕ} (hw : (t.timerPc i).waits = true) (hset : t.periodChanged_ = true) :
    Renews (machine callback period maxLag) i t := by
  intro u hrun hplan
  have hfinal := hrun.invariant
    (P := fun u => (machine callback period maxLag).ReachBy OneControl u ∧
      (machine callback period maxLag).RunBy OneControl t u ∧
      Renewing (machine callback period maxLag) i t u)
    ⟨hreach, .refl, .waits hw hset⟩ ?_
  · obtain ⟨-, -, hfinal⟩ := hfinal
    cases hfinal with
    | waits hw => exact absurd hw (by rw [hplan]; decide)
    | resets hpc => rcases hpc with hpc | hpc <;> cases hplan.symm.trans hpc
    | @renewed v hpc hv hvpc hvu hnext => exact ⟨v, hv, hvpc, hvu, hnext⟩
    | ended hpc => cases hplan.symm.trans hpc
  · rintro u a w ⟨hu, hrun, hold⟩ ⟨hG, hplan⟩ hst
    have hlast : (machine callback period maxLag).RunBy OneControl u w := .single ⟨a, hG, hst⟩
    have hstep := (step_cases hst).periodStep (Resting.of_reach hu).settled
    refine ⟨hu.next hG hst, hrun.trans hlast, ?_⟩
    have hkeep : (u.timerPc i).waits = true → u.periodChanged_ = true →
        w.periodChanged_ = true := by
      intro hw hset
      rw [← Bool.not_eq_false]
      intro hclear
      cases (hstep.clears hu hset hclear i).1.symm.trans hw
    cases hstep with
    | @timer j hj h =>
        by_cases hij : i = j
        · subst hij
          exact hold.timer hrun hlast hplan h
        · obtain ⟨hpc, -, hnext⟩ := h.other hij
          exact hold.other hlast hpc hnext hkeep
    | sets _ _ _ _ _ _ _ hkept | enters _ _ _ _ _ _ hkept | other _ _ _ _ hkept =>
        exact hold.other hlast (congrFun hkept.timerPc i) (congrFun hkept.nextRun i) hkeep

theorem computes_deadline {s t : State F} {i : ℕ} {fails timedOut : Bool} {wake : Option Thread}
    (hpc : s.timerPc i = .addPeriod)
    (hst : step maxLag s (.timer i fails wake timedOut) = some t) :
    t.planned i = s.periodMs ∧ t.nextRun i = s.nextRun i + s.periodMs * 1000000 := by
  simp only [step, timerJobStep, hpc] at hst
  split at hst
  · cases hst
    exact ⟨Function.update_self .., Function.update_self ..⟩
  · cases hst

/-- Under one control thread: after all calls of `setPeriod` have returned, every deadline is
computed from the period that they left, and a wait for a deadline of another period ends
with a restart of the schedule; a change stored during a wait is told until the wait is
over; and after the flag is cleared no wait begins before the period is read again. -/
theorem no_update_lost {s : State F} (h : (machine callback period maxLag).ReachBy OneControl s) :
    (¬ s.SettingPeriod → ∀ t, (machine callback period maxLag).RunBy NoSetPeriod s t →
      t.periodMs = s.periodMs ∧
      (∀ i fails wake timedOut u, t.timerPc i = .addPeriod →
        step maxLag t (.timer i fails wake timedOut) = some u →
        u.planned i = s.periodMs ∧ u.nextRun i = t.nextRun i + s.periodMs * 1000000) ∧
      ∀ i, (t.timerPc i).waits = true → t.planned i ≠ s.periodMs ∨ t.periodChanged_ = true →
        t.periodChanged_ = true ∧ Renews (machine callback period maxLag) i t) ∧
    (∀ a t, OneControl s a → step maxLag s a = some t → Stores s t →
      ∀ i u, (machine callback period maxLag).RunBy (Waiting i) t u → u.Told) ∧
    (∀ a t, OneControl s a → step maxLag s a = some t →
      s.periodChanged_ = true → t.periodChanged_ = false →
      ∀ i u, (machine callback period maxLag).RunBy (Unplanned i) t u →
        (u.timerPc i).waits = false) := by
  refine ⟨?_, ?_, ?_⟩
  · intro hsettled t hrun
    obtain ⟨hperiod, hsettled'⟩ := settled_run h hsettled hrun
    have hreach := h.run (hrun.mono fun _ _ hG => hG.1)
    refine ⟨hperiod, ?_, ?_⟩
    · intro i fails wake timedOut u hpc hst
      rw [← hperiod]
      exact computes_deadline hpc hst
    · intro i hw hstale
      have hset : t.periodChanged_ = true := by
        rcases hstale with hstale | hset
        · rcases stale_told hreach hw (hperiod ▸ hstale) with hset | ⟨u, hu⟩
          · exact hset
          · exact absurd ⟨u, _, hu, rfl⟩ hsettled'
        · exact hset
      exact ⟨hset, renews hreach hw hset⟩
  · rintro a t hG hst ⟨u, p, -, hu⟩ i v hrun
    exact told_run (h.next hG hst) (.inr ⟨u, hu⟩) hrun
  · intro a t hG hst hset hclear i u hrun
    have hstep := (step_cases hst).periodStep (Resting.of_reach h).settled
    exact unplanned_run (h.next hG hst) (hstep.clears h hset hclear i).2 hrun

end Updates

/-! ## A few clients -/

/-- Only the clients up to `n` make calls. -/
def FewClients (n : ℕ) (_ : State F) : Action F → Prop
  | .set c _ | .start c | .stop c => c ≤ n
  | _ => True

instance (n : ℕ) (s : State F) (a : Action F) : Decidable (FewClients n s a) :=
  match a with
  | .set c _ | .start c | .stop c => inferInstanceAs (Decidable (c ≤ n))
  | .timer _ _ _ _ | .worker _ _ _ | .client _ _ _ | .nest _ _ | .tick _ | .spurious _ =>
      inferInstanceAs (Decidable True)

theorem fewClients_out {callback : Option F} {period maxLag n : ℕ} {s : State F}
    (h : (machine callback period maxLag).ReachBy (FewClients n) s) :
    ∀ c, n < c → s.clientPc c = .out := by
  refine h.invariant (P := fun s => ∀ c, n < c → s.clientPc c = .out) ?_ ?_
  · rintro s rfl c _
    rfl
  · intro s a t _ hs hG hst c hc
    cases step_cases hst with
    | timer hi h | worker hi h => rw [h.owned.2, hs c hc]
    | @client c' _ _ u pc h =>
        show Function.update u.clientPc c' pc c = .out
        by_cases hcc : c = c'
        · subst hcc
          rw [hs c hc] at h
          cases h
        · rw [Function.update_of_ne hcc, h.clientPc, hs c hc]
    | @set c' | @starts c' | @stops c' =>
        have hcc : c ≠ c' := ((show c' ≤ n from hG).trans_lt hc).ne'
        simpa [hcc] using hs c hc
    | nest | tick | spurious => exact hs c hc

/-- Client 1 changes the period and wakes `wake`. -/
def runSetPeriod (p : ℕ) (wake : Option Thread) : List (Action F) :=
  [.set 1 (.setPeriod p), .client 1 false none, .client 1 false none, .client 1 false wake]

/-- With two clients outside and one worker at its beginning nobody is in `setPeriod`. -/
theorem settled_of_two {callback : Option F} {period maxLag : ℕ} {s : State F}
    (h : (machine callback period maxLag).ReachBy (fun s a => OneControl s a ∧ FewClients 1 s a) s)
    (hout : s.clientPc 0 = .out ∧ s.clientPc 1 = .out)
    (hworker : s.created .worker = 1 ∧ (s.workerPc 0).setCall = none) : ¬ s.SettingPeriod := by
  rintro ⟨u, pc, hu, -⟩
  have hnone : s.setCall u = none := by
    rcases u with ⟨⟨⟩, i⟩ | c
    · rfl
    · cases i with
      | zero => exact hworker.2
      | succ i =>
          have hborn := (Resting.of_reach (h.mono fun _ _ hG => hG.1)).unborn (i + 1)
          exact congrArg WorkerPc.setCall (hborn.2 (by omega)).1
    · match c with
      | 0 => exact congrArg CallPc.setCall hout.1
      | 1 => exact congrArg CallPc.setCall hout.2
      | c + 2 =>
          have hc := fewClients_out (h.mono fun _ _ hG => hG.2) (c + 2) (by omega)
          exact congrArg CallPc.setCall hc
  cases hu.symm.trans hnone

/-- The period is changed while the timer sleeps. -/
theorem no_update_lost_asleep :
    ∃ s : State Unit, s.planned 0 = 1000 ∧ s.periodMs = 5 ∧
      Renews (machine none 1000 1) 0 s := by
  obtain ⟨s, hs, hplanned, hperiod, hout, hworker, hw⟩ :=
    Machine.ReachBy.of_exec (M := machine (none : Option Unit) 1000 1)
      (G := fun s a => OneControl s a ∧ FewClients 1 s a) (State.initial none 1000 1)
      (runStart ++ runTimer 16 ++ runSetPeriod 5 (some (.job .timer 0)))
      (fun s => s.planned 0 = 1000 ∧ s.periodMs = 5 ∧
        (s.clientPc 0 = .out ∧ s.clientPc 1 = .out) ∧
        (s.created .worker = 1 ∧ (s.workerPc 0).setCall = none) ∧
        s.timerPc 0 = .waiting) rfl (by decide)
  have hreach := hs.mono fun _ _ hG => hG.1
  have hstale : s.planned 0 ≠ s.periodMs := by
    rw [hplanned, hperiod]
    decide
  exact ⟨s, hplanned, hperiod,
    (((no_update_lost hreach).1 (settled_of_two hs hout hworker) s .refl).2.2 0
      (by rw [hw]; rfl) (.inl hstale)).2⟩

end PeriodicWork
