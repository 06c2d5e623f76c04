import CcmakeTemplate.PeriodicWork.PeriodWakeup
import CcmakeTemplate.PeriodicWork.Epochs

/-!
# Deadlines and their ticks

When a wait ends at its deadline the timer still has to unlock and to read
`periodChanged_` before it tries its tick. The read tells a change of the period from an
expiry only if nobody has changed the period meanwhile: a `setPeriod` that stores the flag in
between takes the tick that was due. In the runs where no store falls there, every
expiry has its `try_release`.
-/

namespace PeriodicWork

open Concurrency Semaphore

variable {F : Type}

/-! ## What a timer owes -/

/-- Between the end of the wait and the test of `periodChanged_`. -/
def TimerPc.decides : TimerPc → Bool
  | .quitTest | .unlock | .changedTest => true
  | _ => false

/-- The first tick, or that of a deadline that has expired, is still to be tried. -/
def TimerPc.due : TimerPc → Bool
  | .semTest _ | .semDeref _ => true
  | pc => pc.decides

/-- A tick is due, given what the next test of `periodChanged_` will find. -/
def TimerPc.owes (changed : Bool) (pc : TimerPc) : Bool :=
  if pc.decides then !changed else pc.due

/-- Each expired deadline has had its `try_release`, and so has the start; the last one may
still be ahead. -/
def TicksPaid (s : State F) (i : ℕ) : Prop :=
  s.tries i = s.expired i + 1 ∨ s.tries i = s.expired i ∧ (s.timerPc i).due = true

/-- The step sets `periodChanged_`. -/
def State.flags (s : State F) (a : Action F) : Prop :=
  ∃ u, a.thread = some u ∧ s.setCall u = some .periodChanged

/-- Client 0 is the control thread, and nobody sets `periodChanged_` between the expiry of a
deadline and the test that follows, unless the timer is being stopped. -/
def SparesDue (s : State F) (a : Action F) : Prop :=
  OneControl s a ∧ (s.flags a → ∀ i, (s.timerPc i).decides = true →
    s.periodChanged_ = true ∨ s.threadQuit = true)

/-! ## The account -/

structure Paid (s : State F) : Prop where
  unborn : ∀ i, s.created .timer ≤ i → s.tries i = 0 ∧ s.expired i = 0
  paid : ∀ i, i < s.created .timer → s.ended .timer i = false → s.threadQuit = false →
    s.tries i + ((s.timerPc i).owes s.periodChanged_).toNat = s.expired i + 1

theorem Paid.ticksPaid {s : State F} (hs : Paid s) {i : ℕ} (hi : i < s.created .timer)
    (hended : s.ended .timer i = false) (hquit : s.threadQuit = false) : TicksPaid s i := by
  have hpaid := hs.paid i hi hended hquit
  cases howes : (s.timerPc i).owes s.periodChanged_ with
  | false =>
      rw [howes] at hpaid
      exact .inl hpaid
  | true =>
      rw [howes] at hpaid
      refine .inr ⟨Nat.succ_injective hpaid, ?_⟩
      generalize s.timerPc i = pc at howes
      cases pc <;> first | rfl | cases howes

theorem afterTick_owes (first changed : Bool) : (afterTick first).owes changed = false := by
  cases first <;> rfl

/-- A timer whose semaphore is there settles what it owes. -/
theorem TimerStep.pays {i : ℕ} {s t : State F} (h : TimerStep i s t) (hsem : s.sem_ ≠ none)
    (hquit : t.threadQuit = false) (hended : t.timerPc i ≠ .ended)
    (hleaves : s.timerPc i ≠ .leaveQuit)
    (hs : s.tries i + ((s.timerPc i).owes s.periodChanged_).toNat = s.expired i + 1) :
    t.tries i + ((t.timerPc i).owes t.periodChanged_).toNat = t.expired i + 1 := by
  have hkeep : ∀ {pc : TimerPc}, pc.owes s.periodChanged_ = (s.timerPc i).owes s.periodChanged_ →
      s.tries i + (pc.owes s.periodChanged_).toNat = s.expired i + 1 := by
    intro pc hpc
    rw [hpc]
    exact hs
  cases h with
  | @go pc h =>
      simp only [Function.update_self] at hended ⊢
      refine hkeep ?_
      generalize s.timerPc i = old at h
      cases h with
      | absent first h | null first h => exact absurd h hsem
      | ticked first => exact afterTick_owes first _
      | stops => exact absurd rfl hended
      | quitSet _ hset | breaks hset => cases hquit.symm.trans hset
      | changedSet _ h | changed h | unchanged h =>
          simp [TimerPc.owes, TimerPc.decides, TimerPc.due, h]
      | _ => rfl
  | tries hpc =>
      rw [hpc] at hs
      simpa [TimerPc.owes, TimerPc.decides, TimerPc.due] using hs
  | reads hpc =>
      simp only [Function.update_self]
      exact hkeep (by rcases hpc with hpc | hpc <;> rw [hpc] <;> rfl)
  | lock hpc =>
      simp only [Function.update_self]
      exact hkeep (by rcases hpc with ⟨hpc, -⟩ | hpc <;> rw [hpc] <;> rfl)
  | expires hpc hclear =>
      rw [hpc] at hs
      simpa [TimerPc.owes, TimerPc.decides, TimerPc.due, hclear] using hs
  | leaves hpc => exact absurd hpc hleaves
  | clears hpc =>
      rw [hpc] at hs
      simpa [TimerPc.owes, TimerPc.decides, TimerPc.due] using hs
  | sem hpc | plans hpc | block hpc | wakes hpc | unlock hpc =>
      simp only [Function.update_self]
      exact hkeep (by rw [hpc]; rfl)

/-- Only the timers try and wait. -/
theorem Step.counters {maxLag : ℕ} {s t : State F} {a : Action F} (h : Step maxLag s a t)
    (hs : Settled s) : (∃ i, i < s.created .timer ∧ TimerStep i s t) ∨
      t.timerPc = s.timerPc ∧ t.tries = s.tries ∧ t.expired = s.expired := by
  cases h with
  | timer hi h => exact .inl ⟨_, hi, h⟩
  | worker hi h =>
      obtain ⟨pc, log, -, -, hpc, -⟩ := h.moves
      refine .inr ⟨hpc, ?_⟩
      cases h with
      | nested hpc h => cases h <;> exact ⟨rfl, rfl⟩
      | _ => exact ⟨rfl, rfl⟩
  | @client c fails wake s' pc h =>
      refine .inr ⟨(h.threads hs).1, ?_⟩
      generalize s.clientPc c = old at h
      cases h with
      | set h | setReturns h => cases h <;> exact ⟨rfl, rfl⟩
      | stop h => cases h <;> exact ⟨rfl, rfl⟩
      | start h =>
          cases h with
          | create j => cases j <;> exact ⟨rfl, rfl⟩
          | _ => exact ⟨rfl, rfl⟩
  | _ => exact .inr ⟨rfl, rfl, rfl⟩

theorem TimerStep.counters_other {i j : ℕ} {s t : State F} (h : TimerStep i s t) (hj : j ≠ i) :
    t.tries j = s.tries j ∧ t.expired j = s.expired j := by
  cases h with
  | tries | expires => simp [Function.update_of_ne hj]
  | _ => exact ⟨rfl, rfl⟩

/-- `threadQuit` is cleared only when no timer is left. -/
theorem quit_kept {callback : Option F} {period maxLag : ℕ} {s t : State F} {a : Action F}
    (hreach : (machine callback period maxLag).ReachBy OneControl s)
    (hst : (machine callback period maxLag).step s a = some t) {i : ℕ}
    (hi : i < s.created .timer) (hended : s.ended .timer i = false)
    (hquit : t.threadQuit = false) : s.threadQuit = false := by
  by_contra hset
  rw [Bool.not_eq_false] at hset
  have hno : t.threadQuit ≠ s.threadQuit := by
    rw [hquit, hset]
    exact Bool.false_ne_true
  obtain ⟨E, shape, hc⟩ := Controlled.of_reach hreach
  have hrest := Resting.of_reach hreach
  have howned : t.owned ≠ s.owned := fun heq => hno (congrArg Owned.threadQuit heq)
  cases step_cases hst with
  | timer hi h | worker hi h => exact howned h.owned.1
  | @client c fails wake s' pc h =>
      rcases h.threadQuit with hkept | hpc
      · cases hquit.symm.trans (hkept hset)
      · obtain rfl : c = 0 := by
          by_contra hne
          have hsettles := hc.others c hne
          rw [hpc] at hsettles
          cases hsettles
        have hstaged := hc.staged
        rw [hpc] at hstaged
        obtain rfl : shape = .idle := hstaged.stage
        cases hended.symm.trans (hstaged.idle_ended hrest hi)
  | _ => exact howned rfl

theorem TimerPc.decides_waits {pc : TimerPc} (h : pc.decides = true) : pc.waits = true := by
  cases pc <;> first | rfl | cases h

/-- A step that spares what is due leaves the flag as a timer that is about to test it knows
it. -/
theorem SparesDue.keeps_flag {callback : Option F} {period maxLag : ℕ} {s t : State F}
    {a : Action F} (hG : SparesDue s a) (h : PeriodStep s a t)
    (hreach : (machine callback period maxLag).ReachBy OneControl s)
    (hpc : t.timerPc = s.timerPc) (hquit : s.threadQuit = false) {i : ℕ}
    (hdecides : (s.timerPc i).decides = true) : t.periodChanged_ = s.periodChanged_ := by
  have hset : s.flags a → s.periodChanged_ = true := fun hflags =>
    (hG.2 hflags i hdecides).resolve_right (by simp [hquit])
  have hclears : s.periodChanged_ = true → t.periodChanged_ = true := by
    intro hold
    by_contra hnew
    have hwaits := (h.clears hreach hold (Bool.not_eq_true _ ▸ hnew) i).1
    cases hwaits.symm.trans (TimerPc.decides_waits hdecides)
  cases hold : s.periodChanged_ with
  | true => exact hclears hold
  | false =>
      have hno : ¬ s.flags a := fun hflags => by cases hold.symm.trans (hset hflags)
      cases h with
      | timer hi h =>
          rcases h.period.2 with hsame | ⟨hclear, hreset⟩
          · exact hsame.trans hold
          · rw [hpc, hclear] at hreset
            cases hreset
      | sets ha hcall h hcalls hperiod hchanged =>
          rw [hchanged]
          cases h with
          | periodChanged => exact absurd ⟨_, ha, hcall⟩ hno
          | _ => exact hold
      | enters ha hcall hcalls hperiod hchanged => exact hchanged.trans hold
      | other hcalls hperiod hchanged =>
          rcases hchanged with hsame | ⟨hclear, -⟩
          · exact hsame.trans hold
          · exact hclear

theorem Paid.other {callback : Option F} {period maxLag : ℕ} {s t : State F} {a : Action F}
    (hs : Paid s) (hreach : (machine callback period maxLag).ReachBy OneControl s)
    (hG : SparesDue s a) (hst : (machine callback period maxLag).step s a = some t)
    (hpc : t.timerPc = s.timerPc) (htries : t.tries = s.tries ∧ t.expired = s.expired) {i : ℕ}
    (hended : t.ended .timer i = false) (hquit : t.threadQuit = false) :
    t.tries i + ((t.timerPc i).owes t.periodChanged_).toNat = t.expired i + 1 := by
  have hrest := Resting.of_reach hreach
  rw [hpc, htries.1, htries.2]
  by_cases hborn : i < s.created .timer
  · have hended' : s.ended .timer i = false := by
      rw [Bool.eq_false_iff, Ne, State.ended_timer] at hended ⊢
      rwa [← hpc]
    have hquit' : s.threadQuit = false := quit_kept hreach hst hborn hended' hquit
    have hpaid := hs.paid i hborn hended' hquit'
    cases hdecides : (s.timerPc i).decides with
    | false =>
        rw [TimerPc.owes, if_neg (by simp [hdecides])] at hpaid ⊢
        exact hpaid
    | true =>
        rw [hG.keeps_flag ((step_cases hst).periodStep hrest.settled) hreach hpc hquit' hdecides]
        exact hpaid
  · -- the timer was just created
    obtain ⟨htries0, hexpired0⟩ := hs.unborn i (not_lt.mp hborn)
    rw [(hrest.unborn i).1 (not_lt.mp hborn), htries0, hexpired0]
    rfl

theorem Step.created_le {maxLag : ℕ} {s t : State F} {a : Action F} (h : Step maxLag s a t)
    (j : Job) : s.created j ≤ t.created j := by
  cases h with
  | timer hi h | worker hi h =>
      rw [show t.created = s.created from congrArg Owned.created h.owned.1]
  | @client c fails wake s' pc h =>
      show s.created j ≤ s'.created j
      rcases h.created with hsame | ⟨j', -, hcreated⟩
      · rw [hsame]
      · rw [hcreated]
        by_cases hj : j = j'
        · subst hj
          rw [Function.update_self]
          exact Nat.le_succ _
        · rw [Function.update_of_ne hj]
  | _ => exact le_rfl

theorem Paid.step {callback : Option F} {period maxLag : ℕ} {s t : State F} {a : Action F}
    (hs : Paid s) (hreach : (machine callback period maxLag).ReachBy OneControl s)
    (hG : SparesDue s a) (hst : (machine callback period maxLag).step s a = some t) : Paid t := by
  obtain ⟨E, shape, hc⟩ := Controlled.of_reach hreach
  have hrest := Resting.of_reach hreach
  have hstep := step_cases hst
  rcases hstep.counters hrest.settled with ⟨j, hj, h⟩ | ⟨hpc, hcounters⟩
  · have howned := h.owned.1
    have hcreated : t.created = s.created := congrArg Owned.created howned
    have hquits : t.threadQuit = s.threadQuit := congrArg Owned.threadQuit howned
    obtain ⟨hobj, hjE, -, hsem⟩ := hrest.mover hc hj h.not_ended
    constructor
    · intro i hi
      rw [hcreated] at hi
      obtain ⟨htries, hexpired⟩ := h.counters_other (show i ≠ j by omega)
      rw [htries, hexpired]
      exact hs.unborn i hi
    · intro i hi hended hquit
      rw [hcreated] at hi
      have hquit' : s.threadQuit = false := hquits.symm.trans hquit
      have hij : i = j := by
        by_contra hij
        obtain ⟨pc, hmove, -⟩ := h.moves
        have hsame : t.timerPc i = s.timerPc i := by rw [hmove, Function.update_of_ne hij]
        have hended' : s.ended .timer i = false := by
          rw [Bool.eq_false_iff, Ne, State.ended_timer] at hended ⊢
          rwa [← hsame]
        exact hij ((hrest.mover hc hi hended').2.1.trans hjE.symm)
      subst hij
      refine h.pays (by rw [hsem]; nofun) hquit (State.ended_timer.not.mp (by simp [hended])) ?_
        (hs.paid i hi h.not_ended hquit')
      intro hleave
      cases hquit'.symm.trans
        (hrest.quits .timer i hi hobj (State.leaving_timer.mpr (.inr hleave)))
  · refine ⟨fun i hi => ?_, fun i _ => hs.other hreach hG hst hpc hcounters⟩
    rw [hcounters.1, hcounters.2]
    exact hs.unborn i ((hstep.created_le .timer).trans hi)

theorem Paid.of_reach {callback : Option F} {period maxLag : ℕ} {s : State F}
    (h : (machine callback period maxLag).ReachBy SparesDue s) : Paid s := by
  refine h.invariant (P := Paid) ?_ ?_
  · rintro s rfl
    exact ⟨fun _ _ => ⟨rfl, rfl⟩, fun i hi => absurd hi (Nat.not_lt_zero i)⟩
  · intro s a t hreach hs hG hst
    exact hs.step (hreach.mono fun _ _ hG => hG.1) hG hst

/-! ## One deadline -/

/-- In `wait_until`. -/
def TimerPc.inWait : TimerPc → Bool
  | .lock | .testQuit _ | .testChanged _ | .block | .waiting | .relock _ => true
  | _ => false

/-- Timer `i` does not compute its next deadline. -/
def BeforeNext (i : ℕ) (s : State F) (a : Action F) : Prop :=
  SparesDue s a ∧ s.timerPc i ≠ .addPeriod

theorem TimerStep.expires_at {i : ℕ} {s t : State F} (h : TimerStep i s t)
    (hexpired : t.expired i = s.expired i + 1) :
    t.timerPc i = .quitTest ∧ t.periodChanged_ = false := by
  cases h with
  | expires hpc hclear => exact ⟨Function.update_self .., hclear⟩
  | _ => exact absurd hexpired (Nat.succ_ne_self _).symm

/-- No deadline expires outside `wait_until`. -/
theorem TimerStep.stays_awake {i : ℕ} {s t : State F} (h : TimerStep i s t)
    (hpc : (s.timerPc i).inWait = false) (hplan : s.timerPc i ≠ .addPeriod) :
    (t.timerPc i).inWait = false ∧ t.expired i = s.expired i := by
  cases h with
  | @go pc h =>
      simp only [Function.update_self]
      refine ⟨?_, trivial⟩
      generalize s.timerPc i = old at h hpc
      cases h with
      | absent first | ticked first => cases first <;> rfl
      | _ => first | rfl | cases hpc
  | lock hold =>
      rcases hold with ⟨hold, -⟩ | hold <;>
      · rw [hold] at hpc
        cases hpc
  | plans hold => exact absurd hold hplan
  | expires hold | block hold | wakes hold =>
      rw [hold] at hpc
      cases hpc
  | tries | sem | reads | leaves | unlock | clears =>
      simp only [Function.update_self]
      exact ⟨rfl, trivial⟩

theorem expired_run {callback : Option F} {period maxLag : ℕ} {t u : State F} {i : ℕ}
    (hreach : (machine callback period maxLag).ReachBy SparesDue t)
    (hpc : (t.timerPc i).inWait = false)
    (hrun : (machine callback period maxLag).RunBy (BeforeNext i) t u) :
    u.expired i = t.expired i := by
  refine (hrun.invariant (P := fun u => (machine callback period maxLag).ReachBy SparesDue u ∧
    (u.timerPc i).inWait = false ∧ u.expired i = t.expired i) ⟨hreach, hpc, rfl⟩ ?_).2.2
  rintro u a v ⟨hu, hpc, heq⟩ ⟨hG, hplan⟩ hst
  refine ⟨hu.next hG hst, ?_⟩
  have hrest := Resting.of_reach (hu.mono fun _ _ hG => hG.1)
  rcases (step_cases hst).counters hrest.settled with ⟨j, hj, h⟩ | ⟨hsame, -, hexpired⟩
  · by_cases hij : i = j
    · subst hij
      obtain ⟨hpc', hexpired⟩ := h.stays_awake hpc hplan
      exact ⟨hpc', hexpired.trans heq⟩
    · rw [(h.other hij).1, (h.counters_other hij).2]
      exact ⟨hpc, heq⟩
  · rw [hsame, hexpired]
    exact ⟨hpc, heq⟩

/-! ## Every expiry ticks -/

/-- While a timer that nobody stops is spared, its calls of `try_release` are one more than
its expired deadlines, or as many while one is ahead; and between the expiry of a deadline and
the computation of the next there is exactly one. -/
theorem every_expiry_ticks {callback : Option F} {period maxLag : ℕ} {s : State F}
    (h : (machine callback period maxLag).ReachBy SparesDue s) (i : ℕ) :
    (i < s.created .timer → s.ended .timer i = false → s.threadQuit = false → TicksPaid s i) ∧
    ∀ a t, SparesDue s a → (machine callback period maxLag).step s a = some t →
      t.expired i = s.expired i + 1 → t.threadQuit = false →
      ∀ u, (machine callback period maxLag).RunBy (BeforeNext i) t u →
        u.timerPc i = .addPeriod → u.threadQuit = false → u.tries i = t.tries i + 1 := by
  refine ⟨(Paid.of_reach h).ticksPaid, ?_⟩
  intro a t hG hst hexpired hquit u hrun hplan hquit'
  have hreach := h.mono fun _ _ hG => hG.1
  have ht := h.next hG hst
  have hu := ht.run (hrun.mono fun _ _ hG => hG.1)
  have hborn : ∀ {v : State F}, (machine callback period maxLag).ReachBy SparesDue v →
      v.timerPc i ≠ .semTest true → i < v.created .timer := by
    intro v hv hpc
    by_contra hno
    exact hpc (((Resting.of_reach (hv.mono fun _ _ hG => hG.1)).unborn i).1 (not_lt.mp hno))
  have halive : ∀ {v : State F}, v.timerPc i ≠ .ended → v.ended .timer i = false := by
    intro v hpc
    rw [Bool.eq_false_iff, Ne, State.ended_timer]
    exact hpc
  -- right after the expiry the tick is owed, and where the next deadline is computed none is
  obtain ⟨hpc, hclear⟩ : t.timerPc i = .quitTest ∧ t.periodChanged_ = false := by
    rcases (step_cases hst).counters (Resting.of_reach hreach).settled with
      ⟨j, hj, hstep⟩ | ⟨-, -, hsame⟩
    · by_cases hij : i = j
      · subst hij
        exact hstep.expires_at hexpired
      · rw [(hstep.counters_other hij).2] at hexpired
        omega
    · rw [hsame] at hexpired
      omega
  have howed := (Paid.of_reach ht).paid i (hborn ht (by rw [hpc]; nofun))
    (halive (by rw [hpc]; nofun)) hquit
  have hpaid := (Paid.of_reach hu).paid i (hborn hu (by rw [hplan]; nofun))
    (halive (by rw [hplan]; nofun)) hquit'
  have hsame := expired_run ht (by rw [hpc]; rfl) hrun
  rw [hpc, hclear] at howed
  rw [hplan] at hpaid
  have howed : t.tries i + 1 = t.expired i + 1 := howed
  have hpaid : u.tries i = u.expired i + 1 := hpaid
  omega

/-- The action sets no flag while a timer is about to test it. -/
def State.flagsApart (s : State F) (a : Action F) : Bool :=
  a.thread.all fun u => match s.setCall u with
    | some .periodChanged => (List.range (s.created .timer)).all fun i => !(s.timerPc i).decides
    | _ => true

theorem sparesDue_of_apart {callback : Option F} {period maxLag : ℕ} {s : State F} {a : Action F}
    (hreach : (machine callback period maxLag).ReachBy OneControl s) (hcontrol : OneControl s a)
    (h : s.flagsApart a = true) : SparesDue s a := by
  refine ⟨hcontrol, ?_⟩
  rintro ⟨u, ha, hu⟩ i hdecides
  have hi := (waits_present hreach (TimerPc.decides_waits hdecides)).1
  rw [State.flagsApart, ha, Option.all_some, hu] at h
  have hno := List.all_eq_true.mp h i (List.mem_range.mpr hi)
  simp [hdecides] at hno

/-- The period is changed while the timer sleeps, and the next deadline expires. -/
theorem every_expiry_ticks_changed :
    ∃ s : State Unit, (s.timerPc 0 = .loop ∧ s.tries 0 = 2 ∧ s.expired 0 = 1) ∧
      TicksPaid s 0 := by
  obtain ⟨s, hs, hread, hi, hended, hquit⟩ :=
    Machine.ReachBy.of_exec (M := machine (none : Option Unit) 1000 1)
      (G := fun s a => OneControl s a ∧ s.flagsApart a = true) (State.initial none 1000 1)
      (runStart ++ runTimer 16 ++ runSetPeriod 5 (some (.job .timer 0)) ++ runTimer 15 ++
        [.tick 5000000, .timer 0 false none true] ++ runTimer 11)
      (fun s => (s.timerPc 0 = .loop ∧ s.tries 0 = 2 ∧ s.expired 0 = 1) ∧
        0 < s.created .timer ∧ s.ended .timer 0 = false ∧ s.threadQuit = false) rfl (by decide)
  have hspares := hs.upgrade fun s a hreach hG =>
    sparesDue_of_apart (hreach.mono fun _ _ h => h.1) hG.1 hG.2
  exact ⟨s, hread, (every_expiry_ticks hspares 0).1 hi hended hquit⟩

/-- A deadline expires, and client 1 changes the period before the timer has tested
`periodChanged_`: the tick that was due is not tried. -/
theorem expired_tick_cancelled :
    ¬ ∀ s : State Unit, (machine none 1000 1).ReachBy OneControl s → ∀ i,
      i < s.created .timer → s.ended .timer i = false → s.threadQuit = false →
        TicksPaid s i := by
  intro hall
  obtain ⟨s, hs, hread, hi, hended, hquit⟩ :=
    Machine.ReachBy.of_exec (M := machine (none : Option Unit) 1000 1)
      (G := OneControl) (State.initial none 1000 1)
      (runStart ++ runTimer 16 ++ [.tick 1000000000, .timer 0 false none true] ++ runTimer 3 ++
        runSetPeriod 5 none ++ runTimer 5)
      (fun s => (s.timerPc 0 = .loop ∧ s.tries 0 = 1 ∧ s.expired 0 = 1) ∧
        0 < s.created .timer ∧ s.ended .timer 0 = false ∧ s.threadQuit = false) rfl (by decide)
  obtain ⟨hpc, htries, hexpired⟩ := hread
  rcases hall s hs 0 hi hended hquit with hpaid | ⟨-, hdue⟩
  · omega
  · rw [hpc] at hdue
    cases hdue

end PeriodicWork
