import CcmakeTemplate.PeriodicWork.Period

/-!
# The sleep of an older period

`setPeriod` notifies without `workLock`, so its `notify_one` may fall between the
timer's test of `periodChanged_` and its sleep, where it wakes nobody: the timer then
sleeps the deadline of the older period out. Nothing else goes wrong. As long as every
notification that comes at that moment is followed by another one, or has nothing to
tell, a timer that sleeps for a deadline of another period is about to be woken.
-/

namespace PeriodicWork

open Concurrency Semaphore

variable {F : Type}

/-- All calls of `setPeriod` have returned, the flag is set, and the timer sleeps for a
deadline of another period. -/
structure ChangeMissed (s : State F) (i : ℕ) : Prop where
  settled : ¬ s.SettingPeriod
  asleep : s.timerPc i = .waiting ∧ .job .timer i ∈ s.workCv
  stale : s.planned i ≠ s.periodMs
  changed : s.periodChanged_ = true

/-- A `setPeriod` notifies while a timer is between its test and its sleep only if that
timer has nothing to learn or another `setPeriod` is in progress. -/
def NotifiesSleeper (s : State F) (a : Action F) : Prop :=
  ∀ u, a.thread = some u → s.setCall u = some .periodNotify → ∀ i, s.timerPc i = .block →
    s.periodChanged_ = false ∨ s.planned i = s.periodMs ∨
      ∃ v pc, v ≠ u ∧ s.setCall v = some pc ∧ pc.ofPeriod = true

/-! ## Who sleeps -/

structure Sleepers (s : State F) : Prop where
  asleep : ∀ v ∈ s.workCv, ∃ i, v = .job .timer i ∧ s.timerPc i = .waiting
  nodup : s.workCv.Nodup

theorem Sleepers.sublist {s t : State F} (hs : Sleepers s) (hcv : t.workCv.Sublist s.workCv)
    (hpc : t.timerPc = s.timerPc) : Sleepers t := by
  refine ⟨?_, hs.nodup.sublist hcv⟩
  rw [hpc]
  exact fun v hv => hs.asleep v (hcv.subset hv)

theorem SetStep.workCv {u : Thread} {s t : State F} {pc : SetPc F} {call : Option (SetPc F)}
    (h : SetStep u s pc t call) : t.workCv.Sublist s.workCv := by
  cases h with
  | periodNotify hcv =>
      rcases CondVar.notifyOne_eq_some hcv with ⟨hnil, rfl⟩ | ⟨v, -, rfl⟩
      · exact List.nil_sublist _
      · exact List.erase_sublist
  | _ => exact List.Sublist.refl _

/-- A timer goes to sleep, wakes up, or leaves the sleepers alone. -/
theorem TimerStep.sleeps {i : ℕ} {s t : State F} (h : TimerStep i s t) :
    (s.timerPc i = .block ∧ t.timerPc i = .waiting ∧ t.workCv = .job .timer i :: s.workCv) ∨
    (s.timerPc i = .waiting ∧ t.timerPc i ≠ .block ∧ t.workCv = s.workCv.erase (.job .timer i)) ∨
    s.timerPc i ≠ .waiting ∧ t.timerPc i ≠ .waiting ∧ t.workCv = s.workCv ∧
      (t.timerPc i = .block → t.periodChanged_ = false) := by
  cases h with
  | block hpc => exact .inl ⟨hpc, Function.update_self .., rfl⟩
  | wakes hpc =>
      simp only [Function.update_self]
      exact .inr (.inl ⟨hpc, nofun, trivial⟩)
  | go h =>
      refine .inr (.inr ?_)
      simp only [Function.update_self]
      generalize s.timerPc i = old at h
      cases h with
      | sleep h => exact ⟨nofun, nofun, trivial, fun _ => h⟩
      | absent first | ticked first =>
          cases first <;> exact ⟨nofun, nofun, trivial, nofun⟩
      | _ => exact ⟨nofun, nofun, trivial, nofun⟩
  | reads hpc =>
      refine .inr (.inr ?_)
      simp only [Function.update_self]
      refine ⟨?_, nofun, trivial, nofun⟩
      rcases hpc with hpc | hpc <;> rw [hpc] <;> nofun
  | lock hpc =>
      refine .inr (.inr ?_)
      simp only [Function.update_self]
      refine ⟨?_, nofun, trivial, nofun⟩
      rcases hpc with ⟨hpc, -⟩ | hpc <;> rw [hpc] <;> nofun
  | tries hpc | sem hpc | plans hpc | expires hpc | leaves hpc | unlock hpc | clears hpc =>
      refine .inr (.inr ?_)
      simp only [Function.update_self]
      refine ⟨?_, nofun, trivial, nofun⟩
      rw [hpc]
      nofun

theorem Sleepers.timer {s t : State F} {i : ℕ} (hs : Sleepers s) (h : TimerStep i s t) :
    Sleepers t := by
  -- the sleepers that stay are other timers, and those did not move
  have hstay : ∀ v ∈ s.workCv, v ≠ .job .timer i →
      ∃ j, v = .job .timer j ∧ t.timerPc j = .waiting := by
    intro v hv hne
    obtain ⟨j, rfl, hj⟩ := hs.asleep v hv
    refine ⟨j, rfl, ?_⟩
    rw [(h.other (j := j) (by rintro rfl; exact hne rfl)).1, hj]
  have hnot : s.timerPc i ≠ .waiting → Thread.job .timer i ∉ s.workCv := by
    intro hpc hmem
    obtain ⟨j, heq, hj⟩ := hs.asleep _ hmem
    cases heq
    exact hpc hj
  rcases h.sleeps with ⟨hpc, hpc', hcv⟩ | ⟨-, -, hcv⟩ | ⟨hpc, -, hcv, -⟩
  · have hawake := hnot (by rw [hpc]; nofun)
    refine ⟨?_, by rw [hcv]; exact List.nodup_cons.mpr ⟨hawake, hs.nodup⟩⟩
    rw [hcv]
    intro v hv
    rcases List.mem_cons.mp hv with rfl | hv
    · exact ⟨i, rfl, hpc'⟩
    · refine hstay v hv ?_
      rintro rfl
      exact hawake hv
  · refine ⟨?_, by rw [hcv]; exact hs.nodup.erase _⟩
    rw [hcv]
    intro v hv
    obtain ⟨hne, hmem⟩ := hs.nodup.mem_erase_iff.mp hv
    exact hstay v hmem hne
  · refine ⟨?_, by rw [hcv]; exact hs.nodup⟩
    rw [hcv]
    intro v hv
    refine hstay v hv ?_
    rintro rfl
    exact hnot hpc hv

/-- A timer that is asleep after a timer's step has slept before it, or has just gone to
sleep. -/
theorem TimerStep.asleep {i j : ℕ} {s t : State F} (h : TimerStep i s t) (hs : Sleepers s)
    (hpc : t.timerPc j = .waiting) (hmem : .job .timer j ∈ t.workCv) :
    (j = i ∧ s.timerPc j = .block) ∨ s.timerPc j = .waiting ∧ .job .timer j ∈ s.workCv := by
  by_cases hji : j = i
  · subst hji
    rcases h.sleeps with ⟨hblock, -, -⟩ | ⟨-, -, hcv⟩ | ⟨-, hpc', -, -⟩
    · exact .inl ⟨rfl, hblock⟩
    · rw [hcv] at hmem
      exact absurd rfl (hs.nodup.mem_erase_iff.mp hmem).1
    · exact absurd hpc hpc'
  · refine .inr ⟨(h.other hji).1 ▸ hpc, ?_⟩
    rcases h.sleeps with ⟨-, -, hcv⟩ | ⟨-, -, hcv⟩ | ⟨-, -, hcv, -⟩
    · rw [hcv] at hmem
      refine (List.mem_cons.mp hmem).resolve_left ?_
      rintro ⟨⟩
      exact hji rfl
    · rw [hcv] at hmem
      exact List.mem_of_mem_erase hmem
    · rwa [hcv] at hmem

theorem Sleepers.step {maxLag : ℕ} {s t : State F} {a : Action F} (hs : Sleepers s)
    (hsettled : Settled s) (h : Step maxLag s a t) : Sleepers t := by
  cases h.periodStep hsettled with
  | timer hi h => exact hs.timer h
  | sets _ _ h _ _ _ hcv hkept => exact hs.sublist (hcv ▸ h.workCv) hkept.timerPc
  | enters _ _ _ _ _ hcv hkept => exact hs.sublist (hcv ▸ List.Sublist.refl _) hkept.timerPc
  | other _ _ _ hcv hkept => exact hs.sublist hcv hkept.timerPc

/-- A notification wakes the timer that sleeps, when there is only one. -/
theorem Sleepers.notifyOne {s : State F} (hs : Sleepers s)
    (hone : ∀ i j, s.timerPc i = .waiting → s.timerPc j = .waiting → i = j)
    {wake : Option Thread} {cv : CondVar Thread} (hcv : s.workCv.notifyOne wake = some cv)
    {i : ℕ} : Thread.job .timer i ∉ cv := by
  intro hmem
  rcases CondVar.notifyOne_eq_some hcv with ⟨-, rfl⟩ | ⟨v, hv, rfl⟩
  · cases hmem
  · obtain ⟨hne, hmem'⟩ := hs.nodup.mem_erase_iff.mp hmem
    obtain ⟨j, rfl, hj⟩ := hs.asleep v hv
    obtain ⟨i', heq, hi⟩ := hs.asleep _ hmem'
    cases heq
    exact hne (by rw [hone i j hi hj])

section Runs

variable {callback : Option F} {period maxLag : ℕ}

theorem Sleepers.of_settled {G : State F → Action F → Prop}
    (hsettled : ∀ s, (machine callback period maxLag).ReachBy G s → Settled s) {s : State F}
    (h : (machine callback period maxLag).ReachBy G s) : Sleepers s := by
  refine h.invariant (P := Sleepers) ?_ ?_
  · rintro s rfl
    exact ⟨fun v hv => absurd hv List.not_mem_nil, List.nodup_nil⟩
  · intro s a t hreach hs _ hst
    exact hs.step (hsettled s hreach) (step_cases hst)

theorem sleepers {s : State F} (h : (machine callback period maxLag).ReachBy OneControl s) :
    Sleepers s :=
  .of_settled (fun _ h => (Resting.of_reach h).settled) h

/-! ## A timer with something to learn is about to be woken -/

/-- The timer sleeps, or will not test again before it does. -/
def State.Deaf (s : State F) (i : ℕ) : Prop :=
  s.timerPc i = .block ∨ s.timerPc i = .waiting ∧ .job .timer i ∈ s.workCv

def Heard (s : State F) : Prop :=
  ∀ i, s.Deaf i → s.planned i ≠ s.periodMs → s.periodChanged_ = true → s.SettingPeriod

/-- A timer falls deaf with the flag down: its test has just read that. -/
theorem TimerStep.deaf {i j : ℕ} {s t : State F} (h : TimerStep i s t) (hs : Sleepers s)
    (hdeaf : t.Deaf j) (hset : t.periodChanged_ = true) :
    s.Deaf j ∧ t.planned j = s.planned j := by
  have hw : (t.timerPc j).waits = true := by
    rcases hdeaf with hpc | ⟨hpc, -⟩ <;>
    · rw [hpc]
      rfl
  have hbefore : s.Deaf j := by
    rcases hdeaf with hblock | ⟨hpc, hmem⟩
    · by_cases hji : j = i
      · subst hji
        rcases h.sleeps with ⟨hpc, -, -⟩ | ⟨-, hpc', -⟩ | ⟨-, -, -, htest⟩
        · exact .inl hpc
        · exact absurd hblock hpc'
        · cases (htest hblock).symm.trans hset
      · exact .inl ((h.other hji).1 ▸ hblock)
    · exact (h.asleep hs hpc hmem).imp And.right id
  refine ⟨hbefore, ?_⟩
  by_cases hji : j = i
  · subst hji
    rcases h.waits hw with ⟨-, hplanned⟩ | ⟨hplan, -⟩
    · exact hplanned
    · rcases hbefore with hpc | ⟨hpc, -⟩ <;> cases hpc.symm.trans hplan
  · exact (h.other hji).2.1

theorem State.Deaf.mono {s t : State F} {i : ℕ} (h : t.Deaf i) (hpc : t.timerPc = s.timerPc)
    (hcv : t.workCv.Sublist s.workCv) : s.Deaf i := by
  rw [State.Deaf, hpc] at h
  exact h.imp_right (And.imp_right fun hmem => hcv.subset hmem)

/-- Two timers never sleep at once. -/
theorem waiting_unique {s : State F}
    (hreach : (machine callback period maxLag).ReachBy OneControl s) (i j : ℕ)
    (hi : s.timerPc i = .waiting) (hj : s.timerPc j = .waiting) : i = j := by
  obtain ⟨E, shape, hc⟩ := Controlled.of_reach hreach
  have hpresent : ∀ i, s.timerPc i = .waiting → i = E := by
    intro i hi
    obtain ⟨hborn, hended⟩ := waits_present (i := i) hreach (by rw [hi]; rfl)
    exact ((Resting.of_reach hreach).mover hc hborn hended).2.1
  rw [hpresent i hi, hpresent j hj]

theorem Heard.sets {s t s' : State F} {a : Action F} {u : Thread} {pc : SetPc F}
    {call : Option (SetPc F)} (hs : Heard s)
    (hreach : (machine callback period maxLag).ReachBy OneControl s) (hG : NotifiesSleeper s a)
    (ha : a.thread = some u) (hcall : s.setCall u = some pc) (h : SetStep u s pc s' call)
    (hcalls : t.setCall = Function.update s.setCall u call) (hperiod : t.periodMs = s'.periodMs)
    (hchanged : t.periodChanged_ = s'.periodChanged_) (hcv : t.workCv = s'.workCv)
    (hkept : TimersKept s t) : Heard t := by
  intro i hdeaf hstale hset
  have hdeaf' : s.Deaf i := hdeaf.mono hkept.timerPc (hcv ▸ h.workCv)
  rw [hkept.planned, hperiod] at hstale
  rw [hchanged] at hset
  have hself : ∀ pc', call = some pc' → pc'.ofPeriod = true → t.SettingPeriod := by
    rintro pc' rfl hpc'
    exact ⟨u, pc', by rw [hcalls, Function.update_self], hpc'⟩
  have hkeep : ∀ v pc', v ≠ u → s.setCall v = some pc' → pc'.ofPeriod = true →
      t.SettingPeriod := by
    intro v pc' hvu hv hpc'
    exact ⟨v, pc', by rw [hcalls, Function.update_of_ne hvu, hv], hpc'⟩
  have hother : pc.ofPeriod = false → s.SettingPeriod → t.SettingPeriod := by
    rintro hpc ⟨v, pc', hv, hpc'⟩
    refine hkeep v pc' ?_ hv hpc'
    rintro rfl
    cases hv.symm.trans hcall
    cases hpc.symm.trans hpc'
  cases h with
  | periodStore | periodChanged => exact hself _ rfl rfl
  -- the notification leaves nobody asleep, so the timer is one that has not blocked yet
  | periodNotify hnotify =>
      rcases hdeaf with hblock | ⟨-, hmem⟩
      · rw [hkept.timerPc] at hblock
        rcases hG u ha hcall i hblock with hunset | hsame | ⟨v, pc', hvu, hv, hpc'⟩
        · cases hunset.symm.trans hset
        · exact absurd hsame hstale
        · exact hkeep v pc' hvu hv hpc'
      · rw [hcv] at hmem
        exact absurd hmem ((sleepers hreach).notifyOne (waiting_unique hreach) hnotify)
  | lock | assign | unlock => exact hother rfl (hs i hdeaf' hstale hset)

theorem heard {s : State F} (h : (machine callback period maxLag).ReachBy
    (fun s a => OneControl s a ∧ NotifiesSleeper s a) s) : Heard s := by
  refine h.invariant (P := Heard) ?_ ?_
  · rintro s rfl i (hno | ⟨hno, -⟩) <;> cases hno
  · intro s a t hreach hs hG hst i hdeaf hstale hset
    have hcontrol := hreach.mono fun _ _ hG => hG.1
    cases (step_cases hst).periodStep (Resting.of_reach hcontrol).settled with
    | timer hi h hcalls =>
        obtain ⟨hdeaf', hplanned⟩ := h.deaf (sleepers hcontrol) hdeaf hset
        rw [hplanned, h.period.1] at hstale
        rw [State.SettingPeriod, hcalls]
        refine hs i hdeaf' hstale ?_
        cases h with
        | clears => cases hset
        | _ => exact hset
    | sets ha hcall h hcalls hperiod hchanged hcv hkept =>
        exact hs.sets hcontrol hG.2 ha hcall h hcalls hperiod hchanged hcv hkept i hdeaf hstale hset
    | @enters u op ha hcall hcalls hperiod hchanged hcv hkept =>
        rw [hkept.planned, hperiod] at hstale
        obtain ⟨v, pc, hv, hpc⟩ := hs i
          (hdeaf.mono hkept.timerPc (hcv ▸ List.Sublist.refl _)) hstale (hchanged ▸ hset)
        refine ⟨v, pc, ?_, hpc⟩
        rw [hcalls, Function.update_of_ne, hv]
        rintro rfl
        cases hv.symm.trans hcall
    | other hcalls hperiod hchanged hcv hkept =>
        rw [hkept.planned, hperiod] at hstale
        rw [State.SettingPeriod, hcalls]
        refine hs i (hdeaf.mono hkept.timerPc hcv) hstale ?_
        rcases hchanged with hsame | ⟨hclear, -⟩
        · exact hsame ▸ hset
        · cases hclear.symm.trans hset

/-- No change of the period is missed in a run in which every `setPeriod` that notifies a
timer between its test and its sleep has nothing to tell or is not the last one. -/
theorem no_change_missed {s : State F} (h : (machine callback period maxLag).ReachBy
    (fun s a => OneControl s a ∧ NotifiesSleeper s a) s) (i : ℕ) : ¬ ChangeMissed s i :=
  fun hmissed => hmissed.settled (heard h i (.inr hmissed.asleep) hmissed.stale hmissed.changed)

end Runs

/-- The action is no `notify_one` of a `setPeriod` that comes while a timer is between its
test and its sleep. -/
def State.notifiesAwake (s : State F) (a : Action F) : Bool :=
  a.thread.all fun u => match s.setCall u with
    | some .periodNotify =>
        (List.range (s.created .timer)).all fun i => decide (s.timerPc i ≠ .block)
    | _ => true

theorem notifiesSleeper_of_awake {callback : Option F} {period maxLag : ℕ} {s : State F}
    {a : Action F} (hreach : (machine callback period maxLag).ReachBy OneControl s)
    (h : s.notifiesAwake a = true) : NotifiesSleeper s a := by
  intro u ha hu i hblock
  have hi := (waits_present hreach (i := i) (by rw [hblock]; rfl)).1
  rw [State.notifiesAwake, ha, Option.all_some, hu] at h
  have hno := List.all_eq_true.mp h i (List.mem_range.mpr hi)
  exact absurd hblock (of_decide_eq_true hno)

/-- The timer sleeps when it is notified. -/
theorem no_change_missed_asleep :
    ∃ s : State Unit, s.timerPc 0 = .waiting ∧ s.planned 0 = 1000 ∧ s.periodMs = 5 ∧
      s.periodChanged_ = true ∧ ¬ ChangeMissed s 0 := by
  obtain ⟨s, hs, hpc, hplanned, hperiod, hset⟩ :=
    Machine.ReachBy.of_exec (M := machine (none : Option Unit) 1000 1)
      (G := fun s a => OneControl s a ∧ s.notifiesAwake a = true) (State.initial none 1000 1)
      (runStart ++ runTimer 16 ++ runSetPeriod 5 (some (.job .timer 0)))
      (fun s => s.timerPc 0 = .waiting ∧ s.planned 0 = 1000 ∧ s.periodMs = 5 ∧
        s.periodChanged_ = true) rfl (by decide)
  refine ⟨s, hpc, hplanned, hperiod, hset, no_change_missed (hs.upgrade ?_) 0⟩
  exact fun s a hreach hG => ⟨hG.1, notifiesSleeper_of_awake (hreach.mono fun _ _ h => h.1) hG.2⟩

def Action.isSpurious : Action F → Bool
  | .spurious _ => true
  | _ => false

/-- The timer has tested the flag when client 1 sets it, and goes to sleep after client 1 has
notified. -/
theorem change_missed_before_sleep :
    ¬ ∀ s : State Unit, (machine none 1000 1).ReachBy
      (fun s a => OneControl s a ∧ a.isSpurious = false) s → ∀ i, ¬ ChangeMissed s i := by
  intro hall
  obtain ⟨s, hs, hasleep, hplanned, hperiod, hset, hout, hworker⟩ :=
    Machine.ReachBy.of_exec (M := machine (none : Option Unit) 1000 1)
      (G := fun s a => (OneControl s a ∧ FewClients 1 s a) ∧ a.isSpurious = false)
      (State.initial none 1000 1)
      (runStart ++ runTimer 15 ++ runSetPeriod 5 none ++ runTimer 1)
      (fun s => (s.timerPc 0 = .waiting ∧ Thread.job .timer 0 ∈ s.workCv) ∧
        s.planned 0 = 1000 ∧ s.periodMs = 5 ∧ s.periodChanged_ = true ∧
        (s.clientPc 0 = .out ∧ s.clientPc 1 = .out) ∧
        (s.created .worker = 1 ∧ (s.workerPc 0).setCall = none)) rfl (by decide)
  refine hall s (hs.mono fun _ _ hG => ⟨hG.1.1, hG.2⟩) 0
    ⟨settled_of_two (hs.mono fun _ _ hG => hG.1) hout hworker, hasleep, ?_, hset⟩
  rw [hplanned, hperiod]
  decide

end PeriodicWork
