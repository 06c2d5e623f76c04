import CcmakeTemplate.Pipeline.Roster
import CcmakeTemplate.Pipeline.Wakeup

/-!
# Wake-ups of the process workers

`addJob` notifies one sleeper while it owns `mutex_process`. A worker that has been told to
quit may be the one that is woken: it leaves without taking the job and wakes nobody in its
place. `~threadInfo` repeats its `notify_all` only until it reads `EXITED`, and that may
have come between two readings. So a job is looked after as long as no such worker is
woken over all others.
-/

namespace Pipeline

open Concurrency

variable {I O F : Type}

/-! ## Who looks into the queue -/

/-- The worker has left its loop because of `quit`. -/
def ProcessPc.leaving : ProcessPc I O → Bool
  | .leaveQuit | .exit | .ended => true
  | _ => false

/-- The call has yet to call `notify_all` for the worker it fires. -/
def CallPc.notifiesAll : CallPc I F → Bool
  | .hireFire .process _ (.setQuit _) _ | .hireFire .process _ (.notifyAll _) _ => true
  | _ => false

/-- The worker that the call is firing. -/
def CallPc.fires : CallPc I F → Option ℕ
  | .hireFire .process _ (.status id) _ | .hireFire .process _ (.setQuit id) _
  | .hireFire .process _ (.notifyAll id) _ | .hireFire .process _ (.join id) _ => some id
  | _ => none

namespace State

/-- The worker stays, and it tests the queue again before it sleeps. -/
def looks (s : State I O F) (i : ℕ) : Bool :=
  !(s.info .process i).quit && match s.processPc i with
    | .wait => !decide (.worker .process i ∈ s.cv_jobAdd)
    | .block => false
    | pc => !pc.leaving

def SomeLooks (s : State I O F) : Prop := ∃ i, i < s.hired .process ∧ s.looks i = true

instance (s : State I O F) : Decidable s.SomeLooks :=
  inferInstanceAs (Decidable (∃ i, i < s.hired .process ∧ s.looks i = true))

/-- Somebody looks, or everybody is about to be woken, or every worker is to leave. -/
def Heeded (s : State I O F) : Prop :=
  s.SomeLooks ∨ (∃ u, (s.doing u).notifiesAll = true) ∨
    ∀ i, i < s.hired .process → (s.info .process i).quit = true

/-- Jobs that wait are heeded, or an `addJob` has yet to notify. -/
def JobsAttended (s : State I O F) : Prop :=
  s.queue_process ≠ [] → s.Heeded ∨ ∃ u, s.doing u = .addJobNotify

end State

/-- A job waits, a process worker exists and all of them sleep, and no `addJob` and no
`setProcessWorkerCount` is in progress. -/
structure JobStranded (s : State I O F) : Prop where
  waiting : s.queue_process ≠ []
  worker : ∃ i, i < s.hired .process ∧ s.processPc i ≠ .ended
  asleep : ∀ i, i < s.hired .process → s.processPc i = .ended ∨
    s.processPc i = .wait ∧ .worker .process i ∈ s.cv_jobAdd
  quiet : ∀ u, (s.doing u).kind ≠ .addJob ∧ (s.doing u).resizing = false

/-! ## The runs -/

def Action.wake : Action I F → Option Thread
  | .process _ wake | .callback _ wake | .client _ wake => wake
  | _ => none

/-- The sleeper that the `notify_one` of an `addJob` wakes. -/
def State.wakes (s : State I O F) (a : Action I F) : Option Thread :=
  match s.call a with
  | some .addJobNotify => a.wake.filter (· ∈ s.cv_jobAdd)
  | _ => none

/-- An `addJob` wakes a worker that was told to quit only while the jobs are heeded anyway. -/
def WakesStaying (s : State I O F) (a : Action I F) : Prop :=
  ∀ i, s.wakes a = some (.worker .process i) → (s.info .process i).quit = true → s.Heeded

theorem step_notify {process : I → O} {s t : State I O F} {a : Action I F}
    (hst : step process s a = some t) (hcall : s.call a = some .addJobNotify) :
    s.cv_jobAdd.notifyOne a.wake = some t.cv_jobAdd := by
  cases a with
  | client c wake =>
      have hpc : s.clientPc c = .addJobNotify := Option.some.inj hcall
      obtain ⟨⟨s', pc⟩, hstep, rfl⟩ := Option.map_eq_some_iff.mp hst
      rw [hpc] at hstep
      obtain ⟨cv, hcv, heq⟩ := Option.map_eq_some_iff.mp hstep
      cases heq
      exact hcv
  | callback i wake =>
      cases hpc : s.callbackPc i with
      | inCallback f product call =>
          simp only [State.call, hpc] at hcall
          cases hcall
          simp only [step] at hst
          split at hst
          · simp only [callbackStep, hpc] at hst
            obtain ⟨⟨s', pc⟩, hstep, rfl⟩ := Option.map_eq_some_iff.mp hst
            obtain ⟨cv, hcv, heq⟩ := Option.map_eq_some_iff.mp hstep
            cases heq
            exact hcv
          · cases hst
      | _ => simp [State.call, hpc] at hcall
  | _ => cases hcall

/-! ## Sleepers and leavers -/

structure Sleepers (s : State I O F) : Prop where
  asleep : ∀ t ∈ s.cv_jobAdd,
    ∃ i, t = .worker .process i ∧ i < s.hired .process ∧ s.processPc i = .wait
  nodup : s.cv_jobAdd.Nodup
  leaving : ∀ i, (s.processPc i).leaving = true → (s.info .process i).quit = true
  /-- Between the test and the sleep the mutex keeps the queue empty. -/
  blocking : ∀ i, s.processPc i = .block → s.queue_process = []
  fired : ∀ i, (s.info .process i).quit = true →
    s.processPc i = .ended ∨ ∃ u, (s.doing u).fires = some i

theorem CallStep.jobAdd_sublist {u : Thread} {s t : State I O F} {pc pc' : CallPc I F}
    (h : CallStep u s pc t pc') : t.cv_jobAdd.Sublist s.cv_jobAdd := by
  cases h with
  | notify hcv =>
      rcases CondVar.notifyOne_eq_some hcv with ⟨hnil, rfl⟩ | ⟨v, -, rfl⟩
      · exact List.nil_sublist _
      · exact List.erase_sublist
  | @create crew => cases crew <;> exact List.Sublist.refl _
  | @notifyAll crew =>
      cases crew with
      | process => exact List.nil_sublist _
      | callback => exact List.Sublist.refl _
  | @returns _ _ ret => cases ret <;> exact List.Sublist.refl _
  | _ => exact List.Sublist.refl _

/-- A method step tells no worker to quit but the one it fires. -/
theorem CallStep.told {u : Thread} {s t : State I O F} {pc pc' : CallPc I F}
    (h : CallStep u s pc t pc') {i : ℕ} (hquit : (t.info .process i).quit = true) :
    (s.info .process i).quit = true ∨ pc'.fires = some i ∧ pc'.notifiesAll = true := by
  cases h with
  | @create crew =>
      rw [startWorker_info] at hquit
      by_cases heq : (Crew.process, i) = (crew, s.hired crew)
      · cases heq
        simp at hquit
      · rw [State.setInfo_other heq] at hquit
        exact .inl hquit
  | @setQuit crew count id ret =>
      by_cases heq : (Crew.process, i) = (crew, id)
      · cases heq
        exact .inr ⟨rfl, rfl⟩
      · rw [State.setInfo_other heq] at hquit
        exact .inl hquit
  | @notifyAll crew => cases crew <;> exact .inl hquit
  | @returns _ _ ret => cases ret <;> exact .inl hquit
  | _ => exact .inl hquit

/-- A worker that was told to quit is not told otherwise. -/
theorem CallStep.quit_stays {u : Thread} {s t : State I O F} {pc pc' : CallPc I F}
    (h : CallStep u s pc t pc') {i : ℕ} (hi : i ≠ s.hired .process)
    (hquit : (s.info .process i).quit = true) : (t.info .process i).quit = true := by
  cases h with
  | @create crew =>
      rw [startWorker_info, State.setInfo_other]
      · exact hquit
      · rintro ⟨⟩
        exact hi rfl
  | @setQuit crew count id ret =>
      by_cases heq : (Crew.process, i) = (crew, id)
      · cases heq
        simp
      · rwa [State.setInfo_other heq]
  | @notifyAll crew => cases crew <;> exact hquit
  | @returns _ _ ret => cases ret <;> exact hquit
  | _ => exact hquit

/-- A call that fires a worker lets go of it when it has ended. -/
theorem CallStep.fires {u : Thread} {s t : State I O F} {pc pc' : CallPc I F}
    (h : CallStep u s pc t pc') {i : ℕ} (hpc : pc.fires = some i) :
    pc'.fires = some i ∨ s.processPc i = .ended := by
  cases h with
  | go h =>
      cases h with
      | @hire crew count ret _ _ h =>
          cases crew with
          | callback => cases h <;> cases hpc
          | process =>
              cases h with
              | exited | notExited => exact .inl hpc
              | joined hended =>
                  cases hpc
                  exact .inr (State.ended_process hended)
              | _ => cases hpc
      | _ => cases hpc
  | lockProcess h | unlockProcess h | lockOutput h | unlockOutput h => cases h <;> cases hpc
  | @create crew => cases crew <;> cases hpc
  | @pushBack crew => cases crew <;> cases hpc
  | @setQuit crew | @notifyAll crew =>
      cases crew with
      | callback => cases hpc
      | process => exact .inl hpc
  | @popFront crew => cases crew <;> cases hpc
  | @returns crew _ ret pc h => cases h <;> cases crew <;> cases hpc
  | _ => cases hpc

/-- A worker that takes a step is not asleep. -/
theorem ProcessStep.not_asleep {process : I → O} {i : ℕ} {s t : State I O F}
    (h : ProcessStep process i s t) (hs : Sleepers s) : .worker .process i ∉ s.cv_jobAdd := by
  intro hmem
  obtain ⟨j, heq, -, hwait⟩ := hs.asleep _ hmem
  cases heq
  cases h with
  | go h | sets h | leave h =>
      rw [hwait] at h
      cases h
  | lockProcess hpc =>
      rcases hpc with hpc | ⟨-, hawake⟩
      · simp [hwait] at hpc
      · exact hawake hmem
  | take hpc | block hpc | pureCall hpc | lockOutput hpc | push hpc | unlockOutput hpc
  | notify hpc => simp [hwait] at hpc

theorem Sleepers.of_process {process : I → O} {i : ℕ} {s t : State I O F}
    (h : ProcessStep process i s t) (hi : i < s.hired .process) (hdoing : t.doing = s.doing)
    (hs : Sleepers s) : Sleepers t := by
  have hframe := h.frame
  have hawake := h.not_asleep hs
  have hcv : t.cv_jobAdd = s.cv_jobAdd ∨ t.processPc i = .wait ∧
      t.cv_jobAdd = .worker .process i :: s.cv_jobAdd := by
    cases h with
    | block => exact .inr ⟨Function.update_self _ _ _, rfl⟩
    | _ => exact .inl rfl
  -- those who slept do so still: the step is of a worker that is awake
  have hold : ∀ v ∈ s.cv_jobAdd, ∃ j, v = .worker .process j ∧ j < t.hired .process ∧
      t.processPc j = .wait := by
    intro v hv
    obtain ⟨j, rfl, hj, hwait⟩ := hs.asleep v hv
    refine ⟨j, rfl, by rwa [hframe.hired], ?_⟩
    rwa [hframe.processPc j]
    rintro rfl
    exact hawake hv
  refine ⟨?_, ?_, fun j hj => ?_, fun j hj => ?_, fun j hquit => ?_⟩
  · rcases hcv with hcv | ⟨hwait, hcv⟩
    · rw [hcv]
      exact hold
    · rw [hcv]
      intro v hv
      rcases List.mem_cons.mp hv with rfl | hv
      · exact ⟨i, rfl, by rwa [hframe.hired], hwait⟩
      · exact hold v hv
  · rcases hcv with hcv | ⟨-, hcv⟩
    · rw [hcv]
      exact hs.nodup
    · rw [hcv]
      exact List.nodup_cons.mpr ⟨hawake, hs.nodup⟩
  · rw [hframe.quit]
    by_cases hji : j = i
    · subst hji
      cases h with
      | go h =>
          simp only [Function.update_self] at hj
          generalize s.processPc j = pc at h
          cases h with
          | stop hquit | quit hquit => exact hquit
          | _ => cases hj
      | sets h | leave h =>
          simp only [Function.update_self] at hj
          refine hs.leaving j ?_
          generalize s.processPc j = pc at h ⊢
          cases h <;> first | rfl | cases hj
      | _ =>
          simp only [Function.update_self] at hj
          cases hj
    · rw [hframe.processPc j hji] at hj
      exact hs.leaving j hj
  · by_cases hji : j = i
    · subst hji
      cases h with
      | go h =>
          simp only [Function.update_self] at hj
          subst hj
          generalize s.processPc j = pc at h
          cases h with
          | sleep hquit hq => exact hq
      | sets h | leave h =>
          simp only [Function.update_self] at hj
          subst hj
          generalize s.processPc j = pc at h
          cases h
      | _ =>
          simp only [Function.update_self] at hj
          cases hj
    · rw [hframe.processPc j hji] at hj
      have hempty := hs.blocking j hj
      cases h with
      | take hpc hquit hq => cases hempty.symm.trans hq
      | _ => exact hempty
  · rw [hframe.quit] at hquit
    rw [hdoing]
    refine (hs.fired j hquit).imp_left fun hended => ?_
    rwa [hframe.processPc j]
    rintro rfl
    have hrunning := h.running
    simp [State.ended, hended] at hrunning

theorem Sleepers.of_same {s t : State I O F} (hs : Sleepers s)
    (hcv : t.cv_jobAdd.Sublist s.cv_jobAdd) (hhired : t.hired = s.hired)
    (hpcs : t.processPc = s.processPc) (hinfo : t.info .process = s.info .process)
    (hqueue : t.queue_process = s.queue_process)
    (hdoing : ∀ u i, (s.doing u).fires = some i → (t.doing u).fires = some i) : Sleepers t := by
  refine ⟨fun v hv => ?_, hs.nodup.sublist hcv, ?_, ?_, fun i hquit => ?_⟩
  · rw [hhired, hpcs]
    exact hs.asleep v (hcv.subset hv)
  · rw [hpcs, hinfo]
    exact hs.leaving
  · rw [hpcs, hqueue]
    exact hs.blocking
  · rw [hinfo] at hquit
    rw [hpcs]
    refine (hs.fired i hquit).imp_right ?_
    rintro ⟨u, hu⟩
    exact ⟨u, hdoing u i hu⟩

theorem Sleepers.of_call {u : Thread} {s s' t : State I O F} {pc : CallPc I F}
    (h : CallStep u s (s.doing u) s' pc) (hdoing : t.doing = Function.update s.doing u pc)
    (halike : Alike s' t) (hborn : Unborn s)
    (hguards : (s.mutex .process).Guards (s.holds .process)) (hs : Sleepers s) : Sleepers t := by
  have hpcs : t.processPc = s.processPc := halike.processPc.trans (h.workers hborn).1
  have hcv : t.cv_jobAdd.Sublist s.cv_jobAdd := by
    rw [halike.cv_jobAdd]
    exact h.jobAdd_sublist
  have hhired : s.hired .process ≤ t.hired .process := by
    rw [halike.hired]
    exact h.hired_le .process
  refine ⟨fun v hv => ?_, hs.nodup.sublist hcv, fun i hi => ?_, fun i hi => ?_,
    fun i hquit => ?_⟩
  · obtain ⟨i, rfl, hi, hwait⟩ := hs.asleep v (hcv.subset hv)
    exact ⟨i, rfl, hi.trans_le hhired, by rw [hpcs, hwait]⟩
  · rw [hpcs] at hi
    have hold : i ≠ s.hired .process := by
      rintro rfl
      rw [hborn.process _ le_rfl] at hi
      cases hi
    rw [halike.info]
    exact h.quit_stays hold (hs.leaving i hi)
  · rw [hpcs] at hi
    rw [halike.queue_process]
    have hempty := hs.blocking i hi
    generalize hpc : s.doing u = pc' at h
    cases h with
    | add job =>
        -- the sleeper to be and the caller of `addJob` would both own the mutex
        have hcaller := doing_owns hguards (u := u) (by rw [hpc]; rfl)
        have hsleeper := hguards (.worker .process i) (by simp [State.holds, hi, ProcessPc.inside])
        cases hcaller.symm.trans hsleeper
        cases hpc
    | clearProcess => rfl
    | @create crew => cases crew <;> exact hempty
    | @notifyAll crew => cases crew <;> exact hempty
    | @returns _ _ ret => cases ret <;> exact hempty
    | _ => exact hempty
  · rw [hpcs]
    rw [halike.info] at hquit
    rcases h.told hquit with hbefore | ⟨hnew, -⟩
    · rcases hs.fired i hbefore with hended | ⟨v, hv⟩
      · exact .inl hended
      · by_cases hvu : v = u
        · subst hvu
          refine (h.fires hv).symm.imp_right fun hnew => ⟨v, ?_⟩
          rwa [hdoing, Function.update_self]
        · exact .inr ⟨v, by rwa [hdoing, Function.update_of_ne hvu]⟩
    · exact .inr ⟨u, by rwa [hdoing, Function.update_self]⟩

theorem Sleepers.step {process : I → O} {s t : State I O F} {a : Action I F}
    (h : Activity process s a t) (hborn : Unborn s)
    (hguards : (s.mutex .process).Guards (s.holds .process)) (hs : Sleepers s) : Sleepers t := by
  cases h with
  | process hi h ha hdoing => exact hs.of_process h hi hdoing
  | callback hi h ha hdoing hout hframe =>
      refine hs.of_same ?_ hframe.hired hframe.processPc hframe.info hframe.queue_process ?_
      · rw [hframe.cv_jobAdd]
      · rw [hdoing]
        exact fun _ _ h => h
  | call ha h hdoing halike => exact hs.of_call h hdoing halike hborn hguards
  | @entry u pc ha hout hdoing halike =>
      refine hs.of_same ?_ halike.hired halike.processPc (by rw [halike.info])
        halike.queue_process fun v i hv => ?_
      · rw [halike.cv_jobAdd]
      · rw [hdoing, Function.update_of_ne]
        · exact hv
        · rintro rfl
          rw [hout] at hv
          cases hv
  | spurious ha hdoing ht =>
      subst ht
      exact hs.of_same List.erase_sublist rfl rfl rfl rfl fun _ _ h => h

theorem sleepers {G : State I O F → Action I F → Prop} {process : I → O} {workerCnt : ℕ}
    {s : State I O F} (h : (machine process workerCnt).ReachBy G s) : Sleepers s := by
  refine h.invariant (P := Sleepers) ?_ ?_
  · rintro s rfl
    exact ⟨by simp [State.initial], List.nodup_nil, nofun, nofun, nofun⟩
  · intro s a t hreach hs _ hst
    exact hs.step ((step_cases hst).activity (unborn hreach)) (unborn hreach)
      (guards_of_reach hreach .process)

/-! ## Jobs stay attended -/

theorem State.looks_mono {s t : State I O F} {i : ℕ} (hpc : t.processPc i = s.processPc i)
    (hquit : (t.info .process i).quit = (s.info .process i).quit)
    (hcv : .worker .process i ∈ t.cv_jobAdd → .worker .process i ∈ s.cv_jobAdd)
    (h : s.looks i = true) : t.looks i = true := by
  unfold State.looks at h ⊢
  rw [hpc, hquit]
  rw [Bool.and_eq_true] at h ⊢
  refine ⟨h.1, ?_⟩
  have hlooks := h.2
  generalize s.processPc i = pc at hlooks
  cases pc with
  | wait =>
      simp only [Bool.not_eq_true', decide_eq_false_iff_not] at hlooks ⊢
      exact fun hmem => hlooks (hcv hmem)
  | _ => exact hlooks

/-- A worker that stays looks into the queue, or it sleeps. -/
theorem Sleepers.looks_or_sleeps {s : State I O F} (hs : Sleepers s) {i : ℕ}
    (hstay : (s.info .process i).quit = false) (hblock : s.processPc i ≠ .block) :
    s.looks i = true ∨ s.processPc i = .wait ∧ .worker .process i ∈ s.cv_jobAdd := by
  have hleaving : (s.processPc i).leaving = false := by
    by_contra hleaving
    simp [hs.leaving i (by simpa using hleaving)] at hstay
  unfold State.looks
  rw [hstay]
  cases hpc : s.processPc i with
  | wait =>
      by_cases hmem : .worker .process i ∈ s.cv_jobAdd
      · exact .inr ⟨rfl, hmem⟩
      · exact .inl (by simp [hmem])
  | block => exact absurd hpc hblock
  | leaveQuit | exit | ended =>
      rw [hpc] at hleaving
      cases hleaving
  | _ => exact .inl rfl

/-- A worker that looks goes on looking while a job waits. -/
theorem ProcessStep.looks {process : I → O} {i : ℕ} {s t : State I O F}
    (h : ProcessStep process i s t) (hwaiting : t.queue_process ≠ [])
    (hlooks : s.looks i = true) : t.looks i = true := by
  unfold State.looks at hlooks ⊢
  rw [h.frame.quit]
  obtain ⟨hstay, hpc⟩ := Bool.and_eq_true_iff.mp hlooks
  have hstay : (s.info .process i).quit = false := by simpa using hstay
  rw [hstay]
  cases h with
  | go h =>
      simp only [Function.update_self]
      generalize s.processPc i = pc at h
      cases h with
      | stop hquit | quit hquit => cases hquit.symm.trans hstay
      | sleep hquit hq => exact absurd hq hwaiting
      | _ => rfl
  | sets h | leave h =>
      simp only [Function.update_self]
      generalize s.processPc i = pc at h hpc
      cases h <;> first | rfl | cases hpc
  | block hblock =>
      rw [hblock] at hpc
      cases hpc
  | _ =>
      simp only [Function.update_self]
      rfl

theorem ProcessStep.jobsAttended {process : I → O} {i : ℕ} {s t : State I O F}
    (h : ProcessStep process i s t) (hdoing : t.doing = s.doing) (hatt : s.JobsAttended) :
    t.JobsAttended := by
  intro hwaiting
  have hframe := h.frame
  have hbefore : s.queue_process ≠ [] := by
    cases h with
    | take hpc hquit hq => simp [hq]
    | _ => exact hwaiting
  rw [hdoing]
  refine (hatt hbefore).imp_left ?_
  rintro (⟨j, hj, hlooks⟩ | hall | hnobody)
  · refine .inl ⟨j, by rwa [hframe.hired], ?_⟩
    by_cases hji : j = i
    · subst hji
      exact h.looks hwaiting hlooks
    · refine State.looks_mono (hframe.processPc j hji) (hframe.quit .process j) ?_ hlooks
      cases h with
      | block =>
          intro hmem
          refine (List.mem_cons.mp hmem).resolve_left ?_
          rintro ⟨⟩
          exact hji rfl
      | _ => exact fun hmem => hmem
  · exact .inr (.inl (by rwa [hdoing]))
  · refine .inr (.inr fun j hj => ?_)
    rw [hframe.quit]
    exact hnobody j (by rwa [hframe.hired] at hj)

/-- After a `notify_all` everybody who stays looks into the queue. -/
theorem Sleepers.all_woken {s t : State I O F} (hs : Sleepers s) (hcv : t.cv_jobAdd = [])
    (hpcs : t.processPc = s.processPc) (hinfo : t.info = s.info)
    (hwaiting : s.queue_process ≠ []) : t.Heeded := by
  by_cases hnobody : ∀ i, i < t.hired .process → (t.info .process i).quit = true
  · exact .inr (.inr hnobody)
  · push Not at hnobody
    obtain ⟨i, hi, hstay⟩ := hnobody
    have hstay : (s.info .process i).quit = false := by simpa [hinfo] using hstay
    refine .inl ⟨i, hi, ?_⟩
    have hlooks := hs.looks_or_sleeps hstay fun hblock => hwaiting (hs.blocking i hblock)
    unfold State.looks at hlooks ⊢
    rw [hpcs, hinfo, hcv]
    rcases hlooks with hlooks | ⟨hwait, -⟩
    · cases hpc : s.processPc i with
      | wait => simp [hstay]
      | block => simp [hpc] at hlooks
      | _ => simpa [hpc] using hlooks
    · simp [hwait, hstay]

/-- The `notify_one` of an `addJob` leaves the jobs heeded. -/
theorem Sleepers.notified {s t : State I O F} {wake : Option Thread} (hs : Sleepers s)
    (hguards : (s.mutex .process).Guards (s.holds .process)) {u : Thread}
    (hu : s.doing u = .addJobNotify)
    (hwakes : ∀ i, wake.filter (· ∈ s.cv_jobAdd) = some (.worker .process i) →
      (s.info .process i).quit = true → s.Heeded)
    (hnotify : s.cv_jobAdd.notifyOne wake = some t.cv_jobAdd)
    (hpcs : t.processPc = s.processPc) (hinfo : t.info = s.info) (hhired : t.hired = s.hired) :
    t.SomeLooks ∨ s.Heeded := by
  by_cases hnobody : ∀ i, i < s.hired .process → (s.info .process i).quit = true
  · exact .inr (.inr (.inr hnobody))
  · push Not at hnobody
    obtain ⟨i, hi, hstay⟩ := hnobody
    have hstay : (s.info .process i).quit = false := by simpa using hstay
    -- whoever is about to sleep would own the mutex of the caller
    have hblock : s.processPc i ≠ .block := by
      intro hblock
      have hcaller := doing_owns hguards (u := u) (by rw [hu]; rfl)
      have hsleeper := hguards (.worker .process i)
        (by simp [State.holds, hblock, ProcessPc.inside])
      cases hcaller.symm.trans hsleeper
      cases hu
    rcases hs.looks_or_sleeps hstay hblock with hlooks | ⟨hwait, hmem⟩
    · exact .inr (.inl ⟨i, hi, hlooks⟩)
    · cases wake with
      | none =>
          cases hcv : s.cv_jobAdd with
          | nil => simp [hcv] at hmem
          | cons v vs =>
              rw [hcv] at hnotify
              cases hnotify
      | some v =>
          have hv : v ∈ s.cv_jobAdd ∧ t.cv_jobAdd = s.cv_jobAdd.erase v := by
            cases hcv : s.cv_jobAdd with
            | nil => simp [hcv] at hmem
            | cons w ws =>
                rw [hcv] at hnotify
                simp only [CondVar.notifyOne] at hnotify
                split at hnotify
                · rename_i hin
                  exact ⟨hin, (Option.some.inj hnotify).symm⟩
                · cases hnotify
          obtain ⟨j, rfl, hj, hjwait⟩ := hs.asleep v hv.1
          by_cases hjquit : (s.info .process j).quit = true
          · exact .inr (hwakes j (by simp [Option.filter, hv.1]) hjquit)
          · refine .inl ⟨j, by rwa [hhired], ?_⟩
            have hgone : .worker .process j ∉ t.cv_jobAdd := by
              rw [hv.2]
              exact hs.nodup.not_mem_erase
            simp [State.looks, hpcs, hinfo, hjwait, hgone, hjquit]

/-- Only `addJob` fills the queue, and then it has yet to notify. -/
theorem CallStep.waiting {u : Thread} {s t : State I O F} {pc pc' : CallPc I F}
    (h : CallStep u s pc t pc') (hwaiting : t.queue_process ≠ []) :
    s.queue_process ≠ [] ∨ pc' = .addJobNotify := by
  cases h with
  | add => exact .inr rfl
  | clearProcess => exact absurd rfl hwaiting
  | @create crew => cases crew <;> exact .inl hwaiting
  | @notifyAll crew => cases crew <;> exact .inl hwaiting
  | @returns _ _ ret => cases ret <;> exact .inl hwaiting
  | _ => exact .inl hwaiting

/-- The `notify_all` of a call that fires comes, or it has just come. -/
theorem CallStep.notifiesAll {u : Thread} {s t : State I O F} {pc pc' : CallPc I F}
    (h : CallStep u s pc t pc') (hpc : pc.notifiesAll = true) :
    pc'.notifiesAll = true ∨ t.cv_jobAdd = [] ∧ t.info = s.info := by
  cases h with
  | go h =>
      cases h with
      | @hire crew _ _ _ _ h => cases h <;> cases crew <;> cases hpc
      | _ => cases hpc
  | lockProcess h | unlockProcess h | lockOutput h | unlockOutput h => cases h <;> cases hpc
  | @setQuit crew =>
      cases crew with
      | callback => cases hpc
      | process => exact .inl rfl
  | @notifyAll crew =>
      cases crew with
      | callback => cases hpc
      | process => exact .inr ⟨rfl, rfl⟩
  | @create crew | @pushBack crew | @popFront crew => cases crew <;> cases hpc
  | @returns crew _ ret pc h => cases h <;> cases crew <;> cases hpc
  | _ => cases hpc

/-- A new process worker looks into the queue first. -/
theorem CallStep.newcomer {u : Thread} {s t : State I O F} {pc pc' : CallPc I F}
    (h : CallStep u s pc t pc') : t.hired .process = s.hired .process ∨ t.SomeLooks := by
  cases h with
  | @create crew =>
      cases crew with
      | callback => exact .inl rfl
      | process =>
          refine .inr ⟨s.hired .process, ?_, ?_⟩
          · simp [startWorker]
          · simp [State.looks, startWorker, ProcessPc.leaving]
  | @notifyAll crew => cases crew <;> exact .inl rfl
  | @returns _ _ ret => cases ret <;> exact .inl rfl
  | _ => exact .inl rfl

theorem Alike.looks {s t : State I O F} (h : Alike s t) (i : ℕ) : t.looks i = s.looks i := by
  unfold State.looks
  rw [h.info, h.processPc, h.cv_jobAdd]

theorem Alike.someLooks {s t : State I O F} (h : Alike s t) (hs : s.SomeLooks) : t.SomeLooks := by
  obtain ⟨i, hi, hlooks⟩ := hs
  exact ⟨i, by rwa [h.hired], by rwa [h.looks]⟩

theorem State.Heeded.of_call {u : Thread} {s s' t : State I O F} {pc : CallPc I F}
    (h : CallStep u s (s.doing u) s' pc) (hdoing : t.doing = Function.update s.doing u pc)
    (halike : Alike s' t) (hborn : Unborn s) (hs : Sleepers s) (hwaiting : s.queue_process ≠ [])
    (hheeded : s.Heeded) : t.Heeded := by
  have hpcs : s'.processPc = s.processPc := (h.workers hborn).1
  have htold : pc.notifiesAll = true → t.Heeded := fun hpc =>
    .inr (.inl ⟨u, by rwa [hdoing, Function.update_self]⟩)
  rcases hheeded with ⟨i, hi, hlooks⟩ | ⟨v, hv⟩ | hnobody
  · cases hquit : (s'.info .process i).quit with
    | true =>
        rcases h.told hquit with hbefore | ⟨-, hpc⟩
        · simp [State.looks, hbefore] at hlooks
        · exact htold hpc
    | false =>
        have hstay : (s.info .process i).quit = false := by
          by_contra hbefore
          have hquit' := h.quit_stays hi.ne (by simpa using hbefore)
          cases hquit.symm.trans hquit'
        refine .inl (halike.someLooks ⟨i, hi.trans_le (h.hired_le .process), ?_⟩)
        exact State.looks_mono (by rw [hpcs]) (hquit.trans hstay.symm)
          (fun hmem => h.jobAdd_sublist.subset hmem) hlooks
  · by_cases hvu : v = u
    · subst hvu
      rcases h.notifiesAll hv with hpc | ⟨hcv, hinfo⟩
      · exact htold hpc
      · exact hs.all_woken (halike.cv_jobAdd.trans hcv) (halike.processPc.trans hpcs)
          (halike.info.trans hinfo) hwaiting
    · exact .inr (.inl ⟨v, by rwa [hdoing, Function.update_of_ne hvu]⟩)
  · rcases h.newcomer with hsame | hlooks
    · refine .inr (.inr fun i hi => ?_)
      rw [halike.hired, hsame] at hi
      rw [halike.info]
      exact h.quit_stays hi.ne (hnobody i hi)
    · exact .inl (halike.someLooks hlooks)

theorem Activity.jobsAttended {process : I → O} {s t : State I O F} {a : Action I F}
    (h : Activity process s a t) (hst : step process s a = some t) (hG : WakesStaying s a)
    (hborn : Unborn s) (hguards : (s.mutex .process).Guards (s.holds .process))
    (hs : Sleepers s) (hatt : s.JobsAttended) : t.JobsAttended := by
  cases h with
  | process hi h ha hdoing => exact h.jobsAttended hdoing hatt
  | callback hi h ha hdoing hout hframe =>
      intro hwaiting
      rw [hframe.queue_process] at hwaiting
      have hlooks : ∀ i, t.looks i = s.looks i := by
        intro i
        unfold State.looks
        rw [hframe.info, hframe.processPc, hframe.cv_jobAdd]
      simp only [State.Heeded, State.SomeLooks, hlooks, hdoing, hframe.hired, hframe.info]
      exact hatt hwaiting
  | @call u s' pc ha h hdoing halike =>
      intro hwaiting
      rw [halike.queue_process] at hwaiting
      rcases h.waiting hwaiting with hbefore | hpc
      · rcases hatt hbefore with hheeded | ⟨v, hv⟩
        · exact .inl (hheeded.of_call h hdoing halike hborn hs hbefore)
        · by_cases hvu : v = u
          · subst hvu
            have hcall : s.call a = some .addJobNotify := ha.2.trans (congrArg some hv)
            have hframe : s'.info = s.info ∧ s'.hired = s.hired := by
              generalize s.doing v = pc' at h hv
              subst hv
              cases h with
              | go h | lockProcess h | unlockProcess h | lockOutput h | unlockOutput h => cases h
              | notify => exact ⟨rfl, rfl⟩
            -- the notification that was due is issued now, and the run says whom it may wake
            have hwakes : ∀ i, a.wake.filter (· ∈ s.cv_jobAdd) = some (.worker .process i) →
                (s.info .process i).quit = true → s.Heeded := by
              intro i hi
              refine hG i ?_
              rw [State.wakes, hcall]
              exact hi
            rcases hs.notified hguards hv hwakes (step_notify hst hcall)
              (halike.processPc.trans (h.workers hborn).1) (halike.info.trans hframe.1)
              (halike.hired.trans hframe.2) with hlooks | hheeded
            · exact .inl (.inl hlooks)
            · exact .inl (hheeded.of_call h hdoing halike hborn hs hbefore)
          · exact .inr ⟨v, by rwa [hdoing, Function.update_of_ne hvu]⟩
      · exact .inr ⟨u, by rwa [hdoing, Function.update_self]⟩
  | @entry u pc ha hout hdoing halike =>
      intro hwaiting
      rw [halike.queue_process] at hwaiting
      have hkept : ∀ v, s.doing v ≠ .out → t.doing v = s.doing v := by
        intro v hv
        rw [hdoing, Function.update_of_ne]
        rintro rfl
        exact hv hout
      rcases hatt hwaiting with (hlooks | ⟨v, hv⟩ | hnobody) | ⟨v, hv⟩
      · exact .inl (.inl (halike.someLooks hlooks))
      · refine .inl (.inr (.inl ⟨v, ?_⟩))
        rw [hkept v]
        · exact hv
        · intro hno
          rw [hno] at hv
          cases hv
      · refine .inl (.inr (.inr ?_))
        rw [halike.hired, halike.info]
        exact hnobody
      · refine .inr ⟨v, ?_⟩
        rw [hkept v]
        · exact hv
        · intro hno
          cases hno.symm.trans hv
  | spurious ha hdoing ht =>
      subst ht
      intro hwaiting
      rw [hdoing]
      refine (hatt hwaiting).imp_left ?_
      rintro (⟨i, hi, hlooks⟩ | hall | hnobody)
      · refine .inl ⟨i, hi, State.looks_mono (s := s) rfl rfl ?_ hlooks⟩
        exact fun hmem => List.mem_of_mem_erase hmem
      · exact .inr (.inl (by rwa [hdoing]))
      · exact .inr (.inr hnobody)

/-! ## Every run -/

theorem JobStranded.unattended {s : State I O F} (h : JobStranded s) (hs : Sleepers s) :
    ¬ s.JobsAttended := by
  intro hatt
  rcases hatt h.waiting with (⟨i, hi, hlooks⟩ | ⟨u, hu⟩ | hnobody) | ⟨u, hu⟩
  · rcases h.asleep i hi with hpc | ⟨hpc, hmem⟩
    · simp [State.looks, hpc, ProcessPc.leaving] at hlooks
    · simp [State.looks, hpc, hmem] at hlooks
  · have hquiet := (h.quiet u).2
    generalize s.doing u = pc at hu hquiet
    unfold CallPc.notifiesAll at hu
    split at hu <;> first | cases hquiet | cases hu
  · obtain ⟨i, hi, hnotEnded⟩ := h.worker
    rcases hs.fired i (hnobody i hi) with hended | ⟨u, hu⟩
    · exact hnotEnded hended
    · have hquiet := (h.quiet u).2
      generalize s.doing u = pc at hu hquiet
      unfold CallPc.fires at hu
      split at hu <;> first | cases hquiet | cases hu
  · exact (h.quiet u).1 (by rw [hu]; rfl)

/-- No job is stranded in a run in which no `addJob` wakes a worker that was told to quit
over all others. -/
theorem no_job_stranded {process : I → O} {workerCnt : ℕ} {s : State I O F}
    (h : (machine process workerCnt).ReachBy WakesStaying s) : ¬ JobStranded s := by
  suffices hatt : s.JobsAttended from fun hstr => hstr.unattended (sleepers h) hatt
  refine h.invariant (P := State.JobsAttended) ?_ ?_
  · rintro s rfl hwaiting
    exact absurd rfl hwaiting
  · intro s a t hreach hatt hG hst
    exact ((step_cases hst).activity (unborn hreach)).jobsAttended hst hG (unborn hreach)
      (guards_of_reach hreach .process) (sleepers hreach) hatt

/-- The action is an `addJob` that wakes a worker that was told to quit. -/
def State.wakesFired (s : State I O F) (a : Action I F) : Bool :=
  match s.wakes a with
  | some (.worker .process i) => (s.info .process i).quit
  | _ => false

theorem wakesStaying_of_not_fired {s : State I O F} {a : Action I F}
    (h : s.wakesFired a = false) : WakesStaying s a := by
  intro i hi hquit
  rw [State.wakesFired, hi] at h
  cases hquit.symm.trans h

/-- Three workers, and client 0 fires worker 0: it has called `notify_all` once, and only
then worker 0 has gone to sleep with the others. Client 1 has added a job and is about
to notify. -/
def runFiring : List (Action ℕ Unit) :=
  List.replicate 13 (.client 0 none) ++ List.replicate 6 (.process 1 none) ++
    List.replicate 6 (.process 2 none) ++ runProcess 5 ++
    runCall (.setProcessWorkerCount 2) 6 ++ runProcess 1 ++
    List.replicate 3 (.process 1 none) ++ List.replicate 3 (.process 2 none) ++
    [.call 1 (.addJob 7), .client 1 none, .client 1 none]

/-- The job goes to worker 1. Worker 0 is woken by the next `notify_all` and leaves. -/
theorem no_job_stranded_handed_on :
    ∃ s : State ℕ ℕ Unit, s.queue_process = [7] ∧ s.clientPc 0 = .out ∧ s.clientPc 1 = .out ∧
      ¬ JobStranded s := by
  obtain ⟨s, hs, hqueue, hzero, hone⟩ := Machine.ReachBy.of_exec (M := machine (· + 1) 3)
    (G := fun (s : State ℕ ℕ Unit) a => s.wakesFired a = false) (State.initial 3)
    (runFiring ++ [.client 1 (some (.worker .process 1)), .client 1 none] ++
      List.replicate 3 (.client 0 none) ++ runProcess 6 ++ List.replicate 4 (.client 0 none))
    (fun s : State ℕ ℕ Unit =>
      s.queue_process = [7] ∧ s.clientPc 0 = .out ∧ s.clientPc 1 = .out) rfl (by decide)
  exact ⟨s, hqueue, hzero, hone, no_job_stranded (hs.mono fun _ _ h => wakesStaying_of_not_fired h)⟩

/-- The notification goes to worker 0, which leaves before `~threadInfo` reads its status
again. -/
theorem stranded_by_fired_worker :
    ¬ ∀ s : State ℕ ℕ Unit,
      (machine (· + 1) 3).ReachBy (fun _ a => a.isSpurious = false) s → ¬ JobStranded s := by
  intro hall
  obtain ⟨s, hs, hqueue, hhired, hcallback, hzero, hworkers, hout, hidle⟩ :=
    Machine.ReachBy.of_exec (M := machine (· + 1) 3)
      (G := fun s a => a.isSpurious = false ∧ FewClients 1 s a) (State.initial 3)
      (runFiring ++ [.client 1 (some (.worker .process 0)), .client 1 none] ++
        runProcess 6 ++ List.replicate 4 (.client 0 none))
      (fun s : State ℕ ℕ Unit => s.queue_process = [7] ∧ s.hired .process = 3 ∧
        s.hired .callback = 1 ∧
        s.processPc 0 = .ended ∧ (s.processPc 1 = .wait ∧ s.processPc 2 = .wait ∧
        Thread.worker .process 1 ∈ s.cv_jobAdd ∧ Thread.worker .process 2 ∈ s.cv_jobAdd) ∧
        (s.clientPc 0 = .out ∧ s.clientPc 1 = .out) ∧ s.callbackPc 0 = .start) rfl (by decide)
  obtain ⟨hone, htwo, hmemOne, hmemTwo⟩ := hworkers
  obtain ⟨hclientZero, hclientOne⟩ := hout
  have hdoing : ∀ u, s.doing u = .out := by
    intro u
    cases u with
    | client c =>
        match c with
        | 0 => exact hclientZero
        | 1 => exact hclientOne
        | c + 2 => exact fewClients_out (hs.mono fun _ _ hG => hG.2) (c + 2) (by omega)
    | worker crew i =>
        cases crew with
        | process => rfl
        | callback =>
            have hstart : s.callbackPc i = .start := by
              match i with
              | 0 => exact hidle
              | i + 1 => exact (unborn hs).callback (i + 1) (by omega)
            rw [State.doing_callback, hstart]
            rfl
  refine hall s (hs.mono fun _ _ hG => hG.1) ?_
  refine { waiting := ?_, worker := ⟨1, ?_, ?_⟩, asleep := ?_, quiet := ?_ }
  · rw [hqueue]
    exact List.cons_ne_nil _ _
  · omega
  · rw [hone]
    nofun
  · intro i hi
    rw [hhired] at hi
    match i, hi with
    | 0, _ => exact .inl hzero
    | 1, _ => exact .inr ⟨hone, hmemOne⟩
    | 2, _ => exact .inr ⟨htwo, hmemTwo⟩
  · intro u
    rw [hdoing u]
    exact ⟨nofun, rfl⟩

end Pipeline
