import CcmakeTemplate.Pipeline.Locks
import CcmakeTemplate.Pipeline.Calls

/-!
# Wake-ups of the callback workers

A product is attended while a callback is installed if some callback worker has
yet to evaluate the predicate of its wait, or if a process worker that has pushed
has yet to call `notify_one` and finds everyone else asleep. Two steps leave a
product unattended: `setCallback` installs a callback over null and notifies
nobody, and a predicate that cannot take `mutex_outputCallback` keeps blocking
although a product and a callback are there.
-/

namespace Pipeline

open Concurrency

variable {I O F : Type}

/-! ## Who will look -/

/-- The predicate has answered `false` and the worker is not asleep yet. -/
def CallbackPc.committed : CallbackPc I O F → Bool
  | .unlockCheck false | .block => true
  | _ => false

/-- The worker has left its loop because of `quit`. -/
def CallbackPc.leaving : CallbackPc I O F → Bool
  | .leaveQuit | .exit | .ended => true
  | _ => false

/-- The worker has pushed and not called `notify_one`. -/
def ProcessPc.pushed : ProcessPc I O → Bool
  | .unlockOutput | .testCallback | .notify => true
  | _ => false

namespace State

/-- The worker evaluates the predicate again before it sleeps. -/
def awake (s : State I O F) (i : ℕ) : Bool :=
  match s.callbackPc i with
  | .wait => !decide (.worker .callback i ∈ s.cv_processFinish)
  | pc => !pc.committed && !pc.leaving

def SomeAwake (s : State I O F) : Prop := ∃ i, i < s.hired .callback ∧ s.awake i = true

instance (s : State I O F) : Decidable s.SomeAwake :=
  inferInstanceAs (Decidable (∃ i, i < s.hired .callback ∧ s.awake i = true))

/-- A `notify_one` is to come, and no worker is about to miss it. -/
def NotifyToCome (s : State I O F) : Prop :=
  (∃ i, i < s.hired .process ∧ (s.processPc i).pushed = true) ∧
    ∀ i, i < s.hired .callback → (s.callbackPc i).committed = false

instance (s : State I O F) : Decidable s.NotifyToCome :=
  inferInstanceAs (Decidable (_ ∧ ∀ i, i < s.hired .callback → (s.callbackPc i).committed = false))

/-- A product waits for a callback that is installed. -/
def Deliverable (s : State I O F) : Prop :=
  s.outputCallback.isSome = true ∧ s.queue_output.isEmpty = false

instance (s : State I O F) : Decidable s.Deliverable :=
  inferInstanceAs (Decidable (_ ∧ _))

def Attended (s : State I O F) : Prop := s.Deliverable → s.SomeAwake ∨ s.NotifyToCome

end State

/-- A product waits for an installed callback, a callback worker exists and is not
being fired, every worker sleeps, and no call that could wake one is in progress. -/
structure Stranded (s : State I O F) : Prop where
  deliverable : s.Deliverable
  worker : ∃ i, i < s.hired .callback ∧ s.callbackPc i ≠ .ended ∧ (s.info .callback i).quit = false
  callback : ∀ i, i < s.hired .callback → s.callbackPc i = .ended ∨
    s.callbackPc i = .wait ∧ .worker .callback i ∈ s.cv_processFinish
  process : ∀ i, i < s.hired .process → s.processPc i = .ended ∨
    s.processPc i = .wait ∧ .worker .process i ∈ s.cv_jobAdd
  client : ∀ c, (s.clientPc c).kind ≠ .setCallback ∧ (s.clientPc c).kind ≠ .addJob ∧
    (s.clientPc c).kind ≠ .getProduct

theorem Stranded.unattended {s : State I O F} (h : Stranded s) : ¬ s.Attended := by
  intro hatt
  rcases hatt h.deliverable with ⟨i, hi, hawake⟩ | ⟨⟨i, hi, hpush⟩, -⟩
  · rcases h.callback i hi with hpc | ⟨hpc, hmem⟩
    · simp [State.awake, hpc, CallbackPc.leaving] at hawake
    · simp [State.awake, hpc, hmem] at hawake
  · rcases h.process i hi with hpc | ⟨hpc, -⟩ <;> simp [ProcessPc.pushed, hpc] at hpush

/-! ## The runs -/

def firesCallbackWorker (s : State I O F) (a : Action I F) : Bool :=
  match s.call a with
  | some (.hireFire .callback _ (.setQuit _) _) => true
  | _ => false

def Action.isSpurious : Action I F → Bool
  | .spurious _ => true
  | _ => false

/-- No spurious wake-ups, and no callback worker is fired. -/
def CallbackCrewStays (s : State I O F) (a : Action I F) : Prop :=
  a.isSpurious = false ∧ firesCallbackWorker s a = false

instance (s : State I O F) (a : Action I F) : Decidable (CallbackCrewStays s a) :=
  inferInstanceAs (Decidable (_ ∧ _))

/-- `setCallback` installs a callback where there was none. -/
def installs (s : State I O F) (a : Action I F) : Bool :=
  match s.call a with
  | some (.setCallbackAssign (some _)) => s.outputCallback.isNone
  | _ => false

/-- The callback worker whose predicate cannot lock `mutex_outputCallback`. -/
def refused (s : State I O F) : Action I F → Option ℕ
  | .callback i _ =>
      match s.callbackPc i with
      | .tryShared => if s.mutex_outputCallback.writer.isSome then some i else none
      | _ => none
  | _ => none

/-- A callback is installed over null only while no product is queued or somebody
will look, and the predicate is refused while a product could be delivered only if
another worker will look. -/
def NoneOverlooked (s : State I O F) (a : Action I F) : Prop :=
  (installs s a = true →
    s.queue_output.isEmpty = true ∨ s.SomeAwake ∨ s.NotifyToCome) ∧
  ∀ i ∈ refused s a, s.Deliverable →
    ∃ j, j < s.hired .callback ∧ j ≠ i ∧ s.awake j = true

instance (s : State I O F) (a : Action I F) : Decidable (NoneOverlooked s a) := by
  unfold NoneOverlooked
  infer_instance

/-! ## The crew stays -/

/-- No callback worker is told to quit, and who is in `cv_processFinish` is a
callback worker inside its wait. -/
structure CrewStays (s : State I O F) : Prop where
  quit : ∀ i, (s.info .callback i).quit = false
  staying : ∀ i, (s.callbackPc i).leaving = false
  asleep : ∀ t ∈ s.cv_processFinish,
    ∃ i, t = .worker .callback i ∧ i < s.hired .callback ∧ s.callbackPc i = .wait
  nodup : s.cv_processFinish.Nodup

theorem ProcessStep.cv_sublist {process : I → O} {i : ℕ} {s t : State I O F}
    (h : ProcessStep process i s t) : t.cv_processFinish.Sublist s.cv_processFinish := by
  cases h with
  | notify hpc hcv =>
      rcases CondVar.notifyOne_eq_some hcv with ⟨hnil, rfl⟩ | ⟨u, -, rfl⟩
      · exact List.nil_sublist _
      · exact List.erase_sublist
  | _ => exact List.Sublist.refl _

theorem CallStep.cv_sublist {u : Thread} {s t : State I O F} {pc pc' : CallPc I F}
    (h : CallStep u s pc t pc') : t.cv_processFinish.Sublist s.cv_processFinish := by
  cases h with
  | @create crew => cases crew <;> exact List.Sublist.refl _
  | @notifyAll crew =>
      cases crew with
      | process => exact List.Sublist.refl _
      | callback => exact List.nil_sublist _
  | @returns _ _ ret => cases ret <;> exact List.Sublist.refl _
  | _ => exact List.Sublist.refl _

theorem CallStep.quit {u : Thread} {s t : State I O F} {pc pc' : CallPc I F}
    (h : CallStep u s pc t pc')
    (hpc : ∀ count id ret, pc ≠ .hireFire .callback count (.setQuit id) ret)
    (hs : ∀ i, (s.info .callback i).quit = false) (i : ℕ) :
    (t.info .callback i).quit = false := by
  cases h with
  | @create crew =>
      rw [startWorker_info]
      by_cases heq : (Crew.callback, i) = (crew, s.hired crew)
      · cases heq
        simp
      · rw [State.setInfo_other heq]
        exact hs i
  | @setQuit crew count id ret =>
      cases crew with
      | process => exact hs i
      | callback => exact absurd rfl (hpc count id ret)
  | @notifyAll crew => cases crew <;> exact hs i
  | @returns _ _ ret => cases ret <;> exact hs i
  | _ => exact hs i

theorem CrewStays.of_call {u : Thread} {s t : State I O F} {pc pc' : CallPc I F}
    (h : CallStep u s pc t pc')
    (hpc : ∀ count id ret, pc ≠ .hireFire .callback count (.setQuit id) ret)
    (hs : CrewStays s) : CrewStays t := by
  refine ⟨h.quit hpc hs.quit, ?_, ?_, hs.nodup.sublist h.cv_sublist⟩
  · intro i
    rcases h.frame.2 with heq | heq
    · rw [heq]
      exact hs.staying i
    · rw [heq]
      exact forall_update (P := fun _ (pc : CallbackPc I O F) => pc.leaving = false)
        hs.staying rfl i
  · intro v hv
    obtain ⟨i, rfl, hi, hwait⟩ := hs.asleep v (h.cv_sublist.subset hv)
    exact ⟨i, rfl, hi.trans_le (h.hired_le .callback), by rw [h.callbackPc_old hi, hwait]⟩

theorem CrewStays.of_process {process : I → O} {i : ℕ} {s t : State I O F}
    (h : ProcessStep process i s t) (hs : CrewStays s) : CrewStays t := by
  have hframe := h.frame
  refine ⟨fun j => ?_, fun j => ?_, ?_, hs.nodup.sublist h.cv_sublist⟩
  · rw [hframe.quit]
    exact hs.quit j
  · rw [hframe.callbackPc]
    exact hs.staying j
  · intro v hv
    rw [hframe.callbackPc, hframe.hired]
    exact hs.asleep v (h.cv_sublist.subset hv)

/-- A worker that takes a step is not asleep. -/
theorem CallbackStep.not_asleep {i : ℕ} {s t : State I O F} (h : CallbackStep i s t)
    (hs : CrewStays s) : .worker .callback i ∉ s.cv_processFinish := by
  intro hmem
  obtain ⟨j, heq, -, hwait⟩ := hs.asleep _ hmem
  cases heq
  cases h with
  | go h | sets h | leave h | lockShared h | unlockShared h =>
      rw [hwait] at h
      cases h
  | lock h =>
      rw [hwait] at h
      cases h with
      | woken hawake => exact hawake hmem
  | block hpc | pick hpc | invoke hpc | requeue hpc | nested hpc => simp [hwait] at hpc

/-- An awake worker moves on inside its loop. -/
theorem CrewStays.move {s t : State I O F} (hs : CrewStays s) {i : ℕ} {pc : CallbackPc I O F}
    (hi : .worker .callback i ∉ s.cv_processFinish)
    (hquit : ∀ j, (t.info .callback j).quit = (s.info .callback j).quit)
    (hcv : t.cv_processFinish = s.cv_processFinish) (hhired : t.hired = s.hired)
    (hpc : t.callbackPc = Function.update s.callbackPc i pc) (hstay : pc.leaving = false) :
    CrewStays t := by
  refine ⟨?_, ?_, ?_, ?_⟩
  · intro j
    rw [hquit]
    exact hs.quit j
  · rw [hpc]
    exact forall_update (P := fun _ (pc : CallbackPc I O F) => pc.leaving = false)
      hs.staying hstay
  · intro v hv
    rw [hcv] at hv
    obtain ⟨j, rfl, hj, hwait⟩ := hs.asleep v hv
    have hne : j ≠ i := fun heq => hi (heq ▸ hv)
    exact ⟨j, rfl, by rwa [hhired], by rw [hpc, Function.update_of_ne hne, hwait]⟩
  · rw [hcv]
    exact hs.nodup

theorem CallbackGo.staying {s : State I O F} {i : ℕ} {pc pc' : CallbackPc I O F}
    (h : CallbackGo s i pc pc') (hquit : (s.info .callback i).quit = false) :
    pc'.leaving = false := by
  cases h with
  | stop h | quit h => simp [hquit] at h
  | _ => rfl

theorem CallbackSets.staying {status : ThreadStatus} {pc pc' : CallbackPc I O F}
    (h : CallbackSets pc status pc') (hpc : pc.leaving = false) : pc'.leaving = false := by
  cases h with
  | exit => cases hpc
  | _ => rfl

theorem CallbackLeaves.staying {pc pc' : CallbackPc I O F} (h : CallbackLeaves pc pc')
    (hpc : pc.leaving = false) : pc'.leaving = false := by
  cases h with
  | quit => cases hpc
  | _ => rfl

theorem CrewStays.of_callback {i : ℕ} {s t : State I O F} (h : CallbackStep i s t)
    (hi : i < s.hired .callback)
    (hfire : ∀ f product call, s.callbackPc i = .inCallback f product call →
      ∀ count id ret, call ≠ .hireFire .callback count (.setQuit id) ret)
    (hs : CrewStays s) : CrewStays t := by
  have hawake := h.not_asleep hs
  have hquit := hs.quit i
  have hpc := hs.staying i
  cases h with
  | go h => exact hs.move hawake (fun _ => rfl) rfl rfl rfl (h.staying hquit)
  | sets h =>
      exact hs.move hawake (fun _ => State.setStatus_quit) rfl rfl rfl (h.staying hpc)
  | leave h => exact hs.move hawake (fun _ => rfl) rfl rfl rfl (h.staying hpc)
  | lock h =>
      refine hs.move hawake (fun _ => rfl) rfl rfl rfl ?_
      generalize s.callbackPc i = pc at h
      cases h <;> rfl
  | lockShared h =>
      refine hs.move hawake (fun _ => rfl) rfl rfl rfl ?_
      generalize s.callbackPc i = pc at h
      cases h <;> rfl
  | unlockShared h =>
      refine hs.move hawake (fun _ => rfl) rfl rfl rfl ?_
      generalize s.callbackPc i = pc at h
      cases h <;> rfl
  | block hblock =>
      refine ⟨hs.quit, forall_update (P := fun _ (pc : CallbackPc I O F) => pc.leaving = false)
        hs.staying rfl, ?_, List.nodup_cons.mpr ⟨hawake, hs.nodup⟩⟩
      intro v hv
      rcases List.mem_cons.mp hv with rfl | hv
      · exact ⟨i, rfl, hi, Function.update_self _ _ _⟩
      · obtain ⟨j, rfl, hj, hwait⟩ := hs.asleep v hv
        have hne : j ≠ i := fun heq => hawake (heq ▸ hv)
        exact ⟨j, rfl, hj, by simpa [hne] using hwait⟩
  | pick | invoke | requeue => exact hs.move hawake (fun _ => rfl) rfl rfl rfl rfl
  | @nested f product call call' s' hin h =>
      have hs' := hs.of_call h (hfire f product call hin)
      exact hs'.move (fun hmem => hawake (h.cv_sublist.subset hmem)) (fun _ => rfl) rfl rfl rfl
        rfl

theorem firesCallbackWorker_client {s : State I O F} {c : ℕ} {wake : Option Thread}
    (h : firesCallbackWorker s (.client c wake) = false) (count id : ℕ) (ret : Return) :
    s.clientPc c ≠ .hireFire .callback count (.setQuit id) ret := by
  intro hpc
  simp [firesCallbackWorker, State.call, hpc] at h

theorem firesCallbackWorker_nested {s : State I O F} {i : ℕ} {wake : Option Thread}
    (h : firesCallbackWorker s (.callback i wake) = false) {f : F} {product : O}
    {call : CallPc I F} (hpc : s.callbackPc i = .inCallback f product call) (count id : ℕ)
    (ret : Return) : call ≠ .hireFire .callback count (.setQuit id) ret := by
  rintro rfl
  simp [firesCallbackWorker, State.call, hpc] at h

theorem Step.crewStays {process : I → O} {s t : State I O F} {a : Action I F}
    (h : Step process s a t) (hG : CallbackCrewStays s a) (hs : CrewStays s) : CrewStays t := by
  cases h with
  | process hi h => exact hs.of_process h
  | callback hi h =>
      exact hs.of_callback h hi fun f product call hpc => firesCallbackWorker_nested hG.2 hpc
  | client h =>
      have ht := hs.of_call h (firesCallbackWorker_client hG.2)
      exact ⟨ht.quit, ht.staying, ht.asleep, ht.nodup⟩
  | call | destroy => exact ⟨hs.quit, hs.staying, hs.asleep, hs.nodup⟩
  | @nest i op f product hpc =>
      refine hs.move ?_ (fun _ => rfl) rfl rfl rfl rfl
      intro hmem
      obtain ⟨j, heq, -, hwait⟩ := hs.asleep _ hmem
      cases heq
      simp [hwait] at hpc
  | spurious => exact absurd hG.1 (by simp [Action.isSpurious])

/-- The constructor hires a callback worker before anything else happens. -/
theorem Step.founded {process : I → O} {workerCnt : ℕ} {s t : State I O F} {a : Action I F}
    (h : Step process s a t) (hG : a.isSpurious = false)
    (hs : s = State.initial workerCnt ∨ 0 < s.hired .callback) : 0 < t.hired .callback := by
  rcases hs with rfl | hs
  · cases h with
    | process hi | callback hi => cases hi
    | @client c wake u pc h =>
        by_cases hc : c = 0
        · subst hc
          simp only [State.initial, Function.update_self] at h
          cases h with
          | go h =>
              cases h with
              | hire h =>
                  cases h with
                  | enough h => simp at h
          | create => simp [startWorker]
          | returns h | lockProcess h | unlockProcess h | lockOutput h | unlockOutput h => cases h
        · simp only [State.initial, Function.update_of_ne hc] at h
          cases h with
          | go h => cases h
          | lockProcess h | unlockProcess h | lockOutput h | unlockOutput h => cases h
    | call halive | destroy halive => cases halive
    | nest hpc => cases hpc
    | spurious => simp [Action.isSpurious] at hG
  · cases h with
    | process hi h => rwa [h.frame.hired]
    | callback hi h =>
        cases h with
        | nested hpc h => exact hs.trans_le (h.hired_le .callback)
        | _ => exact hs
    | client h => exact hs.trans_le (h.hired_le .callback)
    | call | nest | destroy | spurious => exact hs

/-! ## Products stay attended -/

theorem State.awake_mono {s t : State I O F} {i : ℕ} (hpc : t.callbackPc i = s.callbackPc i)
    (hcv : .worker .callback i ∈ t.cv_processFinish → .worker .callback i ∈ s.cv_processFinish)
    (h : s.awake i = true) : t.awake i = true := by
  unfold State.awake at h ⊢
  rw [hpc]
  split
  · rename_i hwait
    rw [hwait] at h
    simp only [Bool.not_eq_true', decide_eq_false_iff_not] at h ⊢
    exact fun hmem => h (hcv hmem)
  · rename_i hwait
    split at h
    · rename_i hwait'
      exact absurd hwait' hwait
    · exact h

/-- Who is neither awake nor committed sleeps. -/
theorem CrewStays.mem_cv {s : State I O F} (hs : CrewStays s) {i : ℕ}
    (hawake : s.awake i = false) (hcommitted : (s.callbackPc i).committed = false) :
    s.callbackPc i = .wait ∧ .worker .callback i ∈ s.cv_processFinish := by
  unfold State.awake at hawake
  split at hawake
  · rename_i hwait
    exact ⟨hwait, by simpa using hawake⟩
  · simp [hcommitted, hs.staying i] at hawake

/-- A `notify_one` that finds nobody else awake wakes a callback worker. -/
theorem CrewStays.notified {s t : State I O F} (hs : CrewStays s) {wake : Option Thread}
    (hcv : s.cv_processFinish.notifyOne wake = some t.cv_processFinish)
    (hpc : t.callbackPc = s.callbackPc) (hhired : t.hired = s.hired)
    (hone : 0 < s.hired .callback) (hcommitted : (s.callbackPc 0).committed = false) :
    t.SomeAwake := by
  rcases CondVar.notifyOne_eq_some hcv with ⟨hnil, hnil'⟩ | ⟨v, hv, herase⟩
  · -- nobody sleeps, so worker 0 is awake
    have hawake : s.awake 0 = true := by
      by_contra hno
      have hmem := (hs.mem_cv (by simpa using hno) hcommitted).2
      simp [hnil] at hmem
    exact ⟨0, by rwa [hhired], State.awake_mono (by rw [hpc]) (by simp [hnil']) hawake⟩
  · obtain ⟨i, rfl, hi, hwait⟩ := hs.asleep v hv
    refine ⟨i, by rwa [hhired], ?_⟩
    have hgone : .worker .callback i ∉ t.cv_processFinish := by
      rw [herase]
      exact hs.nodup.not_mem_erase
    simp [State.awake, hpc, hwait, hgone]

theorem ProcessStep.attended {process : I → O} {i : ℕ} {s t : State I O F}
    (h : ProcessStep process i s t) (hi : i < s.hired .process) (hs : CrewStays s)
    (hguards : (s.mutex .callback).Guards (s.holds .callback)) (hone : 0 < s.hired .callback)
    (hatt : s.Attended) : t.Attended := by
  intro hdel
  have hframe := h.frame
  have hawake : s.SomeAwake → t.SomeAwake := by
    rintro ⟨j, hj, haw⟩
    refine ⟨j, by rwa [hframe.hired], State.awake_mono (by rw [hframe.callbackPc]) ?_ haw⟩
    exact fun hmem => h.cv_sublist.subset hmem
  have hkeep : s.Deliverable → ((s.processPc i).pushed = true → (t.processPc i).pushed = true) →
      t.SomeAwake ∨ t.NotifyToCome := by
    intro hdel' hpushed
    rcases hatt hdel' with haw | ⟨⟨j, hj, hpush⟩, hcom⟩
    · exact .inl (hawake haw)
    · refine .inr ⟨⟨j, by rwa [hframe.hired], ?_⟩, ?_⟩
      · by_cases hji : j = i
        · subst hji
          exact hpushed hpush
        · rwa [hframe.processPc j hji]
      · rw [hframe.callbackPc, hframe.hired]
        exact hcom
  cases h with
  | push hpc =>
      refine .inr ⟨⟨i, hi, by simp [ProcessPc.pushed]⟩, ?_⟩
      -- who is committed holds `mutex_output`, and so does the pusher
      intro j hj
      by_contra hcom
      have hpusher : s.holds .callback (.worker .process i) = true := by
        simp [State.holds, hpc, ProcessPc.inside]
      have hsleeper : s.holds .callback (.worker .callback j) = true := by
        have hcom : (s.callbackPc j).committed = true := by simpa using hcom
        simp only [State.holds]
        unfold CallbackPc.committed at hcom
        split at hcom
        · rename_i hpc'
          rw [hpc']
          rfl
        · rename_i hpc'
          rw [hpc']
          rfl
        · cases hcom
      cases hguards.unique hpusher hsleeper
  | notify hpc hcv =>
      by_cases haw : s.SomeAwake
      · exact .inl (hawake haw)
      · have hcom := ((hatt hdel).resolve_left haw).2
        exact .inl (hs.notified (t := { s with cv_processFinish := _ }.goProcess i .loop)
          hcv rfl rfl hone (hcom 0 hone))
  | go h =>
      refine hkeep hdel ?_
      simp only [Function.update_self]
      generalize s.processPc i = pc at h
      cases h with
      | noCallback hcb => simp [State.Deliverable, hcb] at hdel
      | _ => simp [ProcessPc.pushed]
  | sets h =>
      refine hkeep hdel ?_
      generalize s.processPc i = pc at h
      cases h <;> simp [ProcessPc.pushed]
  | leave h =>
      refine hkeep hdel ?_
      generalize s.processPc i = pc at h
      cases h <;> simp [ProcessPc.pushed]
  | lockProcess hpc =>
      refine hkeep hdel ?_
      rcases hpc with hpc | ⟨hpc, -⟩ <;> simp [hpc, ProcessPc.pushed]
  | block hpc | take hpc | pureCall hpc | lockOutput hpc | unlockOutput hpc =>
      refine hkeep hdel ?_
      simp [hpc, ProcessPc.pushed]

theorem CallStep.someAwake {u : Thread} {s t : State I O F} {pc pc' : CallPc I F}
    (h : CallStep u s pc t pc') (hs : s.SomeAwake) : t.SomeAwake := by
  obtain ⟨i, hi, hawake⟩ := hs
  refine ⟨i, hi.trans_le (h.hired_le .callback), State.awake_mono (h.callbackPc_old hi) ?_ hawake⟩
  exact fun hmem => h.cv_sublist.subset hmem

theorem startWorker_notifyToCome {s : State I O F} {crew : Crew} (hs : s.NotifyToCome) :
    (startWorker ({ s with hired := Function.update s.hired crew (s.hired crew + 1) }.setInfo crew
      (s.hired crew) {}) (s.hired crew) crew).NotifyToCome := by
  obtain ⟨⟨j, hj, hpush⟩, hcom⟩ := hs
  cases crew with
  | process =>
      refine ⟨⟨j, ?_, ?_⟩, hcom⟩
      · simp only [startWorker, Function.update_self]
        omega
      · simp only [startWorker, Function.update_of_ne hj.ne]
        exact hpush
  | callback =>
      refine ⟨⟨j, hj, hpush⟩, ?_⟩
      intro i hi
      by_cases hnew : i = s.hired .callback
      · subst hnew
        simp [startWorker, CallbackPc.committed]
      · simp only [startWorker, Function.update_self] at hi
        simp only [startWorker, Function.update_of_ne hnew]
        exact hcom i (by omega)

theorem CallStep.notifyToCome {u : Thread} {s t : State I O F} {pc pc' : CallPc I F}
    (h : CallStep u s pc t pc') (hs : s.NotifyToCome) : t.NotifyToCome := by
  cases h with
  | create => exact startWorker_notifyToCome hs
  | @notifyAll crew => cases crew <;> exact hs
  | @returns _ _ ret => cases ret <;> exact hs
  | _ => exact hs

theorem CallStep.attended {u : Thread} {s t : State I O F} {pc pc' : CallPc I F}
    (h : CallStep u s pc t pc')
    (hinstall : ∀ f, pc = .setCallbackAssign (some f) → s.outputCallback = none →
      s.queue_output.isEmpty = true ∨ s.SomeAwake ∨ s.NotifyToCome)
    (hatt : s.Attended) : t.Attended := by
  intro hdel
  have hkeep : s.SomeAwake ∨ s.NotifyToCome → t.SomeAwake ∨ t.NotifyToCome :=
    Or.imp h.someAwake h.notifyToCome
  cases h with
  | assign method =>
      cases method with
      | none => cases hdel.1
      | some f =>
          cases hcb : s.outputCallback with
          | some g => exact hkeep (hatt ⟨by rw [hcb]; rfl, hdel.2⟩)
          | none =>
              refine hkeep ((hinstall f rfl hcb).resolve_left ?_)
              exact fun hempty => by simp [hdel.2] at hempty
  | fetch hq => exact hkeep (hatt ⟨hdel.1, by simp [hq]⟩)
  | clearOutput => simp [State.Deliverable] at hdel
  | @create crew => cases crew <;> exact hkeep (hatt hdel)
  | @notifyAll crew => cases crew <;> exact hkeep (hatt hdel)
  | @returns _ _ ret => cases ret <;> exact hkeep (hatt hdel)
  | _ => exact hkeep (hatt hdel)

theorem CallbackStep.attended {i : ℕ} {s t : State I O F} (h : CallbackStep i s t)
    (hi : i < s.hired .callback) (hs : CrewStays s)
    (hrefused : s.callbackPc i = .tryShared → s.mutex_outputCallback.writer.isSome = true →
      s.Deliverable → ∃ j, j < s.hired .callback ∧ j ≠ i ∧ s.awake j = true)
    (hatt : s.Attended) : t.Attended := by
  intro hdel
  have hquit := hs.quit i
  have hstay := hs.staying i
  -- another worker that is awake stays awake when worker `i` moves
  have hother : ∀ {pc : CallbackPc I O F} {s' : State I O F}, s'.hired = s.hired →
      s'.callbackPc = Function.update s.callbackPc i pc →
      (∀ j, j ≠ i → .worker .callback j ∈ s'.cv_processFinish →
        .worker .callback j ∈ s.cv_processFinish) →
      (∃ j, j < s.hired .callback ∧ j ≠ i ∧ s.awake j = true) → s'.SomeAwake := by
    rintro pc s' hhired hpc hcv ⟨j, hj, hji, hawake⟩
    refine ⟨j, by rwa [hhired], State.awake_mono ?_ (hcv j hji) hawake⟩
    rw [hpc, Function.update_of_ne hji]
  -- a worker that is about to sleep was not counted on
  have hcounted : s.Deliverable → (s.callbackPc i).committed = true → s.awake i = false →
      ∃ j, j < s.hired .callback ∧ j ≠ i ∧ s.awake j = true := by
    intro hdel' hcom hasleep
    rcases hatt hdel' with ⟨j, hj, hawake⟩ | ⟨-, hnone⟩
    · refine ⟨j, hj, ?_, hawake⟩
      rintro rfl
      simp [hasleep] at hawake
    · simp [hnone i hi] at hcom
  cases h with
  | go h =>
      generalize hpc : s.callbackPc i = pc at h
      cases h with
      | stop hq | quit hq => simp [hquit] at hq
      | refused hw =>
          refine .inl (hother rfl rfl (fun _ _ hmem => hmem) (hrefused hpc ?_ hdel))
          simpa [Option.isSome_iff_ne_none] using hw
      | tested ready hready =>
          cases ready with
          | true =>
              exact .inl ⟨i, hi, by simp [State.awake, CallbackPc.committed, CallbackPc.leaving]⟩
          | false =>
              have hcb := hdel.1
              have hq := hdel.2
              simp only at hcb hq
              simp [hquit, hcb, hq] at hready
      | _ => exact .inl ⟨i, hi, by simp [State.awake, CallbackPc.committed, CallbackPc.leaving]⟩
  | sets h =>
      generalize hpc : s.callbackPc i = pc at h
      cases h with
      | exit => simp [hpc, CallbackPc.leaving] at hstay
      | _ => exact .inl ⟨i, hi, by simp [State.awake, CallbackPc.committed, CallbackPc.leaving]⟩
  | lock h =>
      generalize s.callbackPc i = pc at h
      cases h <;>
        exact .inl ⟨i, hi, by simp [State.awake, CallbackPc.committed, CallbackPc.leaving]⟩
  | leave h =>
      generalize hpc : s.callbackPc i = pc at h
      cases h with
      | quit => simp [hpc, CallbackPc.leaving] at hstay
      | _ => exact .inl ⟨i, hi, by simp [State.awake, CallbackPc.committed, CallbackPc.leaving]⟩
  | lockShared h =>
      generalize s.callbackPc i = pc at h
      cases h <;>
        exact .inl ⟨i, hi, by simp [State.awake, CallbackPc.committed, CallbackPc.leaving]⟩
  | unlockShared h =>
      generalize hpc : s.callbackPc i = pc at h
      cases h with
      | sleep =>
          refine .inl (hother rfl rfl (fun _ _ hmem => hmem) (hcounted hdel ?_ ?_))
          · rw [hpc]
            rfl
          · simp [State.awake, hpc, CallbackPc.committed]
      | _ => exact .inl ⟨i, hi, by simp [State.awake, CallbackPc.committed, CallbackPc.leaving]⟩
  | block hpc =>
      refine .inl (hother rfl rfl ?_ (hcounted hdel ?_ ?_))
      · intro j hji hmem
        rcases List.mem_cons.mp hmem with heq | hmem
        · cases heq
          exact absurd rfl hji
        · exact hmem
      · rw [hpc]
        rfl
      · simp [State.awake, hpc, CallbackPc.committed]
  | pick | invoke | requeue =>
      exact .inl ⟨i, hi, by simp [State.awake, CallbackPc.committed, CallbackPc.leaving]⟩
  | nested hpc h =>
      exact .inl ⟨i, hi.trans_le (h.hired_le .callback),
        by simp [State.awake, CallbackPc.committed, CallbackPc.leaving]⟩

/-! ## Every run -/

def CallbacksAttended (s : State I O F) (a : Action I F) : Prop :=
  CallbackCrewStays s a ∧ NoneOverlooked s a

instance (s : State I O F) (a : Action I F) : Decidable (CallbacksAttended s a) :=
  inferInstanceAs (Decidable (_ ∧ _))

theorem crewStays {process : I → O} {workerCnt : ℕ} {s : State I O F}
    (h : (machine process workerCnt).ReachBy CallbackCrewStays s) : CrewStays s := by
  refine h.invariant (P := CrewStays) ?_ ?_
  · rintro s rfl
    exact ⟨fun _ => rfl, fun _ => rfl, by simp [State.initial], List.nodup_nil⟩
  · intro s a t _ hs hG hst
    exact (step_cases hst).crewStays hG hs

theorem founded {process : I → O} {workerCnt : ℕ} {s : State I O F}
    (h : (machine process workerCnt).ReachBy CallbackCrewStays s) :
    s = State.initial workerCnt ∨ 0 < s.hired .callback := by
  refine h.invariant (P := fun s => s = State.initial workerCnt ∨ 0 < s.hired .callback)
    (fun s hs => .inl hs) ?_
  intro s a t _ hs hG hst
  exact .inr ((step_cases hst).founded hG.1 hs)

theorem Step.attended {process : I → O} {s t : State I O F} {a : Action I F}
    (h : Step process s a t) (hG : CallbacksAttended s a) (hs : CrewStays s)
    (hguards : (s.mutex .callback).Guards (s.holds .callback)) (hone : 0 < t.hired .callback)
    (hatt : s.Attended) : t.Attended := by
  have hinstalls := hG.2.1
  cases h with
  | process hi h => exact h.attended hi hs hguards (by rwa [h.frame.hired] at hone) hatt
  | @callback i wake _ hi h =>
      refine h.attended hi hs ?_ hatt
      intro hpc hw hdel
      exact hG.2.2 i (by simp [refused, hpc, hw]) hdel
  | client h =>
      refine h.attended ?_ hatt
      intro f hpc hcb
      exact hinstalls (by simp [installs, State.call, hpc, hcb])
  | call | destroy => exact hatt
  | spurious => exact absurd hG.1.1 (by simp [Action.isSpurious])
  | @nest i op f product hpc hi =>
      intro _
      exact .inl ⟨i, hi, by simp [State.awake, CallbackPc.committed, CallbackPc.leaving]⟩

/-- No product is stranded in a run in which no callback is installed, and no
predicate refused, over a product that nobody else would look at. -/
theorem never_stranded {process : I → O} {workerCnt : ℕ} {s : State I O F}
    (h : (machine process workerCnt).ReachBy CallbacksAttended s) : ¬ Stranded s := by
  suffices hatt : s.Attended from fun hstr => hstr.unattended hatt
  refine h.invariant (P := State.Attended) ?_ ?_
  · rintro s rfl hdel
    cases hdel.1
  · intro s a t hreach hatt hG hst
    have hstays : (machine process workerCnt).ReachBy CallbackCrewStays s :=
      hreach.mono fun _ _ h => h.1
    have hone := (step_cases hst).founded hG.1.1 (founded hstays)
    exact (step_cases hst).attended hG (crewStays hstays) (guards_of_reach hreach .callback) hone
      hatt

/-- A callback is installed first, then a product is pushed and its push wakes the
callback worker. -/
theorem never_stranded_woken :
    ∃ s : State ℕ ℕ Unit, (s.queue_output = [2] ∧ s.awake 0 = true) ∧ ¬ Stranded s := by
  obtain ⟨s, hs, hread⟩ := Machine.ReachBy.of_exec (M := machine (· + 1) 1)
    (G := CallbacksAttended) (State.initial 1)
    (runConstructor ++ runCall (.setCallback (some ())) 3 ++ runCallback 8 ++
      runCall (.addJob 1) 4 ++ runProcess 13 ++ [.process 0 (some (.worker .callback 0))])
    (fun s : State ℕ ℕ Unit => s.queue_output = [2] ∧ s.awake 0 = true) rfl (by decide)
  exact ⟨s, hread, never_stranded hs⟩

/-- The callback worker sleeps, a product is pushed without a callback, and then
`setCallback` installs one and notifies nobody. -/
theorem stranded_by_setCallback :
    ¬ ∀ s : State ℕ ℕ Unit, (machine (· + 1) 1).ReachBy CallbackCrewStays s → ¬ Stranded s := by
  intro hall
  obtain ⟨s, hs, hdel, hhired, hcallback, hprocess, hclient⟩ := Machine.ReachBy.of_exec
    (M := machine (· + 1) 1) (G := fun s a => CallbackCrewStays s a ∧ FirstClient s a)
    (State.initial 1)
    (runConstructor ++ runCallback 8 ++ runCall (.addJob 1) 4 ++ runProcess 18 ++
      runCall (.setCallback (some ())) 3)
    (fun s : State ℕ ℕ Unit => s.Deliverable ∧
      (s.hired .callback = 1 ∧ s.hired .process = 1) ∧
      (s.callbackPc 0 = .wait ∧ .worker .callback 0 ∈ s.cv_processFinish ∧
        (s.info .callback 0).quit = false) ∧
      (s.processPc 0 = .wait ∧ .worker .process 0 ∈ s.cv_jobAdd) ∧ s.clientPc 0 = .out)
    rfl (by decide)
  refine hall s (hs.mono fun _ _ h => h.1) ⟨hdel, ?_, ?_, ?_, ?_⟩
  · exact ⟨0, by omega, by simp [hcallback.1], hcallback.2.2⟩
  · intro i hi
    obtain rfl : i = 0 := by omega
    exact .inr ⟨hcallback.1, hcallback.2.1⟩
  · intro i hi
    obtain rfl : i = 0 := by omega
    exact .inr hprocess
  · intro c
    have hout : s.clientPc c = .out := by
      by_cases hc : c = 0
      · rw [hc, hclient]
      · exact firstClient_out (hs.mono fun _ _ h => h.2) c hc
    simp [hout, CallPc.kind]

end Pipeline
