import CcmakeTemplate.Pipeline.Roster
import CcmakeTemplate.Pipeline.Barrier

/-!
# What `getQueueCount` counts

`getQueueCount` owns both mutexes from the sizes of the queues to the end of its loop over
the status flags. Nobody takes a job or pushes a product meanwhile, so the workers that
have a job in hand stay the same, and each of them is in the list and `BUSY`. The loop
finds them all. It may also find workers that are `BUSY` without a job, one at most for
each worker on the list.
-/

namespace Pipeline

open Concurrency

variable {I O F : Type}

/-! ## Workers with a job are busy -/

/-- The worker has popped a job and not pushed its product. -/
def ProcessPc.makes : ProcessPc I O → Bool
  | .leaveTake _ | .callProcess _ | .pureVirtualCall _ | .lockOutput _ | .push _ => true
  | _ => false

def ProcessPc.working : ProcessPc I O → Bool
  | .branch => true
  | pc => pc.makes

theorem ProcessPc.makes_eq (process : I → O) (pc : ProcessPc I O) :
    pc.makes = (pc.making process).isSome := by
  cases pc <;> rfl

theorem ProcessPc.working_of_makes {pc : ProcessPc I O} (h : pc.makes = true) :
    pc.working = true := by
  cases pc with
  | branch => rfl
  | _ => exact h

def BusyWorkers (s : State I O F) : Prop :=
  ∀ i, (s.processPc i).working = true → (s.info .process i).status = .BUSY

theorem CallStep.status {u : Thread} {s t : State I O F} {pc pc' : CallPc I F}
    (h : CallStep u s pc t pc') {crew : Crew} {i : ℕ} (hi : i ≠ s.hired crew) :
    (t.info crew i).status = (s.info crew i).status := by
  cases h with
  | @create crew' =>
      rw [startWorker_info, State.setInfo_other]
      rintro ⟨⟩
      exact hi rfl
  | @setQuit crew' _ id =>
      by_cases heq : (crew, i) = (crew', id)
      · cases heq
        simp
      · rw [State.setInfo_other heq]
  | @notifyAll crew' => cases crew' <;> rfl
  | @returns _ _ ret => cases ret <;> rfl
  | _ => rfl

theorem ProcessStep.busyWorkers {process : I → O} {i : ℕ} {s t : State I O F}
    (h : ProcessStep process i s t) (hs : BusyWorkers s) : BusyWorkers t := by
  intro j hj
  by_cases hji : j = i
  · subst hji
    cases h with
    | @sets status pc h =>
        simp only [Function.update_self] at hj
        generalize s.processPc j = old at h
        cases h with
        | busy => exact State.setStatus_self
        | _ => cases hj
    | go h | leave h =>
        simp only [Function.update_self] at hj
        refine hs j ?_
        generalize s.processPc j = old at h ⊢
        cases h <;> first | exact hj | rfl
    | take hpc | pureCall hpc | lockOutput hpc =>
        refine hs j ?_
        rw [hpc]
        rfl
    | lockProcess | block | push | unlockOutput | notify =>
        simp only [Function.update_self] at hj
        cases hj
  · rw [h.frame.processPc j hji] at hj
    rw [h.frame.info .process j (by simpa using hji)]
    exact hs j hj

theorem BusyWorkers.step {process : I → O} {s t : State I O F} {a : Action I F}
    (h : Activity process s a t) (hborn : Unborn s) (hs : BusyWorkers s) : BusyWorkers t := by
  cases h with
  | process hi h => exact h.busyWorkers hs
  | callback hi h ha hdoing hout hframe =>
      intro j hj
      rw [hframe.processPc] at hj
      rw [hframe.info]
      exact hs j hj
  | call ha h hdoing halike =>
      intro j hj
      rw [halike.processPc, (h.workers hborn).1] at hj
      rw [halike.info, h.status, hs j hj]
      rintro rfl
      rw [hborn.process _ le_rfl] at hj
      cases hj
  | entry ha hout hdoing halike =>
      intro j hj
      rw [halike.processPc] at hj
      rw [halike.info]
      exact hs j hj
  | spurious ha hdoing ht =>
      subst ht
      exact hs

theorem busyWorkers {G : State I O F → Action I F → Prop} {process : I → O} {workerCnt : ℕ}
    {s : State I O F} (h : (machine process workerCnt).ReachBy G s) : BusyWorkers s := by
  refine h.invariant (P := BusyWorkers) ?_ ?_
  · rintro s rfl i hi
    cases hi
  · intro s a t hreach hs _ hst
    exact hs.step ((step_cases hst).activity (unborn hreach)) (unborn hreach)

/-! ## Nothing moves while a thread owns both mutexes -/

theorem ProcessStep.frozen {process : I → O} {i : ℕ} {s t : State I O F}
    (h : ProcessStep process i s t) (hin : ∀ crew, (s.processPc i).inside crew = false) :
    t.queue_process = s.queue_process ∧ t.queue_output = s.queue_output ∧
      ∀ j, (t.processPc j).makes = (s.processPc j).makes := by
  have hmove : ∀ pc : ProcessPc I O, pc.makes = (s.processPc i).makes →
      ∀ j, (Function.update s.processPc i pc j).makes = (s.processPc j).makes := fun pc hpc =>
    forall_update (P := fun j (pc : ProcessPc I O) => pc.makes = (s.processPc j).makes)
      (fun _ => rfl) hpc
  cases h with
  | go h | sets h | leave h =>
      refine ⟨rfl, rfl, hmove _ ?_⟩
      generalize s.processPc i = old at h
      cases h <;> rfl
  | lockProcess hpc =>
      refine ⟨rfl, rfl, hmove _ ?_⟩
      rcases hpc with hpc | ⟨hpc, -⟩ <;> rw [hpc] <;> rfl
  | take hpc | block hpc =>
      have hproc := hin .process
      rw [hpc] at hproc
      cases hproc
  | push hpc | unlockOutput hpc =>
      have hout := hin .callback
      rw [hpc] at hout
      cases hout
  | pureCall hpc | lockOutput hpc | notify hpc =>
      refine ⟨rfl, rfl, hmove _ ?_⟩
      rw [hpc]
      rfl

theorem CallStep.frozen {u : Thread} {s t : State I O F} {pc pc' : CallPc I F}
    (h : CallStep u s pc t pc') (hin : ∀ crew, pc.inside crew = false) :
    t.queue_process = s.queue_process ∧ t.queue_output = s.queue_output := by
  cases h with
  | add | clearProcess => cases hin .process
  | fetch | clearOutput => cases hin .callback
  | @create crew => cases crew <;> exact ⟨rfl, rfl⟩
  | @notifyAll crew => cases crew <;> exact ⟨rfl, rfl⟩
  | @returns _ _ ret => cases ret <;> exact ⟨rfl, rfl⟩
  | _ => exact ⟨rfl, rfl⟩

theorem CallbackStep.frozen {i : ℕ} {s t : State I O F} (h : CallbackStep i s t)
    (hin : ∀ crew, (s.callbackPc i).inside crew = false) : t.queue_output = s.queue_output := by
  cases h with
  | pick hpc | requeue hpc =>
      have hout := hin .callback
      rw [hpc] at hout
      cases hout
  | @nested f product call call' s' hpc h =>
      refine (h.frozen fun crew => ?_).2
      have hcall := hin crew
      rw [hpc] at hcall
      cases crew <;> exact hcall
  | _ => rfl

/-- No other thread moves a job or a product while `u` is counting. -/
theorem Activity.frozen {process : I → O} {s t : State I O F} {a : Action I F} {u : Thread}
    (h : Activity process s a t) (hborn : Unborn s)
    (hguards : ∀ crew, (s.mutex crew).Guards (s.holds crew))
    (hu : (s.doing u).counting = true) (hother : t.doing u = s.doing u)
    (hsame : a.thread ≠ some u) :
    t.queue_process = s.queue_process ∧ t.queue_output = s.queue_output ∧
      ∀ j, (t.processPc j).makes = (s.processPc j).makes := by
  have hholds : ∀ crew, s.mutex crew = some u := by
    intro crew
    refine doing_owns (hguards crew) ?_
    generalize s.doing u = pc at hu
    cases pc with
    | countSizes | countScan | countUnlock => cases crew <;> rfl
    | _ => cases hu
  have houtside : ∀ v, v ≠ u → ∀ crew, s.holds crew v = false := by
    intro v hv crew
    by_contra hin
    have howner := hguards crew v (by simpa using hin)
    exact hv (Option.some.inj (howner.symm.trans (hholds crew)))
  cases h with
  | @process i hi h ha =>
      exact h.frozen fun crew => houtside (.worker .process i) (fun heq => hsame (heq ▸ ha)) crew
  | @callback i hi h ha hdoing hout hframe =>
      refine ⟨hframe.queue_process, ?_, fun j => by rw [hframe.processPc]⟩
      exact h.frozen fun crew =>
        houtside (.worker .callback i) (fun heq => hsame (heq ▸ ha)) crew
  | @call v s' pc ha h hdoing halike =>
      have hv : v ≠ u := fun heq => hsame (heq ▸ ha.1)
      have hfrozen := h.frozen fun crew => by
        by_contra hin
        have howner := doing_owns (hguards crew) (by simpa using hin)
        exact hv (Option.some.inj (howner.symm.trans (hholds crew)))
      refine ⟨halike.queue_process.trans hfrozen.1, halike.queue_output.trans hfrozen.2, ?_⟩
      intro j
      rw [halike.processPc, (h.workers hborn).1]
  | entry ha hout hdoing halike =>
      exact ⟨halike.queue_process, halike.queue_output, fun j => by rw [halike.processPc]⟩
  | spurious ha hdoing ht =>
      subst ht
      exact ⟨rfl, rfl, fun _ => rfl⟩

/-! ## The counting loop -/

/-- The workers that the call has yet to look at, and its three counters. -/
def CallPc.tally : CallPc I F → Option (List ℕ × ℕ × ℕ × ℕ)
  | .countScan rest pendingCnt finishedCnt processingCnt =>
      some (rest, pendingCnt, finishedCnt, processingCnt)
  | .countUnlock pendingCnt finishedCnt processingCnt =>
      some ([], pendingCnt, finishedCnt, processingCnt)
  | _ => none

/-- The counters are exact for the queues, and for the workers seen so far they lie between
the workers with a job and all. -/
structure Tallied (s : State I O F) (rest : List ℕ)
    (pendingCnt finishedCnt processingCnt : ℕ) : Prop where
  pending : pendingCnt = s.queue_process.length
  finished : finishedCnt = s.queue_output.length
  seen : ∃ before, before ++ rest = s.processWorkerList ∧
    before.countP (fun i => (s.processPc i).makes) ≤ processingCnt ∧ processingCnt ≤ before.length

def Tallies (s : State I O F) : Prop :=
  ∀ u rest p f n, (s.doing u).tally = some (rest, p, f, n) → Tallied s rest p f n

theorem CallPc.counting_of_tally {pc : CallPc I F} {x : List ℕ × ℕ × ℕ × ℕ}
    (h : pc.tally = some x) : pc.counting = true := by
  cases pc with
  | countScan | countUnlock => rfl
  | _ => cases h

theorem Tallied.scan {s : State I O F} (hbusy : BusyWorkers s) {id : ℕ} {rest : List ℕ}
    {p f n : ℕ} (h : Tallied s (id :: rest) p f n) :
    Tallied s rest p f (if (s.info .process id).status = .BUSY then n + 1 else n) := by
  obtain ⟨hpending, hfinished, before, hlist, hlow, hhigh⟩ := h
  refine ⟨hpending, hfinished, before ++ [id], by simpa using hlist, ?_, ?_⟩
  · rw [List.countP_append, List.countP_singleton]
    by_cases hstatus : (s.info .process id).status = .BUSY
    · rw [if_pos hstatus]
      split <;> omega
    · have hmakes : ¬ (s.processPc id).makes = true := fun hmakes =>
        hstatus (hbusy id (ProcessPc.working_of_makes hmakes))
      rw [if_neg hstatus, if_neg hmakes]
      exact hlow
  · rw [List.length_append, List.length_singleton]
    split <;> omega

theorem Tallied.of_same {s t : State I O F} {rest : List ℕ} {p f n : ℕ}
    (h : Tallied s rest p f n) (hlist : t.processWorkerList = s.processWorkerList)
    (hfrozen : t.queue_process = s.queue_process ∧ t.queue_output = s.queue_output ∧
      ∀ j, (t.processPc j).makes = (s.processPc j).makes) : Tallied t rest p f n := by
  obtain ⟨hpending, hfinished, before, hbefore, hlow, hhigh⟩ := h
  refine ⟨by rw [hfrozen.1, hpending], by rw [hfrozen.2.1, hfinished], before, ?_, ?_, hhigh⟩
  · rw [hlist, hbefore]
  · simpa only [hfrozen.2.2] using hlow

/-- The list stays as it is while somebody is counting. -/
theorem Activity.list_same {process : I → O} {s t : State I O F} {a : Action I F} {u : Thread}
    (h : Activity process s a t) (huse : ListUse s) (hu : (s.doing u).counting = true) :
    t.processWorkerList = s.processWorkerList := by
  cases h with
  | process hi h => exact congrFun h.frame.workerList _
  | callback hi h ha hdoing hout hframe => exact congrFun hframe.workerList _
  | @call v s' pc ha h hdoing halike =>
      refine (congrFun halike.workerList _).trans ?_
      cases h.listStep .process with
      | same hlist | created hlist => exact hlist
      | appended id hcreates hlist hhired hres | removed hcreates hold hlist hhired hres =>
          cases hu.symm.trans (huse.apart v u (CallPc.resizing_of_handles hres))
  | entry ha hout hdoing halike => exact congrFun halike.workerList _
  | spurious ha hdoing ht =>
      subst ht
      rfl

/-- The step of a thread that counts, or is about to. -/
theorem CallStep.tallied {u : Thread} {s t : State I O F} {pc pc' : CallPc I F}
    (h : CallStep u s pc t pc') (hbusy : BusyWorkers s)
    (hs : ∀ rest p f n, pc.tally = some (rest, p, f, n) → Tallied s rest p f n)
    {rest : List ℕ} {p f n : ℕ} (htally : pc'.tally = some (rest, p, f, n)) :
    Tallied t rest p f n := by
  cases h with
  | go h =>
      cases h with
      | sizes =>
          cases htally
          exact ⟨rfl, rfl, [], rfl, le_rfl, le_rfl⟩
      | scanned p f n =>
          cases htally
          exact hs [] p f n rfl
      | scan id rest p f n =>
          cases htally
          exact (hs (id :: rest) p f n rfl).scan hbusy
      | _ => cases htally
  | lockProcess h | unlockProcess h | lockOutput h | unlockOutput h => cases h <;> cases htally
  | @returns _ _ ret => cases ret <;> cases htally
  | _ => cases htally

theorem Tallies.step {process : I → O} {s t : State I O F} {a : Action I F}
    (h : Activity process s a t) (hborn : Unborn s) (huse : ListUse s)
    (hguards : ∀ crew, (s.mutex crew).Guards (s.holds crew)) (hbusy : BusyWorkers s)
    (hs : Tallies s) : Tallies t := by
  intro u rest p f n htally
  by_cases hother : t.doing u = s.doing u ∧ a.thread ≠ some u
  · rw [hother.1] at htally
    have hcounting := CallPc.counting_of_tally htally
    exact (hs u rest p f n htally).of_same (h.list_same huse hcounting)
      (h.frozen hborn hguards hcounting hother.1 hother.2)
  · cases h with
    | @process i hi h ha hdoing =>
        obtain rfl : u = .worker .process i := by
          by_contra hne
          refine hother ⟨by rw [hdoing], fun heq => hne ?_⟩
          exact (Option.some.inj (ha.symm.trans heq)).symm
        cases htally
    | @callback i hi h ha hdoing hout =>
        obtain rfl : u = .worker .callback i := by
          by_contra hne
          refine hother ⟨by rw [hdoing], fun heq => hne ?_⟩
          exact (Option.some.inj (ha.symm.trans heq)).symm
        rw [hdoing, hout] at htally
        cases htally
    | @call v s' pc ha h hdoing halike =>
        obtain rfl : v = u := by
          by_contra hne
          refine hother ⟨by rw [hdoing, Function.update_of_ne (Ne.symm hne)], fun heq => hne ?_⟩
          exact Option.some.inj (ha.1.symm.trans heq)
        rw [hdoing, Function.update_self] at htally
        refine (h.tallied hbusy (hs v) htally).of_same (congrFun halike.workerList _)
          ⟨halike.queue_process, halike.queue_output, fun j => by rw [halike.processPc]⟩
    | @entry v pc ha hout hdoing halike =>
        have hne : u ≠ v := by
          rintro rfl
          rw [hdoing, Function.update_self] at htally
          cases (Action.entry_counting ha).symm.trans (CallPc.counting_of_tally htally)
        rw [hdoing, Function.update_of_ne hne] at htally
        exact (hs u rest p f n htally).of_same (congrFun halike.workerList _)
          ⟨halike.queue_process, halike.queue_output, fun j => by rw [halike.processPc]⟩
    | spurious ha hdoing ht =>
        subst ha
        exact absurd ⟨by rw [hdoing], nofun⟩ hother

theorem tallies {process : I → O} {workerCnt : ℕ} {s : State I O F}
    (h : (machine process workerCnt).ReachBy Apart s) : Tallies s := by
  refine h.invariant (P := Tallies) ?_ ?_
  · intro s hinit u rest p f n htally
    rcases doing_initial hinit u with hout | ⟨-, hcall⟩
    · rw [hout] at htally
      cases htally
    · rw [hcall] at htally
      cases htally
  · intro s a t hreach hs _ hst
    exact hs.step ((step_cases hst).activity (unborn hreach)) (unborn hreach) (listUse hreach)
      (guards_of_reach hreach) (busyWorkers hreach)

/-! ## The result -/

/-- The products that have left `queue_output` and are not back in it. -/
def State.removed (s : State I O F) : ℕ :=
  s.fetched.length + s.invoked.length +
    (inHands (s.hired .callback) fun i => (s.callbackPc i).holding).card

/-- The jobs added whose products have not left `queue_output`. -/
def State.outstanding (s : State I O F) : ℕ := s.added.length - s.removed

def State.makers (process : I → O) (s : State I O F) : ℕ :=
  (inHands (s.hired .process) fun i => (s.processPc i).making process).card

/-- Every added job waits, is in the hands of a worker, is finished or has left. -/
theorem added_eq {process : I → O} {workerCnt : ℕ} {s : State I O F}
    (h : (machine process workerCnt).ReachBy BeforeDestruction s) :
    s.added.length = s.queue_process.length + s.makers process + s.queue_output.length +
      s.removed := by
  have hcard := congrArg Multiset.card (job_conservation h).1
  simp only [Multiset.card_add, Multiset.coe_card, List.length_map] at hcard
  simp only [State.removed, State.makers]
  omega

/-- While somebody counts, every worker with a job in hand is in the list. -/
theorem makers_le (process : I → O) {s : State I O F} (hlisted : Enlisted .process s)
    (hfree : ∀ v, (s.doing v).resizing = false) :
    s.makers process ≤ s.processWorkerList.countP fun i => (s.processPc i).makes := by
  rw [State.makers, card_inHands, List.countP_eq_length_filter]
  refine le_trans (Finset.card_le_card fun i hi => ?_) (List.toFinset_card_le _)
  obtain ⟨hi, hmaking⟩ := Finset.mem_filter.mp hi
  rw [← ProcessPc.makes_eq] at hmaking
  rw [List.mem_toFinset, List.mem_filter]
  refine ⟨?_, hmaking⟩
  rcases hlisted.listed i (Finset.mem_range.mp hi) with hmem | hended | ⟨u, hu⟩
  · exact hmem
  · rw [State.ended_process hended] at hmaking
    cases hmaking
  · cases (hfree u).symm.trans (CallPc.resizing_of_handles (CallPc.handles_of_creates hu))

/-- The counts at the end of a `getQueueCount`: the queues are as long as it says, and it has
counted at least the makers and at most the process workers. -/
theorem counted {process : I → O} {workerCnt : ℕ} {s : State I O F} {u : Thread}
    {pendingCnt finishedCnt processingCnt : ℕ} (h : (machine process workerCnt).ReachBy Apart s)
    (hpc : s.doing u = .countUnlock pendingCnt finishedCnt processingCnt) :
    (pendingCnt = s.queue_process.length ∧ finishedCnt = s.queue_output.length) ∧
      s.makers process ≤ processingCnt ∧ processingCnt ≤ s.processWorkerList.length := by
  have htally := tallies h u [] pendingCnt finishedCnt processingCnt (by rw [hpc]; rfl)
  obtain ⟨hpending, hfinished, before, hlist, hlow, hhigh⟩ := htally
  rw [List.append_nil] at hlist
  subst hlist
  have hfree : ∀ v, (s.doing v).resizing = false := by
    intro v
    by_contra hres
    have hcounting := (listUse h).apart v u (by simpa using hres)
    rw [hpc] at hcounting
    cases hcounting
  exact ⟨⟨hpending, hfinished⟩, (makers_le process (enlisted h) hfree).trans hlow, hhigh⟩

/-- What `getQueueCount` returns lies between the outstanding jobs and these plus the number
of process workers, and no pending and no processing job means that all are finished. -/
theorem queue_count_accurate {process : I → O} {workerCnt : ℕ} {s : State I O F} {u : Thread}
    {pendingCnt finishedCnt processingCnt : ℕ} (h : (machine process workerCnt).ReachBy Apart s)
    (hpc : s.doing u = .countUnlock pendingCnt finishedCnt processingCnt) :
    s.outstanding ≤ pendingCnt + processingCnt + finishedCnt ∧
      pendingCnt + processingCnt + finishedCnt ≤ s.outstanding + s.processWorkerList.length ∧
      (pendingCnt = 0 → processingCnt = 0 →
        s.queue_process = [] ∧ (∀ i < s.hired .process, (s.processPc i).making process = none) ∧
          finishedCnt = s.outstanding) := by
  obtain ⟨⟨hpending, hfinished⟩, hmakers, hworkers⟩ := counted h hpc
  have hadded := added_eq (h.mono fun _ _ h => h.1)
  have houtstanding : s.outstanding = pendingCnt + s.makers process + finishedCnt := by
    rw [State.outstanding, hpending, hfinished]
    omega
  refine ⟨by omega, by omega, fun hnone hnobody => ⟨?_, fun i hi => ?_, by omega⟩⟩
  · exact List.eq_nil_of_length_eq_zero (hpending.symm.trans hnone)
  · have hempty : s.makers process = 0 := by omega
    rw [State.makers, card_inHands, Finset.card_filter_eq_zero_iff] at hempty
    by_contra hmaking
    exact hempty i (Finset.mem_range.mpr hi) (Option.isSome_iff_ne_none.mpr hmaking)

/-! ## A crew that is never changed -/

/-- Nobody destroys the object or changes the number of process workers. -/
def Steady (_ : State I O F) (a : Action I F) : Prop :=
  a.starts ≠ .destructor ∧ a.starts ≠ .workerCount

instance (s : State I O F) (a : Action I F) : Decidable (Steady s a) :=
  inferInstanceAs (Decidable (_ ∧ _))

theorem starts_steady : Starts (fun k => k ≠ .destructor ∧ k ≠ .workerCount)
    (Steady (I := I) (O := O) (F := F)) :=
  ⟨by decide, by decide, fun _ _ h => h⟩

theorem PhaseStep.constructing {phase phase' : Phase} {kind kind' : CallKind}
    (h : PhaseStep phase kind phase' kind') (hphase : phase' = .constructing) :
    phase = .constructing := by
  cases h with
  | stay | returned => exact hphase
  | constructed | destroyed => cases hphase

/-- Before the constructor has returned nobody has installed a callback. -/
theorem no_callback_yet {G : State I O F → Action I F → Prop} {process : I → O} {workerCnt : ℕ}
    {s : State I O F} (h : (machine process workerCnt).ReachBy G s)
    (hphase : s.phase = .constructing) : s.outputCallback = none := by
  refine h.invariant (P := fun s => s.phase = .constructing → s.outputCallback = none) ?_ ?_ hphase
  · rintro s rfl -
    rfl
  · intro s a t hreach hs _ hst hphase
    have hlife := lifeCycle hreach
    have hbefore : s.phase = .constructing := by
      cases step_cases hst with
      | process hi h => rwa [h.frame.phase] at hphase
      | callback hi h => rwa [h.phase hlife] at hphase
      | client h => exact h.phaseStep.constructing hphase
      | destroy => cases hphase
      | call | nest | spurious => exact hphase
    rw [(step_cases hst).outputCallback]
    cases hassigns : s.assigns a with
    | none => exact hs hbefore
    | some method =>
        cases a with
        | client c wake =>
            have hkind := hlife.client c
            rw [hbefore] at hkind
            cases hpc : s.clientPc c with
            | setCallbackAssign =>
                rw [hpc] at hkind
                simp only [Phase.Admits, CallPc.kind] at hkind
                split at hkind <;> cases hkind
            | _ => simp [State.assigns, State.call, hpc, CallPc.assigned] at hassigns
        | callback i wake =>
            cases hpc : s.callbackPc i with
            | inCallback f product call =>
                cases call with
                | setCallbackAssign =>
                    exact absurd rfl (nested_not_setCallback hreach i f product _ hpc)
                | _ => simp [State.assigns, State.call, hpc, CallPc.assigned] at hassigns
            | _ => simp [State.assigns, State.call, hpc] at hassigns
        | _ => cases hassigns

/-- Once a call other than the constructor is in progress nobody constructs. -/
theorem constructed {G : State I O F → Action I F → Prop} {process : I → O} {workerCnt : ℕ}
    {s : State I O F} (h : (machine process workerCnt).ReachBy G s) {u : Thread}
    (hu : (s.doing u).kind = .getQueueCount) (v : Thread) : (s.doing v).kind ≠ .constructor := by
  intro hv
  have hlife := lifeCycle h
  have hphase : s.phase = .constructing := by
    cases v with
    | client c =>
        have hkind := hlife.client c
        cases hphase : s.phase with
        | constructing => rfl
        | alive =>
            rw [hphase] at hkind
            exact absurd hv hkind.1
        | destroying | destroyed =>
            rw [hphase] at hkind
            exact absurd hv hkind
    | worker crew i =>
        cases crew with
        | process => cases hv
        | callback =>
            rw [State.doing_callback] at hv
            cases hpc : s.callbackPc i with
            | inCallback f product call =>
                rw [hpc] at hv
                exact absurd hv (hlife.nested i f product call hpc).1
            | _ =>
                rw [hpc] at hv
                cases hv
  cases u with
  | client c =>
      have hkind := hlife.client c
      rw [hphase] at hkind
      simp only [State.doing] at hu
      simp only [Phase.Admits, hu] at hkind
      split at hkind <;> cases hkind
  | worker crew i =>
      cases crew with
      | process => cases hu
      | callback =>
          rw [State.doing_callback] at hu
          cases hpc : s.callbackPc i with
          | inCallback f product call =>
              have hinstalled := runsInstalled h i f product call hpc
              cases (no_callback_yet h hphase).symm.trans hinstalled
          | _ =>
              rw [hpc] at hu
              cases hu

theorem Steady.apart {process : I → O} {workerCnt : ℕ} {s : State I O F} {a : Action I F}
    (hreach : (machine process workerCnt).ReachBy Steady s) (hG : Steady s a) : Apart s a := by
  have hcalls := CallsWithin.of_reach starts_steady hreach
  refine ⟨hG.1, fun u pc ha hres => ?_, fun hlock v => ?_⟩
  · cases a with
    | call c op | nest i op =>
        cases ha
        cases op with
        | setProcessWorkerCount count => exact absurd rfl hG.2
        | _ => cases hres
    | destroy c => exact absurd rfl hG.1
    | _ => cases ha
  · have hcounts : ∃ u, (s.doing u).kind = .getQueueCount := by
      cases a with
      | client c wake => exact ⟨.client c, by rw [State.doing, Option.some.inj hlock]; rfl⟩
      | callback i wake =>
          refine ⟨.worker .callback i, ?_⟩
          rw [State.doing_callback]
          cases hpc : s.callbackPc i with
          | inCallback f product call =>
              simp only [State.call, hpc] at hlock
              cases hlock
              rfl
          | _ => simp [State.call, hpc] at hlock
      | _ => cases hlock
    obtain ⟨u, hu⟩ := hcounts
    by_contra hres
    have hkind := hcalls.doing (by decide) v
    have hconstructed := constructed hreach hu v
    generalize s.doing v = pc at hres hkind hconstructed
    unfold CallPc.resizing at hres
    split at hres
    · rename_i crew count pc ret
      cases ret with
      | caller => exact hkind.2 rfl
      | constructorProcess | constructorEnd => exact hconstructed rfl
      | destructorOutput | destructorEnd => exact hkind.1 rfl
    · exact hres rfl

/-- One job is waiting and one is in the hands of the worker. -/
theorem queue_count_accurate_busy :
    ∃ s : State ℕ ℕ Unit, s.clientPc 0 = .countUnlock 1 0 1 ∧
      s.outstanding ≤ 1 + 1 + 0 ∧ 1 + 1 + 0 ≤ s.outstanding + s.processWorkerList.length := by
  obtain ⟨s, hs, hpc⟩ := Machine.ReachBy.of_exec (M := machine (· + 1) 1) (G := Steady)
    (State.initial 1)
    (runConstructor ++ runCall (.addJob 5) 4 ++ runProcess 8 ++ runCall (.addJob 7) 4 ++
      runCall .getQueueCount 4)
    (fun s : State ℕ ℕ Unit => s.clientPc 0 = .countUnlock 1 0 1) rfl (by decide)
  have hcount := queue_count_accurate (u := .client 0)
    (hs.upgrade fun _ _ hreach hG => hG.apart hreach) hpc
  exact ⟨s, hpc, hcount.1, hcount.2.1⟩

end Pipeline
