import CcmakeTemplate.PeriodicWork.Rounds

/-!
# Epochs

Each `start` opens an epoch with a timer, a worker and a semaphore of its own. The
next `stop` joins both threads before it returns, so nothing of an epoch is left when
the next one begins: not a thread, not a buffered tick, not a callback.
-/

namespace PeriodicWork

open Concurrency Semaphore

variable {F : Type}

/-- The thread was created and has not been joined. -/
def State.Present (s : State F) (j : Job) (i : ℕ) : Prop :=
  i < s.created j ∧ (s.object j i).joined = false

/-- Client 0 is the control thread, and it makes no further call of `start`. -/
def NoStart (_ : State F) : Action F → Prop
  | .start _ => False
  | .stop c => c = 0
  | _ => True

theorem NoStart.oneControl {s : State F} {a : Action F} (h : NoStart s a) : OneControl s a := by
  cases a with
  | start c => exact absurd h id
  | stop c => exact h
  | _ => trivial

/-! ## A worker that has returned -/

theorem CallStep.created {maxLag : ℕ} {u : Thread} {s t : State F} {pc pc' : CallPc F}
    (h : CallStep maxLag u s pc t pc') :
    t.created = s.created ∨ ∃ j, pc = .start (.create j) ∧
      t.created = Function.update s.created j (s.created j + 1) := by
  cases h with
  | set h | setReturns h => exact .inl (congrArg Owned.created h.owned.1)
  | stop h => exact .inl h.frame.2.2.2
  | start h =>
      cases h with
      | create j => exact .inr ⟨j, rfl, by cases j <;> rfl⟩
      | _ => exact .inl rfl

/-- A worker that has returned does nothing more. -/
structure Over (s : State F) (k : ℕ) (log : List (Event F)) : Prop where
  created : k < s.created .worker
  ended : s.workerPc k = .ended
  log : s.log k = log

theorem Over.step {maxLag : ℕ} {s t : State F} {a : Action F} {k : ℕ} {log : List (Event F)}
    (hs : Over s k log) (hrest : Resting s) (h : Step maxLag s a t) : Over t k log := by
  cases h with
  | timer hi h =>
      obtain ⟨-, -, hworker, hlog, -⟩ := h.moves
      refine ⟨?_, ?_, ?_⟩
      · rw [show t.created = s.created from congrArg Owned.created h.owned.1]
        exact hs.created
      · rw [hworker]
        exact hs.ended
      · rw [hlog]
        exact hs.log
  | @worker i _ _ _ hi h =>
      have hne : k ≠ i := by
        rintro rfl
        have hno := h.not_ended
        rw [State.ended_worker.mpr hs.ended] at hno
        cases hno
      obtain ⟨pc, log', hworker, hlog, -⟩ := h.moves
      refine ⟨?_, ?_, ?_⟩
      · rw [show t.created = s.created from congrArg Owned.created h.owned.1]
        exact hs.created
      · rw [hworker, Function.update_of_ne hne]
        exact hs.ended
      · rw [hlog, Function.update_of_ne hne]
        exact hs.log
  | @client c _ _ u pc h =>
      refine ⟨?_, ?_, ?_⟩
      · show k < u.created .worker
        rcases h.created with hsame | ⟨j, -, hmore⟩
        · rw [hsame]
          exact hs.created
        · rw [hmore]
          have hlt := hs.created
          cases j with
          | timer => simpa using hlt
          | worker =>
              rw [Function.update_self]
              omega
      · show u.workerPc k = .ended
        rw [(h.threads hrest.settled).2]
        exact hs.ended
      · show u.log k = log
        rw [h.log]
        exact hs.log
  | @nest i op f hpc hi =>
      have hne : k ≠ i := by
        rintro rfl
        cases hs.ended.symm.trans hpc
      refine ⟨hs.created, ?_, hs.log⟩
      show Function.update s.workerPc i _ k = .ended
      rw [Function.update_of_ne hne]
      exact hs.ended
  | _ => exact ⟨hs.created, hs.ended, hs.log⟩

theorem Over.run {callback : Option F} {period maxLag : ℕ} {s t : State F} {k : ℕ}
    {log : List (Event F)} (hreach : (machine callback period maxLag).ReachBy OneControl s)
    (h : (machine callback period maxLag).RunBy OneControl s t) (hs : Over s k log) :
    Over t k log := by
  refine (h.invariant (P := fun u => (machine callback period maxLag).ReachBy OneControl u ∧
    Over u k log) ⟨hreach, hs⟩ ?_).2
  rintro u a v ⟨hu, hover⟩ hG hst
  exact ⟨hu.next hG hst, hover.step (.of_reach hu) (step_cases hst)⟩

theorem Staged.over {s : State F} {pc : CallPc F} {E k : ℕ} (hs : Staged s.owned pc E .idle)
    (hrest : Resting s) (hk : k < s.created .worker) : Over s k (s.log k) :=
  ⟨hk, State.ended_worker.mp (hs.idle_ended hrest hk), rfl⟩

/-! ## The ends of `stop` and `start` -/

def StopReturns (maxLag : ℕ) (s t : State F) : Prop :=
  (∃ fails wake, step maxLag s (.client 0 fails wake) = some t) ∧
    (∃ pc, s.clientPc 0 = .stop false pc) ∧ t.clientPc 0 = .out

theorem StopStep.returns {u : Thread} {s t : State F} {pc : StopPc} {E : ℕ} {shape : Shape}
    (h : StopStep u s false pc t .out) (hs : Staged s.owned (.stop false pc : CallPc F) E shape) :
    t.sem_ = none := by
  generalize hout : (CallPc.out : CallPc F) = pc' at h
  cases h with
  | resetNull h => exact h
  | deleteSem k =>
      rcases hs.stage with rfl | ⟨hno, -⟩
      · exact hs.sem
      · cases hno
  | _ => cases hout

theorem StopReturns.idle {callback : Option F} {period maxLag : ℕ} {s t : State F}
    (hreach : (machine callback period maxLag).ReachBy OneControl s)
    (h : StopReturns maxLag s t) :
    (machine callback period maxLag).ReachBy OneControl t ∧
      ∃ E, Staged t.owned (.out : CallPc F) E .idle := by
  obtain ⟨⟨fails, wake, hst⟩, ⟨pc, hpc⟩, hout⟩ := h
  have hnext : (machine callback period maxLag).ReachBy OneControl t :=
    hreach.next (a := .client 0 fails wake) trivial hst
  refine ⟨hnext, ?_⟩
  obtain ⟨E, shape, hc⟩ := Controlled.of_reach hreach
  have hstaged := hc.staged
  obtain ⟨E', shape', hc'⟩ := Controlled.of_reach hnext
  have hnone : t.sem_ = none := by
    cases step_cases hst with
    | @client _ _ _ u pc' h =>
        rw [hpc] at h hstaged
        have hpc' : pc' = .out := by
          rw [← hout]
          exact (Function.update_self 0 pc' u.clientPc).symm
        subst hpc'
        cases h with
        | stop h => exact h.returns hstaged
  have hstaged' := hc'.staged
  rw [hout] at hstaged'
  refine ⟨E', ?_⟩
  rcases hstaged'.stage with rfl | rfl
  · exact hstaged'
  · cases hstaged'.sem_none hnone

/-! ## Nothing runs between a `stop` and the next `start` -/

/-- The thread is inside `start`. -/
def CallPc.restarts : CallPc F → Bool
  | .start _ | .stop true _ => true
  | _ => false

theorem CallStep.no_start {maxLag : ℕ} {u : Thread} {s t : State F} {pc pc' : CallPc F}
    (h : CallStep maxLag u s pc t pc') (hpc : pc.restarts = false) :
    t.created = s.created ∧ pc'.restarts = false := by
  refine ⟨?_, ?_⟩
  · rcases h.created with hsame | ⟨j, rfl, -⟩
    · exact hsame
    · cases hpc
  · cases h with
    | set | setReturns => rfl
    | @stop again pc s' pc' h =>
        cases again with
        | true => cases hpc
        | false => cases h <;> rfl
    | start h => cases hpc

/-- No thread was created since `s`, and none will be. -/
structure Between (s t : State F) : Prop where
  created : t.created = s.created
  calls : ∀ c, (t.clientPc c).restarts = false

theorem Between.step {maxLag : ℕ} {s t u : State F} {a : Action F} (hs : Between s t)
    (hG : NoStart t a) (h : Step maxLag t a u) : Between s u := by
  have hcall : ∀ (c : ℕ) (pc : CallPc F), pc.restarts = false →
      ∀ c', (Function.update t.clientPc c pc c').restarts = false :=
    fun c pc hpc => forall_update (P := fun _ (pc : CallPc F) => pc.restarts = false) hs.calls hpc
  cases h with
  | timer hi h | worker hi h =>
      refine ⟨?_, ?_⟩
      · rw [← hs.created]
        exact congrArg Owned.created h.owned.1
      · rw [h.owned.2]
        exact hs.calls
  | @client c _ _ u pc h =>
      obtain ⟨hcreated, hpc⟩ := h.no_start (hs.calls c)
      refine ⟨hcreated.trans hs.created, ?_⟩
      show ∀ c', (Function.update u.clientPc c pc c').restarts = false
      rw [h.clientPc]
      exact hcall c pc hpc
  | set | stops => exact ⟨hs.created, hcall _ _ rfl⟩
  | starts hpc => exact absurd hG id
  | nest | tick | spurious => exact ⟨hs.created, hs.calls⟩

theorem Controlled.no_start {s : State F} {E : ℕ} {shape : Shape} (hs : Controlled s E shape)
    (hout : s.clientPc 0 = .out) : Between s s := by
  refine ⟨rfl, ?_⟩
  intro c
  by_cases hc : c = 0
  · rw [hc, hout]
    rfl
  · have hsettles := hs.others c hc
    generalize s.clientPc c = pc at hsettles
    cases pc with
    | out | set => rfl
    | _ => cases hsettles

/-- After `stop` returns no callback runs, and none begins before the next `start`. -/
theorem stop_silent {callback : Option F} {period maxLag : ℕ} {s t u : State F}
    (hreach : (machine callback period maxLag).ReachBy OneControl s) (h : StopReturns maxLag s t)
    (hrun : (machine callback period maxLag).RunBy NoStart t u) :
    u.log = t.log ∧ ∀ i f call, u.workerPc i ≠ .inTask f call := by
  obtain ⟨hreach', E, hidle⟩ := h.idle hreach
  obtain ⟨E', shape', hc⟩ := Controlled.of_reach hreach'
  have hcreated : u.created = t.created :=
    (hrun.invariant (P := Between t) (hc.no_start h.2.2)
      fun v a w hv hG hst => hv.step hG (step_cases hst)).created
  have hrun' := hrun.mono fun v a hG => NoStart.oneControl hG
  have hrest := Resting.of_reach hreach'
  have hrest' := Resting.of_reach (hreach'.run hrun')
  have hover : ∀ i, i < t.created .worker → Over u i (t.log i) := fun i hi =>
    (hidle.over hrest hi).run hreach' hrun'
  refine ⟨?_, ?_⟩
  · funext i
    by_cases hi : i < t.created .worker
    · exact (hover i hi).log
    · have hi' : t.created .worker ≤ i := not_lt.mp hi
      rw [((hrest.unborn i).2 hi').2, ((hrest'.unborn i).2 (hcreated ▸ hi')).2]
  · intro i f call hno
    by_cases hi : i < t.created .worker
    · cases (hover i hi).ended.symm.trans hno
    · have hi' : u.created .worker ≤ i := by
        rw [hcreated]
        exact not_lt.mp hi
      cases ((hrest'.unborn i).2 hi').1.symm.trans hno

/-! ## A new epoch -/

/-- While the control thread is inside a call, nobody else touches what it manages. -/
theorem Step.control {maxLag : ℕ} {s t : State F} {a : Action F} {E : ℕ} {shape : Shape}
    (h : Step maxLag s a t) (hc : Controlled s E shape) (hpc : s.clientPc 0 ≠ .out) :
    t.owned = s.owned ∧ t.clientPc 0 = s.clientPc 0 ∨
      ∃ u, CallStep maxLag (.client 0) s (s.clientPc 0) u (t.clientPc 0) ∧ t.owned = u.owned := by
  cases h with
  | timer hi h | worker hi h => exact .inl ⟨h.owned.1, congrFun h.owned.2 0⟩
  | @client c _ _ u pc h =>
      by_cases hc0 : c = 0
      · subst hc0
        refine .inr ⟨u, ?_, rfl⟩
        show CallStep maxLag (.client 0) s (s.clientPc 0) u (Function.update u.clientPc 0 pc 0)
        rw [Function.update_self]
        exact h
      · refine .inl ⟨(h.settles (hc.others c hc0)).2, ?_⟩
        show Function.update u.clientPc c pc 0 = s.clientPc 0
        rw [Function.update_of_ne (Ne.symm hc0), h.clientPc]
  | @set c op hout | @starts c hout | @stops c hout =>
      have hc0 : 0 ≠ c := by
        rintro rfl
        exact hpc hout
      exact .inl ⟨rfl, Function.update_of_ne hc0 _ _⟩
  | nest | tick | spurious => exact .inl ⟨rfl, rfl⟩

/-- Client 0 is inside `start`, past its call of `stop`. -/
def InStart (s : State F) (a : Action F) : Prop := OneControl s a ∧ ∃ pc, s.clientPc 0 = .start pc

/-- A `start` that prepares epoch `E`, or has returned. -/
def Opening (E : ℕ) (s : State F) : Prop :=
  (∃ pc shape, s.clientPc 0 = .start pc ∧ Staged s.owned (.start pc : CallPc F) E shape) ∨
    s.clientPc 0 = .out ∧ Staged s.owned (.out : CallPc F) E .running

theorem StartStep.returns {maxLag : ℕ} {s t : State F} {pc : StartPc} {pc' : CallPc F} {E : ℕ}
    {shape : Shape} (h : StartStep maxLag s pc t pc')
    (hs : Staged s.owned (.start pc : CallPc F) E shape) :
    (∃ p, pc' = .start p) ∨ pc' = .out ∧ t.sem_ ≠ none := by
  cases h with
  | assign j i =>
      cases j with
      | timer => exact .inl ⟨_, rfl⟩
      | worker =>
          obtain rfl : shape = ⟨.live, .fresh, true⟩ := hs.stage
          refine .inr ⟨rfl, ?_⟩
          show s.owned.sem_ ≠ none
          rw [hs.sem]
          exact Option.some_ne_none E
  | _ => exact .inl ⟨_, rfl⟩

theorem Opening.step {maxLag E : ℕ} {s t : State F} {a : Action F} (hs : Opening E s)
    (hG : InStart s a) (hc : ∃ E' shape, Controlled s E' shape) (h : Step maxLag s a t) :
    Opening E t := by
  obtain ⟨-, p, hp⟩ := hG
  obtain ⟨E', shape', hc⟩ := hc
  rcases hs with ⟨pc, shape, hpc, hstaged⟩ | ⟨hout, -⟩
  · rcases h.control hc (by rw [hpc]; rintro ⟨⟩) with ⟨howned, hsame⟩ | ⟨u, hcall, howned⟩
    · exact .inl ⟨pc, shape, hsame.trans hpc, howned ▸ hstaged⟩
    · rw [hpc] at hcall
      generalize hpc' : t.clientPc 0 = pc' at hcall
      cases hcall with
      | start hstart =>
          obtain ⟨shape', hstaged'⟩ := hstaged.start hstart
          rcases hstart.returns hstaged with ⟨p', rfl⟩ | ⟨rfl, hsem⟩
          · exact .inl ⟨p', shape', hpc', howned ▸ hstaged'⟩
          · refine .inr ⟨hpc', howned ▸ ?_⟩
            rcases hstaged'.stage with rfl | rfl
            · exact absurd hstaged'.sem hsem
            · exact hstaged'
  · cases hout.symm.trans hp

/-- The epoch that a `start` prepares is the one in force when it returns. -/
theorem start_opens {callback : Option F} {period maxLag : ℕ} {s t : State F} {E : ℕ}
    {shape : Shape} (hreach : (machine callback period maxLag).ReachBy OneControl s)
    (hs : Staged s.owned (.start .quit : CallPc F) E shape) (hpc : s.clientPc 0 = .start .quit)
    (hrun : (machine callback period maxLag).RunBy InStart s t) (hout : t.clientPc 0 = .out) :
    (machine callback period maxLag).ReachBy OneControl t ∧
      Staged t.owned (.out : CallPc F) E .running := by
  obtain ⟨hreach', hopen⟩ := hrun.invariant
    (P := fun u => (machine callback period maxLag).ReachBy OneControl u ∧ Opening E u)
    ⟨hreach, .inl ⟨.quit, shape, hpc, hs⟩⟩
    fun u a v hu hG hst =>
      ⟨hu.1.next hG.1 hst, hu.2.step hG (Controlled.of_reach hu.1) (step_cases hst)⟩
  refine ⟨hreach', ?_⟩
  rcases hopen with ⟨pc, shape', hno, -⟩ | ⟨-, hrunning⟩
  · cases hout.symm.trans hno
  · exact hrunning

/-- After `start` has called `stop`, everything created before is over, and whatever the
workers do from then on is backed by ticks that new semaphores accepted. -/
theorem start_backed {callback : Option F} {period maxLag : ℕ} {s t : State F} {E : ℕ}
    {shape : Shape}
    (hreach : (machine callback period maxLag).ReachBy OneControl s)
    (hs : Staged s.owned (.start .quit : CallPc F) E shape)
    (hrun : (machine callback period maxLag).RunBy OneControl s t) :
    (∀ k < s.semCnt, t.log k = s.log k) ∧
      ∀ k, s.semCnt ≤ k → s.log k = [] ∧ rounds (t.log k) ≤ (t.sems k).accepted := by
  obtain rfl : shape = .idle := hs.stage
  have hborn : s.created .worker = s.semCnt := (hs.idle .worker).2.trans hs.semCnt.symm
  have hrest := Resting.of_reach hreach
  have hreach' := hreach.run hrun
  refine ⟨?_, ?_⟩
  · intro k hk
    exact ((hs.over hrest (hborn.symm ▸ hk)).run hreach hrun).log
  · intro k hk
    refine ⟨((hrest.unborn k).2 (hborn.trans_le hk)).2, ?_⟩
    by_cases hkt : k < t.semCnt
    · have hcounted := (Sound.of_reach hreach').counted k hkt
      have hrounds := ((Ticking.of_reach hreach').paced k hkt).bounds.1
      have hcount := hcounted.count
      have hnonneg := hcounted.nonneg
      omega
    · -- no worker without a semaphore
      obtain ⟨E', shape', hc⟩ := Controlled.of_reach hreach'
      have hle : t.created .worker ≤ k := (hc.staged.created_le .worker).trans (not_lt.mp hkt)
      rw [(((Resting.of_reach hreach').unborn k).2 hle).2]
      exact Nat.zero_le _

/-- The semaphore of a new epoch is empty and nobody has called it. -/
theorem start_fresh {maxLag : ℕ} {s t : State F} {fails : Bool} {wake : Option Thread}
    (hpc : s.clientPc 0 = .start .sem)
    (hst : step maxLag s (.client 0 fails wake) = some t) :
    t.sem_ = some s.semCnt ∧ (t.sems s.semCnt).count_ = 0 ∧ (t.sems s.semCnt).accepted = 0 := by
  cases step_cases hst with
  | client h =>
      rw [hpc] at h
      cases h with
      | start h =>
          cases h with
          | sem h =>
              refine ⟨rfl, ?_, ?_⟩
              · show (Function.update s.sems s.semCnt _ s.semCnt).count_ = 0
                rw [Function.update_self]
                rfl
              · show (Function.update s.sems s.semCnt _ s.semCnt).accepted = 0
                rw [Function.update_self]
                rfl

/-! ## Epochs -/

theorem present_unique {callback : Option F} {period maxLag : ℕ} {s : State F}
    (h : (machine callback period maxLag).ReachBy OneControl s) {j : Job} {i i' : ℕ}
    (hi : s.Present j i) (hi' : s.Present j i') : i = i' := by
  obtain ⟨E, shape, hc⟩ := Controlled.of_reach h
  exact (hc.staged.current hi.1 hi.2).1.trans (hc.staged.current hi'.1 hi'.2).1.symm

/-- A thread that has returned before it is joined was told to by a `stop` that is still
in progress. -/
theorem ended_by_stop {callback : Option F} {period maxLag : ℕ} {s : State F}
    (h : (machine callback period maxLag).ReachBy OneControl s) {j : Job} {i : ℕ}
    (hi : s.Present j i) (hended : s.ended j i = true) :
    ∃ again pc, s.clientPc 0 = .stop again pc ∧ pc ≠ .lock ∧ pc ≠ .setQuit := by
  obtain ⟨E, shape, hc⟩ := Controlled.of_reach h
  have hleaving : s.leaving j i = true := by
    cases j with
    | timer => exact State.leaving_timer.mpr (.inl (State.ended_timer.mp hended))
    | worker => exact State.leaving_worker.mpr (State.ended_worker.mp hended)
  have hquit := (Resting.of_reach h).quits j i hi.1 hi.2 hleaving
  exact hc.staged.stopping (hc.staged.current hi.1 hi.2).2 hquit

theorem start_runs {callback : Option F} {period maxLag : ℕ} {s : State F} {E : ℕ}
    (h : (machine callback period maxLag).ReachBy OneControl s) (hout : s.clientPc 0 = .out)
    (hs : Staged s.owned (.out : CallPc F) E .running) :
    (∀ j i, s.Present j i ↔ i = E) ∧ (∀ j, s.thread_ j = some E ∧ s.ended j E = false) ∧
      s.sem_ = some E := by
  have hlive : ∀ j, Slot.live.Holds E (s.thread_ j) (s.created j) (s.object j) := by
    intro j
    have hslot := hs.slot j
    cases j <;> exact hslot
  have hpresent : ∀ j, s.Present j E := by
    intro j
    obtain ⟨-, hcreated, hobj⟩ := hlive j
    exact ⟨hcreated ▸ Nat.lt_succ_self E, by rw [hobj]⟩
  refine ⟨?_, ?_, hs.sem⟩
  · intro j i
    exact ⟨fun hi => present_unique h hi (hpresent j), fun hi => hi ▸ hpresent j⟩
  · intro j
    refine ⟨(hlive j).1, ?_⟩
    by_contra hended
    obtain ⟨again, pc, hno, -⟩ := ended_by_stop h (hpresent j) (Bool.not_eq_false _ ▸ hended)
    cases hout.symm.trans hno

/-- Under one control thread, at every moment there is at most one timer and one worker;
when `stop` has returned no callback runs, or begins before the next `start`; a `start`
finds no thread, makes a semaphore that has no tick, and returns with one timer and one
worker running over it, while the work done from then on is backed by the ticks of that
semaphore and later ones; and a thread returns early only because of a `stop` that is
still in progress. -/
theorem epochs {callback : Option F} {period maxLag : ℕ} {s : State F}
    (h : (machine callback period maxLag).ReachBy OneControl s) :
    (∀ j i i', s.Present j i → s.Present j i' → i = i') ∧
    (∀ t, StopReturns maxLag s t → ∀ u, (machine callback period maxLag).RunBy NoStart t u →
      u.log = t.log ∧ ∀ i f call, u.workerPc i ≠ .inTask f call) ∧
    (s.clientPc 0 = .start .quit →
      (∀ j i, ¬ s.Present j i) ∧
      (∀ t, (machine callback period maxLag).RunBy InStart s t → t.clientPc 0 = .out →
        (∀ j i, t.Present j i ↔ i = s.semCnt) ∧
        (∀ j, t.thread_ j = some s.semCnt ∧ t.ended j s.semCnt = false) ∧
        t.sem_ = some s.semCnt) ∧
      ∀ t, (machine callback period maxLag).RunBy OneControl s t →
        (∀ k < s.semCnt, t.log k = s.log k) ∧
        ∀ k, s.semCnt ≤ k → s.log k = [] ∧ rounds (t.log k) ≤ (t.sems k).accepted) ∧
    (s.clientPc 0 = .start .sem → ∀ t fails wake,
      step maxLag s (.client 0 fails wake) = some t →
        t.sem_ = some s.semCnt ∧ (t.sems s.semCnt).count_ = 0 ∧
        (t.sems s.semCnt).accepted = 0) ∧
    ∀ j i, s.Present j i → s.ended j i = true →
      ∃ again pc, s.clientPc 0 = .stop again pc ∧ pc ≠ .lock ∧ pc ≠ .setQuit := by
  refine ⟨fun j i i' => present_unique h, fun t ht u hu => stop_silent h ht hu, ?_,
    fun hpc t fails wake => start_fresh hpc, fun j i => ended_by_stop h⟩
  intro hpc
  obtain ⟨E, shape, hc⟩ := Controlled.of_reach h
  have hs := hc.staged
  rw [hpc] at hs
  obtain rfl : shape = .idle := hs.stage
  have hcnt : s.semCnt = E := hs.semCnt
  refine ⟨?_, ?_, fun t ht => start_backed h hs ht⟩
  · intro j i hi
    have hruns := (hs.current hi.1 hi.2).2
    cases j <;> cases hruns
  · intro t ht hout
    obtain ⟨ht', hrunning⟩ := start_opens h hs hpc ht hout
    rw [hcnt]
    exact start_runs ht' hout hrunning

/-- Started, stopped and started again. -/
theorem epochs_restart :
    ∃ s : State ℕ, (machine (some 7) 1000 1).ReachBy OneControl s ∧ s.semCnt = 2 ∧
      s.Present .worker 1 ∧ ∀ i, s.Present .worker i → i = 1 := by
  obtain ⟨s, hreach, hcnt, hi, hobj⟩ := Machine.ReachBy.of_exec
    (M := machine (some 7) 1000 1) (G := OneControl) (State.initial (some 7) 1000 1)
    (runStart ++ .stop 0 :: List.replicate 13 (.client 0 false none) ++ runTimer 7 ++ runWorker 1 ++
      List.replicate 10 (.client 0 false none) ++ runStart)
    (fun s => s.semCnt = 2 ∧ 1 < s.created .worker ∧ (s.object .worker 1).joined = false) rfl
    (by decide)
  exact ⟨s, hreach, hcnt, ⟨hi, hobj⟩, fun i h => (epochs hreach).1 .worker i 1 h ⟨hi, hobj⟩⟩

end PeriodicWork
