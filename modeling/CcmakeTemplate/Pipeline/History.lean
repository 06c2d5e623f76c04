import CcmakeTemplate.Pipeline.Hiring
import CcmakeTemplate.Pipeline.Roster

/-!
# A history of hiring calls on the machine

The hiring calls are made one after the other, by clients or by callbacks, and the last of
them is the destructor's. Whatever the workers and the other calls do meanwhile, the lists
are those that the functions of `Hiring` compute for the calls made so far. When `~pipeline`
has returned with both lists empty, every worker thread that was ever created has ended.
-/

namespace Pipeline

open Concurrency

variable {I O F : Type}

/-! ## The history of the calls -/

structure Tracked (I O F : Type) where
  base : State I O F
  /-- The list and the count of each hiring call that was started. -/
  calls : List (Crew × ℕ)

def Op.request : Op I F → List (Crew × ℕ)
  | .setProcessWorkerCount count => [(.process, count)]
  | .setCallbackWorkerCount count => [(.callback, count)]
  | _ => []

def Action.request : Action I F → List (Crew × ℕ)
  | .call _ op | .nest _ op => op.request
  | _ => []

def trackedMachine (process : I → O) (workerCnt : ℕ) :
    Machine (Tracked I O F) (Action I F) where
  init := fun s => s = ⟨State.initial workerCnt, []⟩
  step := fun s a => (step process s.base a).map fun t => ⟨t, s.calls ++ a.request⟩

/-- A call that hires, the destructor's included, starts when nobody is inside another
one. -/
def OneAfterTheOther (s : Tracked I O F) (a : Action I F) : Prop :=
  ∀ u pc, a.entry = some (u, pc) → pc.kind.hires = true →
    s.base.phase = .alive ∧ ∀ v, (s.base.doing v).kind.hires = false

/-- The lists after the constructor and these calls. -/
def hireFireWorkers (workerCnt : ℕ) (calls : List (Crew × ℕ)) : Roster :=
  calls.foldl (fun r call => hireFireWorker call.1 call.2 r) (construct workerCnt)

theorem hireFireWorkers_snoc (workerCnt : ℕ) (calls : List (Crew × ℕ)) (crew : Crew)
    (count : ℕ) : hireFireWorkers workerCnt (calls ++ [(crew, count)]) =
      hireFireWorker crew count (hireFireWorkers workerCnt calls) := by
  unfold hireFireWorkers
  rw [List.foldl_append]
  rfl

/-- The destructor has been entered. -/
def Phase.ending : Phase → Bool
  | .constructing | .alive => false
  | .destroying | .destroyed => true

/-- What the lists are when nobody is in a hiring call. -/
def Tracked.expected (workerCnt : ℕ) (s : Tracked I O F) : Roster :=
  if s.base.phase.ending then destroy (hireFireWorkers workerCnt s.calls)
  else hireFireWorkers workerCnt s.calls

/-- One thread at most is in a hiring call, nobody is after the destructor's, and the lists
are what they should be when it returns. -/
def Tracked.Settled (workerCnt : ℕ) (s : Tracked I O F) : Prop :=
  ∃ u, (∀ v, v ≠ u → (s.base.doing v).kind.hires = false) ∧
    (s.base.doing u).outcome s.base.roster = s.expected workerCnt ∧
    (s.base.phase = .destroyed → (s.base.doing u).kind.hires = false)

/-! ## One step -/

theorem CallPc.kind_out_ne {kind : CallKind} (h : kind ≠ .outside) :
    (CallPc.out : CallPc I F).kind ≠ kind := fun heq => h heq.symm

/-- What the phase says of the call that a thread is in. -/
theorem LifeCycle.doing {s : State I O F} (hs : LifeCycle s) (u : Thread) :
    ((s.doing u).kind = .constructor → s.phase = .constructing) ∧
      ((s.doing u).kind = .destructor → s.phase.ending = true) := by
  cases u with
  | client c =>
      have hadmits := hs.client c
      show ((s.clientPc c).kind = _ → _) ∧ ((s.clientPc c).kind = _ → _)
      generalize (s.clientPc c).kind = kind at hadmits
      generalize s.phase = phase at hadmits
      cases phase with
      | constructing =>
          refine ⟨fun _ => rfl, ?_⟩
          rintro rfl
          by_cases hc : c = 0 <;> simp [Phase.Admits, hc] at hadmits
      | alive => exact ⟨fun h => absurd h hadmits.1, fun h => absurd h hadmits.2⟩
      | destroying | destroyed => exact ⟨fun h => absurd h hadmits, fun _ => rfl⟩
  | worker crew i =>
      have hwork : (CallPc.out : CallPc I F).kind ≠ .constructor ∧
          (CallPc.out : CallPc I F).kind ≠ .destructor :=
        ⟨CallPc.kind_out_ne (by decide), CallPc.kind_out_ne (by decide)⟩
      have hnested : (s.doing (.worker crew i)).kind ≠ .constructor ∧
          (s.doing (.worker crew i)).kind ≠ .destructor := by
        cases crew with
        | process => exact hwork
        | callback =>
            rw [State.doing_callback]
            cases hpc : s.callbackPc i with
            | inCallback f product call => exact hs.nested i f product call hpc
            | _ => exact hwork
      exact ⟨fun h => absurd h hnested.1, fun h => absurd h hnested.2⟩

/-- A method step enters no destructor, and only the destructor's return ends the object. -/
theorem PhaseStep.ending {phase phase' : Phase} {kind kind' : CallKind}
    (h : PhaseStep phase kind phase' kind') (hc : kind = .constructor → phase = .constructing)
    (hd : kind = .destructor → phase.ending = true) :
    phase'.ending = phase.ending ∧
      (phase' = .destroyed → phase = .destroyed ∨ kind = .destructor ∧ kind' = .outside) := by
  cases h with
  | stay | returned => exact ⟨rfl, .inl⟩
  | constructed =>
      rw [hc rfl]
      exact ⟨rfl, nofun⟩
  | destroyed =>
      rw [hd rfl]
      exact ⟨rfl, fun _ => .inr ⟨rfl, rfl⟩⟩

theorem CallStep.hires {u : Thread} {s t : State I O F} {pc pc' : CallPc I F}
    (h : CallStep u s pc t pc') (hpc : pc.kind.hires = false) : pc'.kind.hires = false := by
  rcases h.kind with heq | heq
  · rw [heq, hpc]
  · rw [heq]
    rfl

variable {process : I → O} {workerCnt : ℕ} {s t : Tracked I O F}

/-- A step outside the calls. -/
theorem Tracked.Settled.of_same (hs : s.Settled workerCnt) (hdoing : t.base.doing = s.base.doing)
    (hroster : t.base.roster = s.base.roster) (hphase : t.base.phase = s.base.phase)
    (hcalls : t.calls = s.calls) : t.Settled workerCnt := by
  obtain ⟨u, hother, hout, hgone⟩ := hs
  refine ⟨u, ?_, ?_, ?_⟩
  · rwa [hdoing]
  · unfold Tracked.expected
    rw [hdoing, hroster, hphase, hcalls]
    exact hout
  · rwa [hdoing, hphase]

/-- A step of the call that some thread is in. -/
theorem Tracked.Settled.of_call {u : Thread} {s' : State I O F} {pc : CallPc I F}
    (h : CallStep u s.base (s.base.doing u) s' pc) (hlife : LifeCycle s.base)
    (hdoing : t.base.doing = Function.update s.base.doing u pc)
    (hroster : t.base.roster = s'.roster) (hphase : t.base.phase = s'.phase)
    (hcalls : t.calls = s.calls) (hs : s.Settled workerCnt) : t.Settled workerCnt := by
  obtain ⟨w, hother, hout, hgone⟩ := hs
  obtain ⟨hending, hdestroyed⟩ :=
    h.phaseStep.ending (hlife.doing u).1 (hlife.doing u).2
  have hexpected : t.expected workerCnt = s.expected workerCnt := by
    unfold Tracked.expected
    rw [hphase, hending, hcalls]
  by_cases huw : u = w
  · subst huw
    refine ⟨u, fun v hv => ?_, ?_, fun hend => ?_⟩
    · rw [hdoing, Function.update_of_ne hv]
      exact hother v hv
    · rw [hdoing, Function.update_self, hroster, h.outcome, hexpected]
      exact hout
    · rw [hdoing, Function.update_self]
      rw [hphase] at hend
      rcases hdestroyed hend with hbefore | ⟨-, houtside⟩
      · exact h.hires (hgone hbefore)
      · rw [houtside]
        rfl
  · have hnot := hother u huw
    refine ⟨w, fun v hv => ?_, ?_, fun hend => ?_⟩
    · rw [hdoing]
      by_cases hvu : v = u
      · subst hvu
        rw [Function.update_self]
        exact h.hires hnot
      · rw [Function.update_of_ne hvu]
        exact hother v hv
    · rw [hdoing, Function.update_of_ne (Ne.symm huw), hroster, h.roster_eq hnot, hexpected]
      exact hout
    · rw [hdoing, Function.update_of_ne (Ne.symm huw)]
      rw [hphase] at hend
      rcases hdestroyed hend with hbefore | ⟨hkind, -⟩
      · exact hgone hbefore
      · rw [hkind] at hnot
        cases hnot

/-- The start of a call. -/
theorem Tracked.Settled.of_entry {u : Thread} {pc : CallPc I F}
    (hout : s.base.doing u = .out) (hdoing : t.base.doing = Function.update s.base.doing u pc)
    (hroster : t.base.roster = s.base.roster)
    (hhires : pc.kind.hires = true → t.base.phase ≠ .destroyed ∧
      ∀ v, (s.base.doing v).kind.hires = false)
    (hother : pc.kind.hires = false → t.base.phase = s.base.phase)
    (hexpected : t.expected workerCnt = pc.outcome (s.expected workerCnt))
    (hs : s.Settled workerCnt) : t.Settled workerCnt := by
  obtain ⟨w, hothers, hrun, hgone⟩ := hs
  cases hpc : pc.kind.hires with
  | true =>
      obtain ⟨halive, hnobody⟩ := hhires hpc
      rw [CallPc.outcome_eq (hnobody w)] at hrun
      refine ⟨u, fun v hv => ?_, ?_, fun hend => absurd hend halive⟩
      · rw [hdoing, Function.update_of_ne hv]
        exact hnobody v
      · rw [hdoing, Function.update_self, hroster, hrun, hexpected]
  | false =>
      rw [CallPc.outcome_eq hpc] at hexpected
      have hkept : ∀ v, (t.base.doing v).kind.hires = (s.base.doing v).kind.hires ∧
          (t.base.doing v).outcome s.base.roster = (s.base.doing v).outcome s.base.roster := by
        intro v
        rw [hdoing]
        by_cases hv : v = u
        · subst hv
          rw [Function.update_self, hout, hpc, CallPc.outcome_eq hpc]
          exact ⟨rfl, rfl⟩
        · rw [Function.update_of_ne hv]
          exact ⟨rfl, rfl⟩
      refine ⟨w, fun v hv => ?_, ?_, fun hend => ?_⟩
      · rw [(hkept v).1]
        exact hothers v hv
      · rw [hroster, (hkept w).2, hexpected]
        exact hrun
      · rw [(hkept w).1]
        rw [hother hpc] at hend
        exact hgone hend

theorem Op.request_eq_nil {op : Op I F} (h : op.entry.kind.hires = false) : op.request = [] := by
  cases op with
  | setProcessWorkerCount | setCallbackWorkerCount => cases h
  | _ => rfl

/-- The start of a call on a pipeline that is alive counts as the call itself. -/
theorem Tracked.expected_entry {op : Op I F} {b : State I O F} (hphase : b.phase = s.base.phase)
    (halive : op.entry.kind.hires = true → s.base.phase = .alive) :
    Tracked.expected workerCnt ⟨b, s.calls ++ op.request⟩ =
      op.entry.outcome (s.expected workerCnt) := by
  unfold Tracked.expected
  cases hhires : op.entry.kind.hires with
  | true =>
      rw [hphase, halive hhires]
      show hireFireWorkers workerCnt (s.calls ++ op.request) =
        op.entry.outcome (hireFireWorkers workerCnt s.calls)
      cases op with
      | setProcessWorkerCount count => exact hireFireWorkers_snoc workerCnt s.calls .process count
      | setCallbackWorkerCount count =>
          exact hireFireWorkers_snoc workerCnt s.calls .callback count
      | _ => cases hhires
  | false =>
      rw [hphase, Op.request_eq_nil hhires, List.append_nil, CallPc.outcome_eq hhires]

theorem Tracked.Settled.step {a : Action I F} {b : State I O F}
    (h : Step process s.base a b) (hborn : Unborn s.base) (hlife : LifeCycle s.base)
    (hG : OneAfterTheOther s a) (hs : s.Settled workerCnt) :
    Tracked.Settled workerCnt ⟨b, s.calls ++ a.request⟩ := by
  cases h with
  | process hi h =>
      refine hs.of_same h.doing ?_ h.frame.phase (List.append_nil _)
      simp only [State.roster, h.frame.workerList, h.frame.hired]
  | @callback i wake _ hi h =>
      cases (Step.callback hi h : Step process s.base (.callback i wake) b).activity hborn with
      | process _ _ ha | entry ha | spurious ha => cases ha
      | callback _ _ _ hdoing _ hframe =>
          refine hs.of_same hdoing ?_ (h.phase hlife) (List.append_nil _)
          simp only [State.roster, hframe.workerList, hframe.hired]
      | call _ h hdoing halike hphase =>
          refine hs.of_call h hlife hdoing ?_ hphase (List.append_nil _)
          simp only [State.roster, halike.workerList, halike.hired]
  | @client c _ s' pc h =>
      refine hs.of_call (u := .client c) h hlife ?_ rfl rfl (List.append_nil _)
      rw [State.doing_goClient, h.doing hborn]
  | @call c op halive hpc =>
      have hnobody := fun hhires => (hG (.client c) op.entry rfl hhires).2
      refine hs.of_entry (u := .client c) hpc (State.doing_goClient _ _ _) rfl ?_ (fun _ => rfl)
        (Tracked.expected_entry rfl fun _ => halive)
      exact fun hhires => ⟨by rw [halive]; decide, hnobody hhires⟩
  | @nest i op f product hpc =>
      have hstart := hG (.worker .callback i) op.entry rfl
      have hout : s.base.doing (.worker .callback i) = .out := by
        rw [State.doing_callback, hpc]
        rfl
      refine hs.of_entry hout (State.doing_goCallback _ _ _) rfl ?_ (fun _ => rfl)
        (Tracked.expected_entry rfl fun hhires => (hstart hhires).1)
      exact fun hhires => ⟨by rw [(hstart hhires).1]; decide, (hstart hhires).2⟩
  | @destroy c halive hpc =>
      have hnobody := (hG (.client c) .clearProcessLock rfl rfl).2
      refine hs.of_entry (u := .client c) hpc (State.doing_goClient _ _ _) rfl ?_ ?_ ?_
      · exact fun _ => ⟨by simp, hnobody⟩
      · exact fun hno => absurd hno Bool.noConfusion
      · have hbefore : s.expected workerCnt = hireFireWorkers workerCnt s.calls := by
          unfold Tracked.expected
          rw [halive]
          rfl
        rw [hbefore]
        show destroy (hireFireWorkers workerCnt (s.calls ++ [])) = destroy _
        rw [List.append_nil]
  | spurious => exact hs.of_same rfl rfl rfl (List.append_nil _)

theorem CallPc.hires_of_handles {crew : Crew} {pc : CallPc I F} (h : pc.handles crew = true) :
    pc.kind.hires = true := by
  cases pc with
  | hireFire crew' count p ret => cases ret <;> rfl
  | _ => cases h

/-! ## Every run -/

theorem tracked_refines (process : I → O) (workerCnt : ℕ)
    (G : Tracked I O F → Action I F → Prop) :
    (trackedMachine process workerCnt).Refines G (machine process workerCnt)
      (fun _ _ => True) Tracked.base := by
  refine ⟨?_, ?_⟩
  · rintro s rfl
    rfl
  · intro s a t _ _ hst
    obtain ⟨base, hbase, rfl⟩ := Option.map_eq_some_iff.mp hst
    exact .inr ⟨a, trivial, hbase⟩

section

variable (h : (trackedMachine process workerCnt).ReachBy OneAfterTheOther s)
include h

theorem settled : s.Settled workerCnt := by
  refine h.invariant (P := Tracked.Settled workerCnt) ?_ ?_
  · rintro s rfl
    refine ⟨.client 0, fun v hv => ?_, rfl, nofun⟩
    have hinit : State.initial workerCnt = (State.initial workerCnt : State I O F) := rfl
    rcases doing_initial hinit v with hout | ⟨hclient, -⟩
    · show ((State.initial workerCnt : State I O F).doing v).kind.hires = false
      rw [hout]
      rfl
    · exact absurd hclient hv
  · intro s a t hreach hs hG hst
    obtain ⟨base, hbase, rfl⟩ := Option.map_eq_some_iff.mp hst
    have hbelow := (tracked_refines process workerCnt _).reach hreach
    exact hs.step (step_cases hbase) (unborn hbelow) (lifeCycle hbelow) hG

/-- While nobody is in a hiring call, the lists are those that the calls made so far leave
one after the other. -/
theorem roster_of_calls (hnobody : ∀ u, (s.base.doing u).kind.hires = false) :
    s.base.roster = s.expected workerCnt := by
  obtain ⟨u, -, hout, -⟩ := settled h
  rwa [CallPc.outcome_eq (hnobody u)] at hout

theorem nobody_hires_after (hend : s.base.phase = .destroyed) (u : Thread) :
    (s.base.doing u).kind.hires = false := by
  obtain ⟨w, hother, -, hgone⟩ := settled h
  by_cases huw : u = w
  · rw [huw]
    exact hgone hend
  · exact hother u huw

theorem enlisted_both (crew : Crew) : Enlisted crew s.base := by
  refine h.invariant (P := fun s => Enlisted crew s.base) ?_ ?_
  · rintro s rfl
    exact .init rfl crew
  · intro s a t hreach hs _ hst
    obtain ⟨base, hbase, rfl⟩ := Option.map_eq_some_iff.mp hst
    have hbelow := (tracked_refines process workerCnt _).reach hreach
    obtain ⟨w, hother, -, -⟩ := settled hreach
    have honly : ∀ u, (s.base.doing u).handles crew = true → u = w := by
      intro u hu
      by_contra huw
      cases (hother u huw).symm.trans (CallPc.hires_of_handles hu)
    exact hs.step (step_cases hbase) (unborn hbelow) fun u v hu hv =>
      (honly v hv).trans (honly u hu).symm

end

theorem HeadCount.destroyed (calls : List (Crew × ℕ)) : ∀ {r : Roster}
    {processCount : ℕ}, HeadCount processCount r calls → ∀ crew,
    (destroy (calls.foldl (fun r call => hireFireWorker call.1 call.2 r) r)).workerList crew =
      [] := by
  induction calls with
  | nil => exact fun h => h.2
  | cons call calls ih => exact fun h => ih h.2.2

/-- Client 0 makes all the calls, one after the other. -/
def ByFirst (s : Tracked I O F) (a : Action I F) : Prop :=
  a.entry.isSome = true →
    a.entry.map Prod.fst = some (.client 0) ∧ s.base.phase = .alive ∧ s.base.clientPc 0 = .out

instance [DecidableEq I] [DecidableEq F] (s : Tracked I O F) (a : Action I F) :
    Decidable (ByFirst s a) :=
  inferInstanceAs (Decidable (_ → _ ∧ _ ∧ _))

theorem ByFirst.entry {a : Action I F} (h : ByFirst s a) {u : Thread} {pc : CallPc I F}
    (ha : a.entry = some (u, pc)) :
    u = .client 0 ∧ s.base.phase = .alive ∧ s.base.clientPc 0 = .out := by
  unfold ByFirst at h
  rw [ha] at h
  obtain ⟨hclient, hfree⟩ := h rfl
  exact ⟨Option.some.inj hclient, hfree⟩

theorem doing_byFirst (h : (trackedMachine process workerCnt).ReachBy ByFirst s) :
    ∀ u, u ≠ .client 0 → s.base.doing u = .out := by
  refine h.invariant (P := fun s => ∀ u, u ≠ .client 0 → s.base.doing u = .out) ?_ ?_
  · rintro s rfl u hu
    have hinit : State.initial workerCnt = (State.initial workerCnt : State I O F) := rfl
    rcases doing_initial hinit u with hout | ⟨hclient, -⟩
    · exact hout
    · exact absurd hclient hu
  · intro s a t hreach hs hG hst u hu
    obtain ⟨base, hbase, rfl⟩ := Option.map_eq_some_iff.mp hst
    have hborn := unborn ((tracked_refines process workerCnt _).reach hreach)
    show base.doing u = .out
    cases (step_cases hbase).activity hborn with
    | process _ _ _ hdoing | callback _ _ _ hdoing | spurious _ hdoing =>
        rw [hdoing]
        exact hs u hu
    | @call v _ _ _ h hdoing =>
        have hv : v = .client 0 := by
          by_contra hv
          rw [hs v hv] at h
          exact CallStep.not_out h
        subst hv
        rw [hdoing, Function.update_of_ne hu]
        exact hs u hu
    | entry ha _ hdoing =>
        obtain ⟨rfl, -⟩ := hG.entry ha
        rw [hdoing, Function.update_of_ne hu]
        exact hs u hu

/-- So they are made one after the other. -/
theorem ByFirst.oneAfterTheOther (h : (trackedMachine process workerCnt).ReachBy ByFirst s) :
    (trackedMachine process workerCnt).ReachBy OneAfterTheOther s := by
  refine h.upgrade fun s a hreach hG u pc ha _ => ?_
  obtain ⟨-, halive, hout⟩ := hG.entry ha
  refine ⟨halive, fun v => ?_⟩
  have hdoing : s.base.doing v = .out := by
    by_cases hv : v = .client 0
    · rw [hv]
      exact hout
    · exact doing_byFirst hreach v hv
  rw [hdoing]
  rfl

/-- When `~pipeline` has returned after calls none of which was mistaken, both lists are
empty and no thread of a worker is left. -/
theorem no_worker_left (h : (trackedMachine process workerCnt).ReachBy OneAfterTheOther s)
    (hend : s.base.phase = .destroyed) (hcalls : NeverMistaken workerCnt 1 s.calls) (crew : Crew) :
    s.base.workerList crew = [] ∧ ∀ i, i < s.base.hired crew → s.base.ended crew i = true := by
  have hnobody := nobody_hires_after h hend
  obtain ⟨hage, hprocess, hcallback⟩ := construct_adjusted workerCnt
  have hcount := (headCount_from s.calls hage).mpr (by rwa [hprocess, hcallback])
  have hlist : s.base.workerList crew = [] := by
    have hroster := roster_of_calls h hnobody
    unfold Tracked.expected at hroster
    rw [hend] at hroster
    have hempty := HeadCount.destroyed s.calls hcount crew
    exact (congrFun (congrArg Roster.workerList hroster) crew).trans hempty
  refine ⟨hlist, fun i hi => ?_⟩
  rcases (enlisted_both h crew).listed i hi with hmem | hended | ⟨u, hcreates⟩
  · rw [hlist] at hmem
    cases hmem
  · exact hended
  · have hhires := CallPc.hires_of_handles (CallPc.handles_of_creates hcreates)
    cases (hnobody u).symm.trans hhires

/-- A second process worker is hired before the object is destroyed. -/
theorem no_worker_left_of_two : ∃ s : Tracked ℕ ℕ ℕ,
    s.calls = [(.process, 2)] ∧ s.base.hired .process = 2 ∧ s.base.phase = .destroyed ∧
      s.base.workerList .process = [] ∧
      ∀ i, i < s.base.hired .process → s.base.ended .process i = true := by
  obtain ⟨s, hs, hcalls, hhired, hend⟩ := Machine.ReachBy.of_exec (M := trackedMachine id 1)
    (G := ByFirst) ⟨State.initial 1, []⟩
    (runConstructor ++ runCall (.setProcessWorkerCount 2) 5 ++ [.destroy 0] ++
      List.replicate 8 (.client 0 none) ++ runProcess 3 ++ List.replicate 7 (.client 0 none) ++
      List.replicate 3 (.process 1 none) ++ List.replicate 13 (.client 0 none) ++
      runCallback 3 ++ List.replicate 5 (.client 0 none))
    (fun s : Tracked ℕ ℕ ℕ =>
      s.calls = [(.process, 2)] ∧ s.base.hired .process = 2 ∧ s.base.phase = .destroyed)
    rfl (by decide)
  have hnever : NeverMistaken 1 1 s.calls := by
    rw [hcalls]
    simp [NeverMistaken]
  exact ⟨s, hcalls, hhired, hend, no_worker_left (ByFirst.oneAfterTheOther hs) hend hnever _⟩

end Pipeline
