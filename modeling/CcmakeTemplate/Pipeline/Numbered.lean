import CcmakeTemplate.Pipeline.Counts

/-!
# Numbered jobs

A pipeline never looks at its jobs and products, it only hands them on. So what it does is
the same when the jobs are renamed, and a run of a pipeline can be read as a run of the
pipeline whose jobs carry numbers, all of them different, that `process` and the callback
hand on. The numbers tell two jobs apart whose products are equal.
-/

namespace Pipeline

open Concurrency

variable {I O F I' O' : Type}

/-! ## Renaming -/

def ProcessPc.map (f : I → I') (g : O → O') : ProcessPc I O → ProcessPc I' O'
  | .start => .start
  | .loop => .loop
  | .idle => .idle
  | .lockProcess => .lockProcess
  | .check => .check
  | .block => .block
  | .wait => .wait
  | .busy => .busy
  | .branch => .branch
  | .leaveQuit => .leaveQuit
  | .leaveEmpty => .leaveEmpty
  | .leaveTake jobInfo => .leaveTake (f jobInfo)
  | .callProcess jobInfo => .callProcess (f jobInfo)
  | .lockOutput product => .lockOutput (g product)
  | .push product => .push (g product)
  | .unlockOutput => .unlockOutput
  | .testCallback => .testCallback
  | .notify => .notify
  | .exit => .exit
  | .ended => .ended
  | .pureVirtualCall jobInfo => .pureVirtualCall (f jobInfo)

def CallPc.map (f : I → I') : CallPc I F → CallPc I' F
  | .out => .out
  | .addJobLock meterial => .addJobLock (f meterial)
  | .addJobPush meterial => .addJobPush (f meterial)
  | .addJobNotify => .addJobNotify
  | .addJobUnlock => .addJobUnlock
  | .getProductLock => .getProductLock
  | .getProductTake => .getProductTake
  | .getProductUnlock => .getProductUnlock
  | .countLock => .countLock
  | .countSizes => .countSizes
  | .countScan rest pendingCnt finishedCnt processingCnt =>
      .countScan rest pendingCnt finishedCnt processingCnt
  | .countUnlock pendingCnt finishedCnt processingCnt =>
      .countUnlock pendingCnt finishedCnt processingCnt
  | .setCallbackLock method => .setCallbackLock method
  | .setCallbackAssign method => .setCallbackAssign method
  | .setCallbackUnlock => .setCallbackUnlock
  | .hireFire crew count pc ret => .hireFire crew count pc ret
  | .clearProcessLock => .clearProcessLock
  | .clearProcessSwap => .clearProcessSwap
  | .clearProcessUnlock => .clearProcessUnlock
  | .clearOutputLock => .clearOutputLock
  | .clearOutputSwap => .clearOutputSwap
  | .clearOutputUnlock => .clearOutputUnlock

def CallbackPc.map (f : I → I') (g : O → O') : CallbackPc I O F → CallbackPc I' O' F
  | .start => .start
  | .loop => .loop
  | .idle => .idle
  | .lockOutput => .lockOutput
  | .tryShared => .tryShared
  | .check => .check
  | .unlockCheck notGonnaLock => .unlockCheck notGonnaLock
  | .block => .block
  | .wait => .wait
  | .busy => .busy
  | .branch => .branch
  | .leaveQuit => .leaveQuit
  | .leaveEmpty => .leaveEmpty
  | .leaveTake jobResult => .leaveTake (g jobResult)
  | .lockShared jobResult => .lockShared (g jobResult)
  | .test jobResult => .test (g jobResult)
  | .inCallback outputCallback jobResult call =>
      .inCallback outputCallback (g jobResult) (call.map f)
  | .unlockShared callbackFail => .unlockShared (callbackFail.map g)
  | .lockRequeue jobResult => .lockRequeue (g jobResult)
  | .requeue jobResult => .requeue (g jobResult)
  | .unlockRequeue => .unlockRequeue
  | .exit => .exit
  | .ended => .ended

def Op.map (f : I → I') : Op I F → Op I' F
  | .addJob meterial => .addJob (f meterial)
  | .getProduct => .getProduct
  | .getQueueCount => .getQueueCount
  | .setCallback method => .setCallback method
  | .setProcessWorkerCount count => .setProcessWorkerCount count
  | .setCallbackWorkerCount count => .setCallbackWorkerCount count

def Action.map (f : I → I') : Action I F → Action I' F
  | .process i wake => .process i wake
  | .callback i wake => .callback i wake
  | .client c wake => .client c wake
  | .call c op => .call c (op.map f)
  | .nest i op => .nest i (op.map f)
  | .destroy c => .destroy c
  | .spurious t => .spurious t

def State.map (f : I → I') (g : O → O') (s : State I O F) : State I' O' F where
  queue_process := s.queue_process.map f
  queue_output := s.queue_output.map g
  outputCallback := s.outputCallback
  mutex_process := s.mutex_process
  mutex_output := s.mutex_output
  mutex_outputCallback := s.mutex_outputCallback
  cv_jobAdd := s.cv_jobAdd
  cv_processFinish := s.cv_processFinish
  workerList := s.workerList
  hired := s.hired
  info := s.info
  processPc := ProcessPc.map f g ∘ s.processPc
  callbackPc := CallbackPc.map f g ∘ s.callbackPc
  clientPc := CallPc.map f ∘ s.clientPc
  phase := s.phase
  added := s.added.map f
  fetched := s.fetched.map g
  invoked := s.invoked.map (Prod.map id g)
  pureCalls := s.pureCalls.map f

/-! ## A pipeline does not look at its jobs -/

section

variable (f : I → I') (g : O → O') {process : I → O} {process' : I' → O'}

@[simp] theorem State.map_workerList (s : State I O F) :
    (s.map f g).workerList = s.workerList := rfl

theorem processStep_map (hprocess : ∀ job, process' (f job) = g (process job)) (i : ℕ)
    (wake : Option Thread) (s : State I O F) :
    processStep process' i wake (s.map f g) =
      (processStep process i wake s).map (State.map f g) := by
  cases hpc : s.processPc i with
  | loop =>
      cases hquit : (s.info .process i).quit <;>
        simp [processStep, hpc, hquit, ProcessPc.map, State.map, Function.comp_update]
  | check =>
      cases hquit : (s.info .process i).quit <;> cases hq : s.queue_process <;>
        simp [processStep, hpc, hquit, hq, ProcessPc.map, State.map, Function.comp_update]
  | testCallback =>
      cases hcb : s.outputCallback <;>
        simp [processStep, hpc, hcb, ProcessPc.map, State.map, Function.comp_update]
  | lockProcess =>
      cases hm : s.mutex_process.lock (.worker .process i) <;>
        simp [processStep, hpc, hm, ProcessPc.map, State.map, Function.comp_update]
  | lockOutput =>
      cases hm : s.mutex_output.lock (.worker .process i) <;>
        simp [processStep, hpc, hm, ProcessPc.map, State.map, Function.comp_update]
  | notify =>
      cases hcv : s.cv_processFinish.notifyOne wake <;>
        simp [processStep, hpc, hcv, ProcessPc.map, State.map, Function.comp_update]
  | wait =>
      by_cases hmem : Thread.worker .process i ∈ s.cv_jobAdd
      · simp [processStep, hpc, hmem, ProcessPc.map, State.map]
      · cases hm : s.mutex_process.lock (.worker .process i) <;>
          simp [processStep, hpc, hmem, hm, ProcessPc.map, State.map, Function.comp_update]
  | branch =>
      cases hquit : (s.info .process i).quit <;> cases hq : s.queue_process <;>
        simp [processStep, hpc, hquit, hq, ProcessPc.map, State.map, Function.comp_update]
  | callProcess job =>
      by_cases halive : s.phase = .alive <;>
        simp [processStep, hpc, halive, hprocess, ProcessPc.map, State.map, Function.comp_update]
  | _ => simp [processStep, hpc, ProcessPc.map, State.map, Function.comp_update]

theorem ended_map (s : State I O F) (crew : Crew) (i : ℕ) :
    (s.map f g).ended crew i = s.ended crew i := by
  cases crew with
  | process =>
      simp only [State.ended, State.map, Function.comp_apply]
      cases s.processPc i <;> rfl
  | callback =>
      simp only [State.ended, State.map, Function.comp_apply]
      cases s.callbackPc i <;> rfl

/-- A call with its state, renamed. -/
def mapCall : State I O F × CallPc I F → State I' O' F × CallPc I' F :=
  Prod.map (State.map f g) (CallPc.map f)

theorem resume_map (s : State I O F) (ret : Return) :
    resume (s.map f g) ret = mapCall f g (resume s ret) := by
  cases ret <;> rfl

theorem startWorker_map (s : State I O F) (i : ℕ) (crew : Crew) :
    startWorker (s.map f g) i crew = (startWorker s i crew).map f g := by
  cases crew <;> simp [startWorker, State.map, Function.comp_update, ProcessPc.map, CallbackPc.map]

theorem notifyAll_map (s : State I O F) (crew : Crew) :
    notifyAll (s.map f g) crew = (notifyAll s crew).map f g := by
  cases crew <;> rfl

theorem hireStep_map (crew : Crew) (count : ℕ) (ret : Return) (pc : HirePc) (s : State I O F) :
    hireStep crew count ret pc (s.map f g) =
      (hireStep crew count ret pc s).map (mapCall f g) := by
  cases pc with
  | hire =>
      by_cases hlt : (s.workerList crew).length < count
      · have hnew := startWorker_map f g
          ({ s with hired := Function.update s.hired crew (s.hired crew + 1) }.setInfo crew
            (s.hired crew) {}) (s.hired crew) crew
        simp only [hireStep, State.map, hlt, if_true, Option.map_some, mapCall, Prod.map_apply,
          CallPc.map]
        exact congrArg (fun t => some (t, _)) hnew
      · simp [hireStep, State.map, hlt, mapCall, CallPc.map]
  | early =>
      by_cases heq : s.callbackWorkerList.length = count
      · have heq' : (s.map f g).callbackWorkerList.length = count := heq
        simp [hireStep, heq, heq', resume_map]
      · have heq' : (s.map f g).callbackWorkerList.length ≠ count := heq
        simp [hireStep, heq, heq', mapCall, CallPc.map]
  | fire =>
      cases hlist : s.workerList crew with
      | nil => simp [hireStep, hlist, resume_map]
      | cons id rest =>
          by_cases hlt : count < rest.length + 1
          · simp [hireStep, hlist, hlt, mapCall, CallPc.map]
          · simp [hireStep, hlist, hlt, resume_map]
  | status id =>
      by_cases hex : (s.info crew id).status = .EXITED <;>
        simp [hireStep, hex, mapCall, CallPc.map, State.map]
  | notifyAll id => simp [hireStep, notifyAll_map, mapCall, CallPc.map]
  | join id =>
      cases hend : s.ended crew id <;>
        simp [hireStep, ended_map, hend, mapCall, CallPc.map]
  | _ => simp [hireStep, mapCall, CallPc.map, State.map]

theorem callStep_map (t : Thread) (wake : Option Thread) (pc : CallPc I F) (s : State I O F) :
    callStep t wake (pc.map f) (s.map f g) = (callStep t wake pc s).map (mapCall f g) := by
  cases pc with
  | addJobLock | clearProcessLock =>
      cases hm : s.mutex_process.lock t <;>
        simp [callStep, hm, mapCall, CallPc.map, State.map]
  | getProductLock | clearOutputLock =>
      cases hm : s.mutex_output.lock t <;>
        simp [callStep, hm, mapCall, CallPc.map, State.map]
  | addJobNotify =>
      cases hcv : s.cv_jobAdd.notifyOne wake <;>
        simp [callStep, hcv, mapCall, CallPc.map, State.map]
  | getProductTake =>
      cases hq : s.queue_output <;> simp [callStep, hq, mapCall, CallPc.map, State.map]
  | countLock =>
      cases hm : s.mutex_process.lock t <;> cases hm' : s.mutex_output.lock t <;>
        simp [callStep, hm, hm', mapCall, CallPc.map, State.map]
  | countScan rest p n k =>
      cases rest with
      | nil => simp [callStep, mapCall, CallPc.map, State.map]
      | cons id rest =>
          by_cases hbusy : (s.info .process id).status = .BUSY <;>
            simp [callStep, hbusy, mapCall, CallPc.map, State.map]
  | setCallbackLock method =>
      cases hm : s.mutex_outputCallback.lock t <;>
        simp [callStep, hm, mapCall, CallPc.map, State.map]
  | hireFire crew count pc ret => exact hireStep_map f g crew count ret pc s
  | _ => simp [callStep, mapCall, CallPc.map, State.map]

theorem callbackStep_map (i : ℕ) (wake : Option Thread) (s : State I O F) :
    callbackStep i wake (s.map f g) = (callbackStep i wake s).map (State.map f g) := by
  cases hpc : s.callbackPc i with
  | loop =>
      cases hquit : (s.info .callback i).quit <;>
        simp [callbackStep, hpc, hquit, CallbackPc.map, State.map, Function.comp_update]
  | lockOutput | lockRequeue =>
      cases hm : s.mutex_output.lock (.worker .callback i) <;>
        simp [callbackStep, hpc, hm, CallbackPc.map, State.map, Function.comp_update]
  | tryShared | lockShared =>
      cases hm : s.mutex_outputCallback.lockShared (.worker .callback i) <;>
        simp [callbackStep, hpc, hm, CallbackPc.map, State.map, Function.comp_update]
  | unlockCheck notGonnaLock =>
      cases notGonnaLock <;>
        simp [callbackStep, hpc, CallbackPc.map, State.map, Function.comp_update]
  | wait =>
      by_cases hmem : Thread.worker .callback i ∈ s.cv_processFinish
      · simp [callbackStep, hpc, hmem, CallbackPc.map, State.map]
      · cases hm : s.mutex_output.lock (.worker .callback i) <;>
          simp [callbackStep, hpc, hmem, hm, CallbackPc.map, State.map, Function.comp_update]
  | branch =>
      cases hquit : (s.info .callback i).quit <;> cases hq : s.queue_output <;>
        simp [callbackStep, hpc, hquit, hq, CallbackPc.map, State.map, Function.comp_update]
  | test =>
      cases hcb : s.outputCallback <;>
        simp [callbackStep, hpc, hcb, CallbackPc.map, CallPc.map, State.map, Function.comp_update]
  | inCallback method product call =>
      by_cases hout : call = .out
      · subst hout
        simp [callbackStep, hpc, CallbackPc.map, CallPc.map, State.map, Function.comp_update]
      · -- the call that the callback makes takes the step
        have hself : callbackStep i wake s =
            (callStep (.worker .callback i) wake call s).map fun r =>
              r.1.goCallback i (.inCallback method product r.2) := by
          simp only [callbackStep, hpc]
        have hpc' : (s.map f g).callbackPc i = .inCallback method (g product) (call.map f) := by
          simp [State.map, hpc, CallbackPc.map]
        have hout' : call.map f ≠ .out := by
          intro hno
          cases call <;> first | exact hout rfl | cases hno
        have hmap : callbackStep i wake (s.map f g) =
            (callStep (.worker .callback i) wake (call.map f) (s.map f g)).map fun r =>
              r.1.goCallback i (.inCallback method (g product) r.2) := by
          simp only [callbackStep, hpc']
        rw [hself, hmap, callStep_map, Option.map_map, Option.map_map]
        congr 1
        funext t
        simp [mapCall, State.map, CallbackPc.map, Function.comp_update]
  | unlockShared callbackFail =>
      cases callbackFail <;>
        simp [callbackStep, hpc, CallbackPc.map, State.map, Function.comp_update]
  | _ => simp [callbackStep, hpc, CallbackPc.map, State.map, Function.comp_update]

theorem step_map (hprocess : ∀ job, process' (f job) = g (process job)) (s : State I O F)
    (a : Action I F) :
    step process' (s.map f g) (a.map f) = (step process s a).map (State.map f g) := by
  cases a with
  | process i wake =>
      by_cases hi : i < s.hired .process
      · have hi' : i < (s.map f g).hired .process := hi
        simp only [step, Action.map, hi, hi', if_true]
        exact processStep_map f g hprocess i wake s
      · have hi' : ¬ i < (s.map f g).hired .process := hi
        simp only [step, Action.map, hi, hi', if_false, Option.map_none]
  | callback i wake =>
      by_cases hi : i < s.hired .callback
      · have hi' : i < (s.map f g).hired .callback := hi
        simp only [step, Action.map, hi, hi', if_true]
        exact callbackStep_map f g i wake s
      · have hi' : ¬ i < (s.map f g).hired .callback := hi
        simp only [step, Action.map, hi, hi', if_false, Option.map_none]
  | client c wake =>
      have hcall := callStep_map f g (.client c) wake (s.clientPc c) s
      simp only [step, Action.map]
      rw [show (s.map f g).clientPc c = (s.clientPc c).map f from rfl, hcall, Option.map_map,
        Option.map_map]
      congr 1
      funext t
      simp [mapCall, State.map, Function.comp_update]
  | call c op =>
      have hentry : (op.map f).entry = op.entry.map f := by cases op <;> rfl
      cases hphase : s.phase <;> cases hpc : s.clientPc c <;>
        simp [step, Action.map, State.map, hphase, hpc, hentry, CallPc.map, Function.comp_update]
  | nest i op =>
      have hop : (op.map f).nestable = op.nestable := by cases op <;> rfl
      have hentry : (op.map f).entry = op.entry.map f := by cases op <;> rfl
      cases hpc : s.callbackPc i with
      | inCallback method product call =>
          cases call with
          | out =>
              by_cases hi : i < s.hired .callback ∧ op.nestable = true <;>
                simp [step, Action.map, State.map, hpc, CallbackPc.map, CallPc.map, hop, hentry,
                  hi, Function.comp_update]
          | _ => simp [step, Action.map, State.map, hpc, CallbackPc.map, CallPc.map]
      | _ => simp [step, Action.map, State.map, hpc, CallbackPc.map]
  | destroy c =>
      cases hphase : s.phase <;> cases hpc : s.clientPc c <;>
        simp [step, Action.map, State.map, hphase, hpc, CallPc.map, Function.comp_update]
  | spurious t => rfl

theorem State.initial_map (workerCnt : ℕ) :
    (State.initial workerCnt : State I O F).map f g = State.initial workerCnt := by
  simp only [State.initial, State.map, Function.comp_update, List.map_nil]
  rfl

/-! ## The rules for callers do not look at the jobs either -/

theorem Action.map_starts (a : Action I F) : (a.map f).starts = a.starts := by
  cases a with
  | call c op | nest i op => cases op <;> rfl
  | _ => rfl

theorem CallPc.map_resizing (pc : CallPc I F) : (pc.map f).resizing = pc.resizing := by
  cases pc <;> rfl

theorem CallPc.map_counting (pc : CallPc I F) : (pc.map f).counting = pc.counting := by
  cases pc <;> rfl

theorem State.map_doing (s : State I O F) (u : Thread) :
    (s.map f g).doing u = (s.doing u).map f := by
  cases u with
  | client c => rfl
  | worker crew i =>
      cases crew with
      | process => rfl
      | callback =>
          simp only [State.doing, State.map, Function.comp_apply]
          cases s.callbackPc i <;> rfl

theorem Action.map_entry (a : Action I F) :
    (a.map f).entry = a.entry.map (Prod.map id (CallPc.map f)) := by
  cases a with
  | call c op | nest i op => cases op <;> rfl
  | _ => rfl

theorem State.map_call (s : State I O F) (a : Action I F) :
    (s.map f g).call (a.map f) = (s.call a).map (CallPc.map f) := by
  cases a with
  | callback i wake =>
      simp only [State.call, Action.map, State.map, Function.comp_apply]
      cases s.callbackPc i <;> rfl
  | _ => rfl

theorem apart_map (s : State I O F) (a : Action I F) :
    Apart (s.map f g) (a.map f) ↔ Apart s a := by
  have hlock : ∀ pc : CallPc I F, pc.map f = .countLock ↔ pc = .countLock := by
    intro pc
    cases pc <;> simp [CallPc.map]
  simp only [Apart, BeforeDestruction, ListApart, Action.map_starts, Action.map_entry,
    State.map_call, State.map_doing, CallPc.map_resizing, CallPc.map_counting,
    Option.map_eq_some_iff, hlock]
  constructor
  · rintro ⟨hstarts, hentry, hcall⟩
    refine ⟨hstarts, fun u pc ha hpc => hentry u (pc.map f) ⟨(u, pc), ha, rfl⟩ ?_,
      fun ha => hcall ⟨_, ha, rfl⟩⟩
    rwa [CallPc.map_resizing]
  · rintro ⟨hstarts, hentry, hcall⟩
    refine ⟨hstarts, ?_, ?_⟩
    · rintro u pc ⟨⟨v, pc'⟩, ha, hmap⟩ hpc
      obtain ⟨rfl, rfl⟩ := Prod.mk.inj hmap
      rw [CallPc.map_resizing] at hpc
      exact hentry v pc' ha hpc
    · rintro ⟨pc, ha, rfl⟩
      exact hcall ha

end

/-! ## Numbers -/

/-- The product carries the number of its job. -/
def numbered (process : I → O) : ℕ × I → ℕ × O := Prod.map id process

/-- The pipeline without the numbers. -/
abbrev State.erase (s : State (ℕ × I) (ℕ × O) F) : State I O F := s.map Prod.snd Prod.snd

/-- The job that a call is about to push. -/
def CallPc.adding : CallPc I F → Option I
  | .addJobLock meterial | .addJobPush meterial => some meterial
  | _ => none

/-- The numbers of the jobs, pushed or about to be, are different. -/
structure Distinct (s : State (ℕ × I) (ℕ × O) F) : Prop where
  added : (s.added.map Prod.fst).Nodup
  adding : ∀ u job, (s.doing u).adding = some job → job.1 ∉ s.added.map Prod.fst
  apart : ∀ u v job job', (s.doing u).adding = some job → (s.doing v).adding = some job' →
    job.1 = job'.1 → u = v
  bounded : ∃ n, (∀ k ∈ s.added.map Prod.fst, k < n) ∧
    ∀ u job, (s.doing u).adding = some job → job.1 < n

/-- A run of the pipeline, with numbers that tell its jobs apart. -/
structure NumberedRun (process : I → O) (workerCnt : ℕ) (s t : State I O F)
    (s' t' : State (ℕ × I) (ℕ × O) F) : Prop where
  reach : (machine (numbered process) workerCnt).ReachBy Apart s'
  run : (machine (numbered process) workerCnt).RunBy Apart s' t'
  distinct : (t'.added.map Prod.fst).Nodup
  before : s'.erase = s
  after : t'.erase = t

/-- What the next statement of a call pushes. -/
def CallPc.pushes : CallPc I F → List I
  | .addJobPush meterial => [meterial]
  | _ => []

theorem CallStep.adding {u : Thread} {s t : State I O F} {pc pc' : CallPc I F}
    (h : CallStep u s pc t pc') :
    (t.added = s.added ∧ pc.pushes = [] ∧ pc'.adding = pc.adding) ∨
      ∃ job, pc = .addJobPush job ∧ t.added = s.added ++ [job] ∧ pc'.adding = none := by
  cases h with
  | add job => exact .inr ⟨job, rfl, rfl, rfl⟩
  | go h | lockProcess h | lockOutput h | unlockProcess h | unlockOutput h =>
      cases h <;> exact .inl ⟨rfl, rfl, rfl⟩
  | @create crew | @notifyAll crew => cases crew <;> exact .inl ⟨rfl, rfl, rfl⟩
  | @returns _ _ ret => cases ret <;> exact .inl ⟨rfl, rfl, rfl⟩
  | _ => exact .inl ⟨rfl, rfl, rfl⟩

theorem CallStep.added {u : Thread} {s t : State I O F} {pc pc' : CallPc I F}
    (h : CallStep u s pc t pc') : t.added = s.added ++ pc.pushes := by
  rcases h.adding with ⟨hadded, hnone, -⟩ | ⟨job, rfl, hadded, -⟩
  · rw [hadded, hnone, List.append_nil]
  · exact hadded

/-- What a step pushes into `queue_process`. -/
def State.pushes (s : State I O F) (a : Action I F) : List I :=
  match s.call a with
  | some call => call.pushes
  | none => []

theorem Step.added {process : I → O} {s t : State I O F} {a : Action I F}
    (h : Step process s a t) : t.added = s.added ++ s.pushes a := by
  cases h with
  | process hi h => cases h <;> exact (List.append_nil _).symm
  | @callback i wake _ hi h =>
      cases h with
      | nested hpc h =>
          refine h.added.trans ?_
          simp only [State.pushes, State.call, hpc]
      | go h | sets h | lock h | leave h | lockShared h | unlockShared h =>
          refine (List.append_nil _).symm.trans (congrArg _ ?_)
          simp only [State.pushes, State.call]
          generalize s.callbackPc i = pc at h
          cases h <;> rfl
      | block hpc | pick hpc | invoke hpc | requeue hpc =>
          refine (List.append_nil _).symm.trans (congrArg _ ?_)
          simp only [State.pushes, State.call, hpc]
  | client h => exact h.added
  | call | nest | destroy | spurious => exact (List.append_nil _).symm

section

variable {s t : State (ℕ × I) (ℕ × O) F}

/-- Steps that push nothing and leave the calls alone, or end one. -/
theorem Distinct.keep (hs : Distinct s) (hadded : t.added = s.added)
    (hdoing : ∀ u job, (t.doing u).adding = some job → (s.doing u).adding = some job) :
    Distinct t := by
  refine ⟨?_, ?_, ?_, ?_⟩
  · rw [hadded]
    exact hs.added
  · rw [hadded]
    exact fun u job hu => hs.adding u job (hdoing u job hu)
  · exact fun u v job job' hu hv => hs.apart u v job job' (hdoing u job hu) (hdoing v job' hv)
  · rw [hadded]
    obtain ⟨n, hpushed, hcalls⟩ := hs.bounded
    exact ⟨n, hpushed, fun u job hu => hcalls u job (hdoing u job hu)⟩

/-- The job that thread `u` was about to push is pushed. -/
theorem Distinct.push (hs : Distinct s) {u : Thread} {job : ℕ × I} {pc : CallPc (ℕ × I) F}
    (hu : (s.doing u).adding = some job) (hadded : t.added = s.added ++ [job])
    (hpc : pc.adding = none) (hdoing : t.doing = Function.update s.doing u pc) : Distinct t := by
  have hold : ∀ v job', (t.doing v).adding = some job' →
      v ≠ u ∧ (s.doing v).adding = some job' := by
    intro v job' hv
    by_cases hvu : v = u
    · rw [hdoing, hvu, Function.update_self, hpc] at hv
      cases hv
    · rw [hdoing, Function.update_of_ne hvu] at hv
      exact ⟨hvu, hv⟩
  refine ⟨?_, ?_, ?_, ?_⟩
  · rw [hadded, List.map_append, List.map_singleton]
    refine List.nodup_append.mpr ⟨hs.added, List.nodup_singleton _, ?_⟩
    rintro k hk k' hk' rfl
    rw [List.mem_singleton.mp hk'] at hk
    exact hs.adding u job hu hk
  · intro v job' hv
    obtain ⟨hvu, hv⟩ := hold v job' hv
    rw [hadded, List.map_append, List.map_singleton, List.mem_append, List.mem_singleton]
    rintro (hmem | heq)
    · exact hs.adding v job' hv hmem
    · exact hvu (hs.apart v u job' job hv hu heq)
  · intro v w job' job'' hv hw
    exact hs.apart v w job' job'' (hold v job' hv).2 (hold w job'' hw).2
  · obtain ⟨n, hpushed, hcalls⟩ := hs.bounded
    refine ⟨n, ?_, fun v job' hv => hcalls v job' (hold v job' hv).2⟩
    rw [hadded, List.map_append, List.map_singleton]
    intro k hk
    rcases List.mem_append.mp hk with hk | hk
    · exact hpushed k hk
    · rw [List.mem_singleton.mp hk]
      exact hcalls u job hu

/-- A call begins, and carries a number of its own if it brings a job. -/
theorem Distinct.enter (hs : Distinct s) {n : ℕ} {u : Thread} {pc : CallPc (ℕ × I) F}
    (hpushed : ∀ k ∈ s.added.map Prod.fst, k < n)
    (hcalls : ∀ v job, (s.doing v).adding = some job → job.1 < n)
    (hpc : ∀ job, pc.adding = some job → job.1 = n) (hadded : t.added = s.added)
    (hdoing : t.doing = Function.update s.doing u pc) : Distinct t := by
  have hcase : ∀ v job, (t.doing v).adding = some job →
      v = u ∧ job.1 = n ∨ v ≠ u ∧ (s.doing v).adding = some job := by
    intro v job hv
    by_cases hvu : v = u
    · rw [hdoing, hvu, Function.update_self] at hv
      exact .inl ⟨hvu, hpc job hv⟩
    · rw [hdoing, Function.update_of_ne hvu] at hv
      exact .inr ⟨hvu, hv⟩
  refine ⟨?_, ?_, ?_, ?_⟩
  · rw [hadded]
    exact hs.added
  · intro v job hv hmem
    rw [hadded] at hmem
    rcases hcase v job hv with ⟨-, hn⟩ | ⟨-, hv⟩
    · exact (hpushed _ hmem).ne hn
    · exact hs.adding v job hv hmem
  · intro v w job job' hv hw heq
    rcases hcase v job hv with ⟨rfl, hn⟩ | ⟨-, hv⟩ <;>
      rcases hcase w job' hw with ⟨rfl, hn'⟩ | ⟨-, hw⟩
    · rfl
    · exact absurd (heq.symm.trans hn) (hcalls w job' hw).ne
    · exact absurd (heq.trans hn') (hcalls v job hv).ne
    · exact hs.apart v w job job' hv hw heq
  · refine ⟨n + 1, fun k hk => ?_, fun v job hv => ?_⟩
    · rw [hadded] at hk
      exact (hpushed k hk).trans (Nat.lt_succ_self n)
    · rcases hcase v job hv with ⟨-, hn⟩ | ⟨-, hv⟩
      · rw [hn]
        exact Nat.lt_succ_self n
      · exact (hcalls v job hv).trans (Nat.lt_succ_self n)

theorem Distinct.step {process : I → O} {a : Action (ℕ × I) F} {n : ℕ} (hs : Distinct s)
    (hpushed : ∀ k ∈ s.added.map Prod.fst, k < n)
    (hcalls : ∀ v job, (s.doing v).adding = some job → job.1 < n)
    (ha : ∀ u pc job, a.entry = some (u, pc) → pc.adding = some job → job.1 = n)
    (h : Activity (numbered process) s a t) : Distinct t := by
  cases h with
  | process hi h _ hdoing =>
      exact hs.keep (by cases h <;> rfl) (by rw [hdoing]; exact fun _ _ => id)
  | callback hi h _ hdoing _ hframe =>
      exact hs.keep hframe.added (by rw [hdoing]; exact fun _ _ => id)
  | @call u s' pc _ h hdoing halike =>
      rcases h.adding with ⟨hadded, -, hpc⟩ | ⟨job, hjob, hadded, hpc⟩
      · refine hs.keep (halike.added.trans hadded) fun v job hv => ?_
        rw [hdoing] at hv
        by_cases hvu : v = u
        · subst hvu
          rw [Function.update_self] at hv
          rw [← hpc, hv]
        · rwa [Function.update_of_ne hvu] at hv
      · exact hs.push (by rw [hjob]; rfl) (halike.added.trans hadded) hpc hdoing
  | @entry u pc hentry hout hdoing halike =>
      exact hs.enter hpushed hcalls (fun job => ha u pc job hentry) halike.added hdoing
  | spurious _ hdoing ht =>
      exact hs.keep (by rw [ht]) (by rw [hdoing]; exact fun _ _ => id)

end

/-- A step without numbers is a step with a new number. -/
theorem numbered_step {process : I → O} {workerCnt : ℕ} {s : State (ℕ × I) (ℕ × O) F}
    {a : Action I F} {u : State I O F}
    (hs : (machine (numbered process) workerCnt).ReachBy Apart s ∧ Distinct s)
    (hG : Apart s.erase a) (hst : step process s.erase a = some u) :
    ∃ a' t, Apart s a' ∧ step (numbered process) s a' = some t ∧ t.erase = u ∧
      (machine (numbered process) workerCnt).ReachBy Apart t ∧ Distinct t := by
  obtain ⟨hreach, hdistinct⟩ := hs
  obtain ⟨n, hpushed, hcalls⟩ := hdistinct.bounded
  have hmap : (a.map fun job => (n, job)).map Prod.snd = a := by
    cases a with
    | call c op | nest i op => cases op <;> rfl
    | _ => rfl
  have hprocess : ∀ job, process job.2 = (numbered process job).2 := fun _ => rfl
  have hstep := step_map Prod.snd Prod.snd hprocess s (a.map fun job => (n, job))
  rw [hmap, hst] at hstep
  obtain ⟨t, ht, rfl⟩ := Option.map_eq_some_iff.mp hstep.symm
  have hapart : Apart s (a.map fun job => (n, job)) := by
    rwa [← apart_map Prod.snd Prod.snd, hmap]
  refine ⟨_, t, hapart, ht, rfl, hreach.next hapart ht, ?_⟩
  refine hdistinct.step hpushed hcalls ?_ ((step_cases ht).activity (unborn hreach))
  intro v pc job hentry hjob
  rw [Action.map_entry] at hentry
  obtain ⟨⟨v', pc'⟩, -, heq⟩ := Option.map_eq_some_iff.mp hentry
  obtain ⟨-, rfl⟩ := Prod.mk.inj heq
  cases pc' <;> cases hjob <;> rfl

theorem numbered_from {process : I → O} {workerCnt : ℕ} {s : State (ℕ × I) (ℕ × O) F}
    {u : State I O F} (hs : (machine (numbered process) workerCnt).ReachBy Apart s ∧ Distinct s)
    (h : (machine process workerCnt).RunBy Apart s.erase u) :
    ∃ t, (machine (numbered process) workerCnt).RunBy Apart s t ∧ t.erase = u ∧
      (machine (numbered process) workerCnt).ReachBy Apart t ∧ Distinct t := by
  refine Machine.RunBy.lift (π := State.erase) ?_ hs h
  exact fun s a u hs hG hst => numbered_step hs hG hst

/-- Every run can be numbered. -/
theorem numbered_run {process : I → O} {workerCnt : ℕ} {s t : State I O F}
    (h : (machine process workerCnt).ReachBy Apart s)
    (hrun : (machine process workerCnt).RunBy Apart s t) :
    ∃ s' t', NumberedRun process workerCnt s t s' t' := by
  obtain ⟨s₀, rfl, hpre⟩ := h
  have hstart : (machine (numbered process) workerCnt).ReachBy Apart
      (State.initial workerCnt : State (ℕ × I) (ℕ × O) F) := .start rfl
  have hdistinct : Distinct (State.initial workerCnt : State (ℕ × I) (ℕ × O) F) := by
    have hnobody : ∀ u job, ((State.initial workerCnt : State (ℕ × I) (ℕ × O) F).doing u).adding ≠
        some job := by
      intro u job
      rcases doing_initial (s := (State.initial workerCnt : State (ℕ × I) (ℕ × O) F)) rfl u with
        hdoing | ⟨-, hdoing⟩ <;>
      · rw [hdoing]
        nofun
    exact ⟨List.nodup_nil, fun u job hu => absurd hu (hnobody u job),
      fun u _ job _ hu => absurd hu (hnobody u job), 0, nofun,
      fun u job hu => absurd hu (hnobody u job)⟩
  rw [← State.initial_map Prod.snd Prod.snd] at hpre
  obtain ⟨s', -, rfl, hs'⟩ := numbered_from ⟨hstart, hdistinct⟩ hpre
  obtain ⟨t', hrun', rfl, ht'⟩ := numbered_from hs' hrun
  exact ⟨s', t', hs'.1, hrun', ht'.2.added, rfl, rfl⟩

end Pipeline
