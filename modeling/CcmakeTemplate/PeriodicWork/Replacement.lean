import CcmakeTemplate.PeriodicWork.Epochs
import CcmakeTemplate.PeriodicWork.Locks

/-!
# Replacing the callback of a running `periodicWork`

A round copies `task` under `workLock` and runs the copy after it has let go of the lock, so
a `setCallback` can fall between the two. The history numbers the callbacks in the order in
which they were assigned. It keeps the number that each round copied and those that were
executed, and says how far an execution may lag behind.
-/

namespace PeriodicWork

open Concurrency Semaphore

variable {F : Type}

/-! ## The history of the callbacks -/

structure Tracked (F : Type) where
  base : State F
  /-- What was assigned to `task`, the constructor's callback first. -/
  installed : List (Option F)
  /-- For each round that has copied `task`, the number of the callback it found. -/
  copies : List ℕ
  /-- The last of these numbers for each worker. -/
  copied : ℕ → ℕ
  /-- The executions of a callback, each with the number that its round copied. -/
  ran : List (ℕ × F)

/-- The number of the callback that `task` holds. -/
def Tracked.newest (s : Tracked F) : ℕ := s.installed.length - 1

def Tracked.recordSet (s : Tracked F) (t : State F) : SetPc F → Tracked F
  | .callbackAssign f => { s with base := t, installed := s.installed ++ [f] }
  | _ => { s with base := t }

def Tracked.recordWorker (s : Tracked F) (t : State F) (i : ℕ) : WorkerPc F → Tracked F
  | .copyTask =>
      { s with
        base := t
        copies := s.copies ++ [s.newest]
        copied := Function.update s.copied i s.newest }
  | .callTask (some f) => { s with base := t, ran := s.ran ++ [(s.copied i, f)] }
  | .inTask _ (some pc) => s.recordSet t pc
  | _ => { s with base := t }

def Tracked.recordClient (s : Tracked F) (t : State F) : CallPc F → Tracked F
  | .set pc => s.recordSet t pc
  | _ => { s with base := t }

/-- The step to `t`, seen from the program point that its thread leaves. -/
def Tracked.record (s : Tracked F) (t : State F) : Action F → Tracked F
  | .worker i _ _ => s.recordWorker t i (s.base.workerPc i)
  | .client c _ _ => s.recordClient t (s.base.clientPc c)
  | _ => { s with base := t }

def trackedMachine (callback : Option F) (period maxLag : ℕ) :
    Machine (Tracked F) (Action F) where
  init := fun s => s =
    { base := State.initial callback period maxLag
      installed := [callback]
      copies := []
      copied := fun _ => 0
      ran := [] }
  step := fun s a => (step maxLag s.base a).map fun t => s.record t a

def OneTracked (s : Tracked F) : Action F → Prop := OneControl s.base

instance (s : Tracked F) (a : Action F) : Decidable (OneTracked s a) := by
  unfold OneTracked
  infer_instance

theorem Tracked.recordSet_base (s : Tracked F) (t : State F) (pc : SetPc F) :
    (s.recordSet t pc).base = t := by
  cases pc <;> rfl

theorem Tracked.record_base (s : Tracked F) (t : State F) (a : Action F) :
    (s.record t a).base = t := by
  cases a with
  | worker i =>
      simp only [Tracked.record]
      generalize s.base.workerPc i = pc
      cases pc with
      | callTask localTask => cases localTask <;> rfl
      | inTask f call =>
          cases call with
          | none => rfl
          | some pc => exact s.recordSet_base t pc
      | _ => rfl
  | client c =>
      simp only [Tracked.record]
      generalize s.base.clientPc c = pc
      cases pc with
      | set pc => exact s.recordSet_base t pc
      | _ => rfl
  | _ => rfl

theorem tracked_refines (callback : Option F) (period maxLag : ℕ) :
    (trackedMachine callback period maxLag).Refines OneTracked
      (machine callback period maxLag) OneControl Tracked.base := by
  refine ⟨?_, ?_⟩
  · rintro s rfl
    rfl
  · intro s a t _ hG hst
    obtain ⟨base, hbase, rfl⟩ := Option.map_eq_some_iff.mp hst
    refine .inr ⟨a, hG, hbase.trans ?_⟩
    rw [s.record_base]

/-! ## What one step adds to the history -/

/-- The callback that the round has copied, until the round is over. -/
def WorkerPc.holds : WorkerPc F → Option (Option F)
  | .unlockTask localTask | .callTask localTask => some localTask
  | .inTask f _ => some (some f)
  | _ => none

/-- The callback that the round has copied and not executed yet. -/
def WorkerPc.owes : WorkerPc F → Option F
  | .unlockTask localTask | .callTask localTask => localTask
  | _ => none

/-- The step copies nothing, and executes nothing that was copied. -/
structure Quiet (s t : State F) : Prop where
  holds : ∀ i, (t.workerPc i).holds = (s.workerPc i).holds ∨ (t.workerPc i).holds = none
  owes : ∀ i, (t.workerPc i).owes = (s.workerPc i).owes

inductive TrackedStep (s : Tracked F) : Tracked F → Prop
  | quiet {t : State F} (h : Quiet s.base t) (htask : t.task = s.base.task) :
      TrackedStep s { s with base := t }
  | assigns {t : State F} (h : Quiet s.base t) :
      TrackedStep s { s with base := t, installed := s.installed ++ [t.task] }
  | copies {t : State F} {i : ℕ} (hpc : s.base.workerPc i = .copyTask)
      (ht : t.workerPc = Function.update s.base.workerPc i (.unlockTask s.base.task))
      (htask : t.task = s.base.task) :
      TrackedStep s { s with
        base := t
        copies := s.copies ++ [s.newest]
        copied := Function.update s.copied i s.newest }
  | calls {t : State F} {i : ℕ} {f : F} (hpc : s.base.workerPc i = .callTask (some f))
      (ht : t.workerPc = Function.update s.base.workerPc i (.inTask f none))
      (htask : t.task = s.base.task) :
      TrackedStep s { s with base := t, ran := s.ran ++ [(s.copied i, f)] }

theorem Quiet.of_same {s t : State F} (h : t.workerPc = s.workerPc) : Quiet s t := by
  refine ⟨fun i => .inl ?_, fun i => ?_⟩ <;> rw [h]

/-- The step of worker `i` from `old` to `pc`. -/
theorem Quiet.update {s t : State F} {i : ℕ} {old pc : WorkerPc F} (hpc : s.workerPc i = old)
    (h : t.workerPc = Function.update s.workerPc i pc)
    (hholds : pc.holds = old.holds ∨ pc.holds = none) (howes : pc.owes = old.owes) :
    Quiet s t := by
  subst hpc
  refine ⟨?_, ?_⟩ <;> rw [h]
  · exact forall_update
      (P := fun i (pc : WorkerPc F) => pc.holds = (s.workerPc i).holds ∨ pc.holds = none)
      (fun _ => .inl rfl) hholds
  · exact forall_update (P := fun i (pc : WorkerPc F) => pc.owes = (s.workerPc i).owes)
      (fun _ => rfl) howes

theorem SetStep.tracked {u : Thread} {s : Tracked F} {s' t : State F} {pc : SetPc F}
    {call : Option (SetPc F)} (h : SetStep u s.base pc s' call) (hquiet : Quiet s.base t)
    (htask : t.task = s'.task) : TrackedStep s (s.recordSet t pc) := by
  cases h with
  | assign f =>
      have hstep := TrackedStep.assigns hquiet
      rwa [htask] at hstep
  | _ => exact .quiet hquiet htask

theorem WorkerStep.tracked {s : Tracked F} {t : State F} {i : ℕ} (h : WorkerStep i s.base t) :
    TrackedStep s (s.recordWorker t i (s.base.workerPc i)) := by
  cases h with
  | @go pc h =>
      generalize hpc : s.base.workerPc i = old at h
      cases h with
      | copies => exact .copies hpc rfl rfl
      | noTask | returns => exact .quiet (.update hpc rfl (.inr rfl) rfl) rfl
      | _ => exact .quiet (.update hpc rfl (.inl rfl) rfl) rfl
  | @does event pc h =>
      generalize hpc : s.base.workerPc i = old at h
      cases h with
      | calls f => exact .calls hpc rfl rfl
      | begins | distributes => exact .quiet (.update hpc rfl (.inl rfl) rfl) rfl
  | sem hpc h | lock hpc | unlock hpc =>
      rw [hpc]
      exact .quiet (.update hpc rfl (.inl rfl) rfl) rfl
  | @nested f pc s' call hpc h =>
      have hworker : (s'.goWorker i (.inTask f call)).workerPc =
          Function.update s.base.workerPc i (.inTask f call) := by
        show Function.update s'.workerPc i _ = _
        rw [h.frame.2.1]
      rw [hpc]
      exact SetStep.tracked h (.update hpc hworker (.inl rfl) rfl) rfl

theorem CallStep.tracked {maxLag c : ℕ} {s : Tracked F} {t : State F} {pc : CallPc F}
    (hs : Settled s.base)
    (h : CallStep maxLag (.client c) s.base (s.base.clientPc c) t pc) :
    TrackedStep s (s.recordClient (t.goClient c pc) (s.base.clientPc c)) := by
  have hquiet : Quiet s.base (t.goClient c pc) := .of_same (h.threads hs).2
  generalize s.base.clientPc c = old at h
  cases h with
  | set h | setReturns h => exact SetStep.tracked h hquiet rfl
  | stop h =>
      refine .quiet hquiet ?_
      cases h <;> rfl
  | start h =>
      refine .quiet hquiet ?_
      cases h with
      | create j => cases j <;> rfl
      | _ => rfl

theorem trackedStep_cases {callback : Option F} {period maxLag : ℕ} {s t : Tracked F}
    {a : Action F} (hs : Settled s.base)
    (hst : (trackedMachine callback period maxLag).step s a = some t) : TrackedStep s t := by
  obtain ⟨base, hbase, rfl⟩ := Option.map_eq_some_iff.mp hst
  cases step_cases hbase with
  | timer hi h =>
      obtain ⟨pc, -, hworker, -⟩ := h.moves
      refine .quiet (.of_same hworker) ?_
      cases h <;> rfl
  | worker hi h => exact h.tracked
  | client h => exact h.tracked hs
  | @nest i op f hpc hi =>
      exact .quiet (.update hpc rfl (.inl rfl) rfl) rfl
  | set | starts | stops | tick | spurious => exact .quiet (.of_same rfl) rfl

/-! ## One round at a time -/

/-- A worker in the middle of a round is the worker of the epoch. -/
theorem round_unique {callback : Option F} {period maxLag : ℕ} {s : State F}
    (h : (machine callback period maxLag).ReachBy OneControl s) {i j : ℕ}
    (hi : s.workerPc i ≠ .loop ∧ s.workerPc i ≠ .ended)
    (hj : s.workerPc j ≠ .loop ∧ s.workerPc j ≠ .ended) : i = j := by
  have hrest := Resting.of_reach h
  have hpresent : ∀ {i}, s.workerPc i ≠ .loop ∧ s.workerPc i ≠ .ended → s.Present .worker i := by
    intro i hi
    refine ⟨?_, ?_⟩
    · by_contra hunborn
      exact hi.1 ((hrest.unborn i).2 (not_lt.mp hunborn)).1
    · by_contra hjoined
      exact hi.2 (State.ended_worker.mp (hrest.joined .worker i (Bool.not_eq_false _ ▸ hjoined)))
  exact present_unique h (hpresent hi) (hpresent hj)

theorem WorkerPc.holds_round {pc : WorkerPc F} (h : pc.holds ≠ none) :
    pc ≠ .loop ∧ pc ≠ .ended := by
  constructor <;> rintro rfl <;> exact h rfl

theorem WorkerPc.owes_holds {pc : WorkerPc F} {f : F} (h : pc.owes = some f) :
    pc.holds = some (some f) := by
  cases pc with
  | unlockTask localTask | callTask localTask => exact congrArg some h
  | _ => cases h

/-- The executions that the rounds so far call for: one for each copy that is not null. -/
def Tracked.due (s : Tracked F) : List (ℕ × F) :=
  s.copies.filterMap fun n => s.installed[n]?.join.map fun f => (n, f)

structure Fresh (s : Tracked F) : Prop where
  newest : s.installed[s.newest]? = some s.base.task
  known : ∀ n ∈ s.copies, n < s.installed.length
  sorted : s.copies.Pairwise (· ≤ ·)
  held : ∀ i localTask, (s.base.workerPc i).holds = some localTask →
    s.installed[s.copied i]? = some localTask
  executes : s.due = s.ran ∧ (∀ i, (s.base.workerPc i).owes = none) ∨
    ∃ i f, (s.base.workerPc i).owes = some f ∧ s.due = s.ran ++ [(s.copied i, f)]

theorem Fresh.newest_lt {s : Tracked F} (hs : Fresh s) : s.newest < s.installed.length :=
  (List.getElem?_eq_some_iff.mp hs.newest).1

/-- A later assignment changes nothing about the rounds so far. -/
theorem Fresh.due_assigned {s : Tracked F} (hs : Fresh s) (t : State F) (f : Option F) :
    ({ s with base := t, installed := s.installed ++ [f] } : Tracked F).due = s.due := by
  refine List.filterMap_congr ?_
  intro n hn
  rw [List.getElem?_append_left (hs.known n hn)]

/-- A copy calls for one more execution, unless it is null. -/
theorem Fresh.due_copied {s : Tracked F} (hs : Fresh s) (t : State F) (copied : ℕ → ℕ) :
    ({ s with base := t, copies := s.copies ++ [s.newest], copied := copied } : Tracked F).due =
      s.due ++ (s.base.task.map fun f => (s.newest, f)).toList := by
  simp only [Tracked.due, List.filterMap_append]
  cases htask : s.base.task <;> simp [hs.newest, htask]

theorem Fresh.quiet {s : Tracked F} {t : State F} (hs : Fresh s) (h : Quiet s.base t)
    (htask : t.task = s.base.task) : Fresh { s with base := t } := by
  refine { hs with newest := htask ▸ hs.newest, held := ?_, executes := ?_ }
  · intro i localTask hheld
    rcases h.holds i with hsame | hnone
    · exact hs.held i localTask (hsame.symm.trans hheld)
    · cases hnone.symm.trans hheld
  · rcases hs.executes with ⟨hdue, hnone⟩ | ⟨i, f, howes, hdue⟩
    · exact .inl ⟨hdue, fun i => (h.owes i).trans (hnone i)⟩
    · exact .inr ⟨i, f, (h.owes i).trans howes, hdue⟩

theorem Fresh.assigns {s : Tracked F} {t : State F} (hs : Fresh s) (h : Quiet s.base t) :
    Fresh { s with base := t, installed := s.installed ++ [t.task] } := by
  have hdue := hs.due_assigned t t.task
  refine ⟨?_, ?_, hs.sorted, ?_, ?_⟩
  · simp [Tracked.newest]
  · intro n hn
    have hlt := hs.known n hn
    simp only [List.length_append, List.length_singleton]
    omega
  · intro i localTask hheld
    rcases h.holds i with hsame | hnone
    · have hold := hs.held i localTask (hsame.symm.trans hheld)
      rw [List.getElem?_append_left (List.getElem?_eq_some_iff.mp hold).1]
      exact hold
    · cases hnone.symm.trans hheld
  · rw [hdue]
    rcases hs.executes with ⟨hdue, hnone⟩ | ⟨i, f, howes, hdue⟩
    · exact .inl ⟨hdue, fun i => (h.owes i).trans (hnone i)⟩
    · exact .inr ⟨i, f, (h.owes i).trans howes, hdue⟩

/-- While a worker is in the middle of its round, nobody else has an execution left. -/
theorem owes_only {callback : Option F} {period maxLag : ℕ} {s : State F}
    (h : (machine callback period maxLag).ReachBy OneControl s) {i : ℕ}
    (hi : s.workerPc i ≠ .loop ∧ s.workerPc i ≠ .ended) {j : ℕ} {f : F}
    (howes : (s.workerPc j).owes = some f) : j = i := by
  refine round_unique h (WorkerPc.holds_round ?_) hi
  rw [WorkerPc.owes_holds howes]
  exact Option.some_ne_none _

theorem Fresh.copies {callback : Option F} {period maxLag : ℕ} {s : Tracked F} {t : State F}
    {i : ℕ} (hreach : (machine callback period maxLag).ReachBy OneControl s.base) (hs : Fresh s)
    (hpc : s.base.workerPc i = .copyTask)
    (ht : t.workerPc = Function.update s.base.workerPc i (.unlockTask s.base.task))
    (htask : t.task = s.base.task) :
    Fresh { s with
      base := t
      copies := s.copies ++ [s.newest]
      copied := Function.update s.copied i s.newest } := by
  have hlt := hs.newest_lt
  have hnone : ∀ j, (s.base.workerPc j).owes = none := by
    intro j
    by_contra howes
    obtain ⟨f, hf⟩ := Option.ne_none_iff_exists'.mp howes
    obtain rfl := owes_only hreach (i := i) (by simp [hpc]) hf
    rw [hpc] at hf
    cases hf
  have hdue : s.due = s.ran := by
    rcases hs.executes with ⟨hdue, -⟩ | ⟨j, f, howes, -⟩
    · exact hdue
    · cases (hnone j).symm.trans howes
  refine ⟨by rw [htask]; exact hs.newest, ?_, ?_, ?_, ?_⟩
  · intro n hn
    rcases List.mem_append.mp hn with hn | hn
    · exact hs.known n hn
    · rw [List.mem_singleton.mp hn]
      exact hlt
  · refine List.pairwise_append.mpr ⟨hs.sorted, List.pairwise_singleton _ _, ?_⟩
    intro n hn m hm
    have hn := hs.known n hn
    rw [List.mem_singleton.mp hm]
    unfold Tracked.newest
    omega
  · intro j localTask hheld
    rw [ht] at hheld
    by_cases hji : j = i
    · subst hji
      simp only [Function.update_self] at hheld ⊢
      rw [← show some s.base.task = some localTask from hheld]
      exact hs.newest
    · rw [Function.update_of_ne hji] at hheld
      simp only [Function.update_of_ne hji]
      exact hs.held j localTask hheld
  · have hmore := hs.due_copied t (Function.update s.copied i s.newest)
    rw [hdue] at hmore
    cases hcopy : s.base.task with
    | none =>
        rw [hcopy] at hmore ht
        refine .inl ⟨hmore.trans (List.append_nil _), ?_⟩
        rw [ht]
        exact forall_update (P := fun _ (pc : WorkerPc F) => pc.owes = none) hnone rfl
    | some f =>
        rw [hcopy] at hmore ht
        refine .inr ⟨i, f, ?_, ?_⟩
        · rw [ht, Function.update_self]
          rfl
        · simp only [Function.update_self]
          exact hmore

theorem Fresh.calls {callback : Option F} {period maxLag : ℕ} {s : Tracked F} {t : State F}
    {i : ℕ} {f : F} (hreach : (machine callback period maxLag).ReachBy OneControl s.base)
    (hs : Fresh s) (hpc : s.base.workerPc i = .callTask (some f))
    (ht : t.workerPc = Function.update s.base.workerPc i (.inTask f none))
    (htask : t.task = s.base.task) :
    Fresh { s with base := t, ran := s.ran ++ [(s.copied i, f)] } := by
  have honly : ∀ {j g}, (s.base.workerPc j).owes = some g → j = i :=
    owes_only hreach (by simp [hpc])
  refine { hs with newest := htask ▸ hs.newest, held := ?_, executes := .inl ⟨?_, ?_⟩ }
  · intro j localTask hheld
    rw [ht] at hheld
    by_cases hji : j = i
    · subst hji
      rw [Function.update_self] at hheld
      exact hs.held j localTask (by rw [hpc]; exact hheld)
    · rw [Function.update_of_ne hji] at hheld
      exact hs.held j localTask hheld
  · have howes : (s.base.workerPc i).owes = some f := by
      rw [hpc]
      rfl
    rcases hs.executes with ⟨-, hnone⟩ | ⟨j, g, hg, hdue⟩
    · cases (hnone i).symm.trans howes
    · obtain rfl := honly hg
      cases hg.symm.trans howes
      exact hdue
  · intro j
    rw [ht]
    by_cases hji : j = i
    · rw [hji, Function.update_self]
      rfl
    · rw [Function.update_of_ne hji]
      by_contra hno
      obtain ⟨g, hg⟩ := Option.ne_none_iff_exists'.mp hno
      exact hji (honly hg)

theorem Fresh.of_reach {callback : Option F} {period maxLag : ℕ} {s : Tracked F}
    (h : (trackedMachine callback period maxLag).ReachBy OneTracked s) : Fresh s := by
  refine h.invariant (P := Fresh) ?_ ?_
  · rintro s rfl
    refine ⟨rfl, by simp, .nil, nofun, .inl ⟨rfl, fun _ => rfl⟩⟩
  · intro s a t hreach hs _ hst
    have hbase := (tracked_refines callback period maxLag).reach hreach
    cases trackedStep_cases (Resting.of_reach hbase).settled hst with
    | quiet h htask => exact hs.quiet h htask
    | assigns h => exact hs.assigns h
    | copies hpc ht htask => exact hs.copies hbase hpc ht htask
    | calls hpc ht htask => exact hs.calls hbase hpc ht htask

/-! ## After a `setCallback` -/

/-- An execution of a callback older than the one installed in `s`. -/
def Tracked.stale (s : Tracked F) (n : ℕ) : Bool := decide (n < s.newest)

/-- A worker still executes an older callback. -/
def Tracked.runsStale (s : Tracked F) : Prop :=
  ∃ i f call, s.base.workerPc i = .inTask f call ∧ s.stale (s.copied i) = true

/-- What a run from `s` to `t` has added to the history. -/
structure Since (s t : Tracked F) (started : List (ℕ × F)) (copied : List ℕ)
    (later : List (Option F)) : Prop where
  ran : t.ran = s.ran ++ started
  copies : t.copies = s.copies ++ copied
  installed : t.installed = s.installed ++ later
  /-- At most one stale execution, counting one that was on its way in `s` already. -/
  once : started.countP (fun e => s.stale e.1) ≤ 1
  none_running : s.runsStale → started.countP (fun e => s.stale e.1) = 0
  /-- While one is still to come, there has been none. -/
  pending : ∀ i f, (t.base.workerPc i).owes = some f → s.stale (t.copied i) = true →
    started.countP (fun e => s.stale e.1) = 0 ∧ ¬ s.runsStale
  current : ∀ n ∈ copied, s.newest ≤ n ∧ (later = [] → n = s.newest)

theorem Since.refl {callback : Option F} {period maxLag : ℕ} {s : Tracked F}
    (hreach : (machine callback period maxLag).ReachBy OneControl s.base) : Since s s [] [] [] := by
  refine ⟨(List.append_nil _).symm, (List.append_nil _).symm, (List.append_nil _).symm,
    Nat.zero_le _, fun _ => rfl, ?_, nofun⟩
  rintro i f howes -
  refine ⟨rfl, ?_⟩
  rintro ⟨j, g, call, hpc, -⟩
  obtain rfl := owes_only hreach (i := j) (by simp [hpc]) howes
  rw [hpc] at howes
  cases howes

theorem Since.step {callback : Option F} {period maxLag : ℕ} {s t u : Tracked F}
    {started : List (ℕ × F)} {copied : List ℕ} {later : List (Option F)}
    (hreach : (machine callback period maxLag).ReachBy OneControl t.base)
    (hs : Since s t started copied later) (h : TrackedStep t u) :
    ∃ started copied later, Since s u started copied later := by
  cases h with
  | quiet h =>
      refine ⟨started, copied, later, { hs with pending := ?_ }⟩
      intro i f howes
      exact hs.pending i f ((h.owes i).symm.trans howes)
  | @assigns v h =>
      refine ⟨started, copied, later ++ [v.task], { hs with
        installed := ?_, pending := ?_, current := ?_ }⟩
      · simp only [hs.installed, List.append_assoc]
      · intro i f howes
        exact hs.pending i f ((h.owes i).symm.trans howes)
      · intro n hn
        exact ⟨(hs.current n hn).1, by simp⟩
  | @copies v i hpc ht htask =>
      have hnewest : s.newest ≤ t.newest := by
        simp only [Tracked.newest, hs.installed, List.length_append]
        omega
      refine ⟨started, copied ++ [t.newest], later, { hs with
        copies := ?_, pending := ?_, current := ?_ }⟩
      · simp only [hs.copies, List.append_assoc]
      · intro j g hg hstale
        rw [ht] at hg
        by_cases hji : j = i
        · -- what is copied now is not stale
          simp only [hji, Function.update_self, Tracked.stale, decide_eq_true_eq] at hstale
          omega
        · rw [Function.update_of_ne hji] at hg
          exact absurd (owes_only hreach (by simp [hpc]) hg) hji
      · intro n hn
        rcases List.mem_append.mp hn with hn | hn
        · exact hs.current n hn
        · rw [List.mem_singleton.mp hn]
          refine ⟨hnewest, ?_⟩
          rintro rfl
          rw [Tracked.newest, hs.installed, List.append_nil]
          rfl
  | @calls v i f hpc ht htask =>
      have howes : (t.base.workerPc i).owes = some f := by
        rw [hpc]
        rfl
      have hnobody : ∀ j g, (v.workerPc j).owes ≠ some g := by
        intro j g hg
        rw [ht] at hg
        by_cases hji : j = i
        · rw [hji, Function.update_self] at hg
          cases hg
        · rw [Function.update_of_ne hji] at hg
          exact hji (owes_only hreach (by simp [hpc]) hg)
      have hcount : (started ++ [(t.copied i, f)]).countP (fun e => s.stale e.1) =
          started.countP (fun e => s.stale e.1) + if s.stale (t.copied i) then 1 else 0 := by
        simp [List.countP_append, List.countP_singleton]
      refine ⟨started ++ [(t.copied i, f)], copied, later, { hs with
        ran := ?_, once := ?_, none_running := ?_, pending := ?_ }⟩
      · simp only [hs.ran, List.append_assoc]
      · rw [hcount]
        split
        · rename_i hstale
          rw [(hs.pending i f howes hstale).1]
        · exact hs.once
      · intro hruns
        rw [hcount, if_neg, hs.none_running hruns]
        intro hstale
        exact (hs.pending i f howes hstale).2 hruns
      · intro j g hg
        exact absurd hg (hnobody j g)

theorem Since.of_run {callback : Option F} {period maxLag : ℕ} {s t : Tracked F}
    (hs : (trackedMachine callback period maxLag).ReachBy OneTracked s)
    (h : (trackedMachine callback period maxLag).RunBy OneTracked s t) :
    ∃ started copied later, Since s t started copied later := by
  have hrefines := tracked_refines callback period maxLag
  induction h with
  | refl => exact ⟨[], [], [], .refl (hrefines.reach hs)⟩
  | @tail t u hrun hlast ih =>
      obtain ⟨started, copied, later, hsince⟩ := ih
      obtain ⟨a, -, hst⟩ := hlast
      have hbase := hrefines.reach (hs.run hrun)
      exact hsince.step hbase (trackedStep_cases (Resting.of_reach hbase).settled hst)

theorem due_sublist (s : Tracked F) : (s.due.map Prod.fst).Sublist s.copies := by
  unfold Tracked.due
  induction s.copies with
  | nil => exact .slnil
  | cons n ns ih =>
      cases hn : s.installed[n]?.join with
      | none => simpa [List.filterMap_cons, hn] using ih.cons n
      | some f => simpa [List.filterMap_cons, hn] using ih

theorem Fresh.ran_prefix {s : Tracked F} (hs : Fresh s) : s.ran <+: s.due := by
  rcases hs.executes with ⟨hdue, -⟩ | ⟨i, f, -, hdue⟩
  · exact ⟨[], (List.append_nil _).trans hdue.symm⟩
  · exact ⟨_, hdue.symm⟩

/-- Every round executes the callback that it copied, which nobody assigns meanwhile, and the
rounds never go back to an older callback. From any moment on, as from the return of a
`setCallback`, at most one execution of a callback older than the newest one starts or is
still running, and what is copied is the newest one until another is assigned. -/
theorem replacement {callback : Option F} {period maxLag : ℕ} {s t : Tracked F}
    (hs : (trackedMachine callback period maxLag).ReachBy OneTracked s)
    (h : (trackedMachine callback period maxLag).RunBy OneTracked s t) :
    (s.due = s.ran ∨
      ∃ i f, (s.base.workerPc i).owes = some f ∧ s.due = s.ran ++ [(s.copied i, f)]) ∧
    (∀ i, s.base.workerPc i = .copyTask →
      ∀ u, s.base.inside u = true → u = .job .worker i) ∧
    (s.copies.Pairwise (· ≤ ·) ∧ (s.ran.map Prod.fst).Pairwise (· ≤ ·)) ∧
    ∃ started copied later, t.ran = s.ran ++ started ∧ t.copies = s.copies ++ copied ∧
      t.installed = s.installed ++ later ∧
      started.countP (fun e => s.stale e.1) ≤ 1 ∧
      (s.runsStale → started.countP (fun e => s.stale e.1) = 0) ∧
      ∀ n ∈ copied, s.newest ≤ n ∧ (later = [] → n = s.newest) := by
  have hfresh := Fresh.of_reach hs
  have hbase := (tracked_refines callback period maxLag).reach hs
  refine ⟨?_, ?_, ⟨hfresh.sorted, ?_⟩, ?_⟩
  · rcases hfresh.executes with ⟨hdue, -⟩ | howes
    · exact .inl hdue
    · exact .inr howes
  · intro i hpc u hu
    have hown : s.base.inside (.job .worker i) = true := by
      rw [State.inside, hpc]
      rfl
    exact (workLock_exact hbase).unique hu hown
  · have hsub : (s.ran.map Prod.fst).Sublist s.copies :=
      (hfresh.ran_prefix.sublist.map Prod.fst).trans (due_sublist s)
    exact hfresh.sorted.sublist hsub
  · obtain ⟨started, copied, later, hsince⟩ := Since.of_run hs h
    exact ⟨started, copied, later, hsince.ran, hsince.copies, hsince.installed, hsince.once,
      hsince.none_running, hsince.current⟩

/-- A callback that is replaced between the copy and the run of its round. -/
theorem replacement_between :
    ∃ s t : Tracked ℕ, (trackedMachine (some 7) 1000 1).ReachBy OneTracked s ∧
      (trackedMachine (some 7) 1000 1).RunBy OneTracked s t ∧
      s.installed = [some 7, some 8] ∧ s.ran = [] ∧ t.ran = [(0, 7)] ∧
      ∃ started, t.ran = s.ran ++ started ∧ started.countP (fun e => s.stale e.1) ≤ 1 := by
  obtain ⟨s, hs, hinstalled, hran, hcalls⟩ := Machine.ReachBy.of_exec
    (M := trackedMachine (some 7) 1000 1) (G := OneTracked)
    { base := State.initial (some 7) 1000 1, installed := [some 7], copies := [],
      copied := fun _ => 0, ran := [] }
    (runStart ++ runTimer 5 ++ runWorker 10 ++
      .set 1 (.setCallback (some 8)) :: List.replicate 3 (.client 1 false none))
    (fun s => s.installed = [some 7, some 8] ∧ s.ran = [] ∧
      ((trackedMachine (some 7) 1000 1).exec OneTracked s (runWorker 1)).any
        (fun t => decide (t.ran = [(0, 7)])) = true) rfl (by decide)
  obtain ⟨t, hrun, hstale⟩ := Machine.RunBy.of_schedule
    (p := fun t : Tracked ℕ => t.ran = [(0, 7)]) hcalls
  obtain ⟨-, -, -, started, -, -, hstarted, -, -, honce, -⟩ := replacement hs hrun
  exact ⟨s, t, hs, hrun, hinstalled, hran, hstale, started, hstarted, honce⟩

end PeriodicWork
