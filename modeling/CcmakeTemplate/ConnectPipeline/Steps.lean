import CcmakeTemplate.ConnectPipeline.Model
import CcmakeTemplate.TickObservers.Components

/-!
# What one step of a connected pipeline can do

The step functions of the model, inverted once. The ticks are those of a `periodicWork` with
its observers, whatever the connections do, and a worker of the pool keeps the observer that
it runs until it ends.
-/

namespace ConnectPipeline

open Concurrency

variable {F G H σ I O : Type} {p : Program F σ I O}

inductive ObserverStep (p : Program F σ I O) (i : ℕ) (s : State F G H σ I O) :
    State F G H σ I O → Prop
  | begins {k : ℕ} (hruns : s.runs i = some k) (hpc : s.observerPc i = .enter) :
      ObserverStep p i s (s.goObserver i (.inFactory k (s.memory k)))
  | throws {k : ℕ} {read memory : σ} (hpc : s.observerPc i = .inFactory k read)
      (hcall : p.factory k read = (none, memory)) :
      ObserverStep p i s ({ s with
        memory := Function.update s.memory k memory
        results := Function.update s.results k (s.results k ++ [none]) }.goObserver i
          (.leave .throws))
  | returns {k : ℕ} {read memory : σ} {job : I} (hpc : s.observerPc i = .inFactory k read)
      (hcall : p.factory k read = (some job, memory)) :
      ObserverStep p i s ({ s with
        memory := Function.update s.memory k memory
        results := Function.update s.results k (s.results k ++ [some job]) }.goObserver i
          (.addJob k job))
  | passes {k : ℕ} {job : I} {pipe : Pipeline.State I O H} (hpc : s.observerPc i = .addJob k job)
      (h : Pipeline.step p.process s.pipe (.call (2 * i + 1) (.addJob job)) = some pipe) :
      ObserverStep p i s ({ s with
        pipe
        passed := Function.update s.passed k (s.passed k ++ [job]) }.goObserver i .inAddJob)
  | back (hpc : s.observerPc i = .inAddJob) (hout : s.pipe.clientPc (2 * i + 1) = .out) :
      ObserverStep p i s (s.goObserver i (.leave .returns))

theorem observerStep_cases {i : ℕ} {s t : State F G H σ I O}
    (h : observerStep p i s = some t) : s.runs i ≠ none ∧ ObserverStep p i s t := by
  cases hruns : s.runs i with
  | none => simp [observerStep, hruns] at h
  | some k =>
      refine ⟨nofun, ?_⟩
      cases hpc : s.observerPc i with
      | enter =>
          simp only [observerStep, hruns, hpc] at h
          cases h
          exact .begins hruns hpc
      | inFactory k read =>
          rcases hcall : p.factory k read with ⟨job, memory⟩
          simp only [observerStep, hruns, hpc, hcall] at h
          split at h
          · cases job with
            | none =>
                cases h
                exact .throws hpc hcall
            | some job =>
                cases h
                exact .returns hpc hcall
          · cases h
      | addJob k job =>
          simp only [observerStep, hruns, hpc] at h
          obtain ⟨pipe, hpipe, rfl⟩ := Option.map_eq_some_iff.mp h
          exact .passes hpc hpipe
      | inAddJob =>
          simp only [observerStep, hruns, hpc] at h
          split at h
          · rename_i hout
            cases h
            exact .back hpc hout
          · cases h
      | leave outcome => simp [observerStep, hruns, hpc] at h

inductive Step (p : Program F σ I O) (s : State F G H σ I O) :
    Action F G I H → State F G H σ I O → Prop
  | ticks {a : TickObservers.Action F (Observer G)} {ticks : TickObservers.State F (Observer G)}
      (hends : ∀ i outcome, a ≠ .observers (.finish i outcome))
      (h : TickObservers.step p.maxLag s.ticks a = some ticks) :
      Step p s (.ticks a) { s with ticks }
  | finish {i : ℕ} {outcome : MessageDistribute.Outcome}
      {ticks : TickObservers.State F (Observer G)} (hends : s.ends i outcome = true)
      (h : TickObservers.step p.maxLag s.ticks (.observers (.finish i outcome)) = some ticks) :
      Step p s (.ticks (.observers (.finish i outcome))) ({ s with ticks }.goObserver i .enter)
  | connect {v : ThreadPool.Thread} {ticks : TickObservers.State F (Observer G)}
      (h : TickObservers.step p.maxLag s.ticks
        (.observers (.start v (.addUpdateCallback (some (.connection s.connected))))) =
          some ticks) :
      Step p s (.connectPipeline v) { s with ticks, connected := s.connected + 1 }
  | observer {i : ℕ} {t : State F G H σ I O} (hruns : s.runs i ≠ none)
      (h : ObserverStep p i s t) : Step p s (.observer i) t
  | pipe {a : Pipeline.Action I H} {pipe : Pipeline.State I O H} (hadmits : admitsPipe a = true)
      (h : Pipeline.step p.process s.pipe a = some pipe) : Step p s (.pipe a) { s with pipe }

theorem step_cases {s t : State F G H σ I O} {a : Action F G I H} (h : step p s a = some t) :
    Step p s a t := by
  cases a with
  | ticks a =>
      simp only [step] at h
      split at h
      · rename_i hadmits
        obtain ⟨ticks, hticks, rfl⟩ := Option.map_eq_some_iff.mp h
        split
        · exact .finish hadmits hticks
        · rename_i hno
          exact .ticks (fun i outcome heq => hno i outcome heq) hticks
      · cases h
  | connectPipeline v =>
      simp only [step] at h
      split at h
      · obtain ⟨ticks, hticks, rfl⟩ := Option.map_eq_some_iff.mp h
        exact .connect hticks
      · cases h
  | observer i =>
      obtain ⟨hruns, hstep⟩ := observerStep_cases h
      exact .observer hruns hstep
  | pipe a =>
      simp only [step] at h
      split at h
      · rename_i hadmits
        obtain ⟨pipe, hpipe, rfl⟩ := Option.map_eq_some_iff.mp h
        exact .pipe hadmits hpipe
      · cases h

theorem ObserverStep.ticks {i : ℕ} {s t : State F G H σ I O} (h : ObserverStep p i s t) :
    t.ticks = s.ticks := by
  cases h <;> rfl

theorem refines_ticks {R : State F G H σ I O → Action F G I H → Prop} :
    (machine p : Machine (State F G H σ I O) _).Refines R
      (TickObservers.machine p.callback p.period p.maxLag) (fun _ _ => True) State.ticks where
  init := by
    rintro s rfl
    rfl
  step := by
    intro s a t _ _ hst
    cases step_cases hst with
    | ticks _ h => exact .inr ⟨_, trivial, h⟩
    | finish _ h => exact .inr ⟨.observers (.finish _ _), trivial, h⟩
    | connect h => exact .inr ⟨.observers (.start _ _), trivial, h⟩
    | observer _ h => exact .inl h.ticks
    | pipe => exact .inl rfl

/-! ## Who runs a connection -/

theorem runs_executing {s t : State F G H σ I O} {i : ℕ}
    (h : ∀ x, (s.ticks.tickObservers_.pool_.workerPc i).executing = some x →
      (t.ticks.tickObservers_.pool_.workerPc i).executing = some x)
    (hruns : t.runs i = none) : s.runs i = none := by
  simp only [State.runs] at hruns ⊢
  generalize s.ticks.tickObservers_.pool_.workerPc i = pc at h ⊢
  cases pc with
  | running task n call =>
      have hkept := h (task, n) rfl
      generalize t.ticks.tickObservers_.pool_.workerPc i = pc' at hkept hruns
      cases pc' with
      | running task' n' call' =>
          cases hkept
          exact hruns
      | _ => cases hkept
  | _ => rfl

theorem ticks_executing {s : State F G H σ I O} (h : (machine p).Reach s)
    {a : TickObservers.Action F (Observer G)} {ticks : TickObservers.State F (Observer G)}
    (hst : TickObservers.step p.maxLag s.ticks a = some ticks) {i : ℕ}
    (ha : ∀ outcome, a ≠ .observers (.finish i outcome))
    {x : MessageDistribute.Task (Observer G) Unit × ℕ}
    (hx : (s.ticks.tickObservers_.pool_.workerPc i).executing = some x) :
    (ticks.tickObservers_.pool_.workerPc i).executing = some x := by
  have hobservers := TickObservers.refines_observers.reach (refines_ticks.reach h)
  cases TickObservers.step_cases hst with
  | work => exact hx
  | distribute _ h => exact MessageDistribute.executing_kept hobservers h nofun hx
  | observers _ h =>
      refine MessageDistribute.executing_kept hobservers h (fun outcome heq => ?_) hx
      exact ha outcome (heq ▸ rfl)

/-- A worker of the pool that runs no connection is at the entry of its next one. -/
theorem idle_enter {s : State F G H σ I O} (h : (machine p).Reach s) :
    ∀ i, s.runs i = none → s.observerPc i = .enter := by
  refine h.invariant (P := fun s => ∀ i, s.runs i = none → s.observerPc i = .enter) ?_ ?_
  · rintro s rfl i _
    rfl
  · intro s a t hreach hs _ hst i hruns
    cases step_cases hst with
    | ticks hends h =>
        refine hs i (runs_executing (fun x => ?_) hruns)
        exact ticks_executing hreach h fun outcome => hends i outcome
    | @finish j outcome ticks hends h =>
        by_cases hij : i = j
        · subst hij
          exact Function.update_self ..
        · refine (Function.update_of_ne hij ..).trans (hs i (runs_executing (fun x => ?_) hruns))
          refine ticks_executing hreach h fun outcome' heq => ?_
          cases heq
          exact hij rfl
    | connect h =>
        refine hs i (runs_executing (fun x => ?_) hruns)
        exact ticks_executing hreach h nofun
    | @observer j t hj h =>
        have hsame : t.runs i = s.runs i := by simp only [State.runs, h.ticks]
        have hij : i ≠ j := by
          rintro rfl
          exact hj (hsame.symm.trans hruns)
        have hold := hs i (hsame.symm.trans hruns)
        cases h <;> exact (Function.update_of_ne hij ..).trans hold
    | pipe => exact hs i hruns

/-- There are `poolSize` workers. -/
theorem runs_lt {s : State F G H σ I O} (h : (machine p).Reach s) {i k : ℕ}
    (hruns : s.runs i = some k) : i < TickObservers.poolSize := by
  have hlife := MessageDistribute.pool_life
    (TickObservers.refines_observers.reach (refines_ticks.reach h))
  refine lt_of_lt_of_le (not_le.mp fun hle => ?_) hlife.upTo
  simp [State.runs, hlife.idle i hle] at hruns

end ConnectPipeline
