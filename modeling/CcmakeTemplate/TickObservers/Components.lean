import CcmakeTemplate.TickObservers.Model
import CcmakeTemplate.PeriodicWork.Requests
import CcmakeTemplate.MessageDistribute.Requests

/-!
# The two components

Each component of a reachable state is reachable in its own machine, so what was proved of
`periodicWork` and of `messageDistribute` holds here. And a thread is outside one of the two
components at least: it calls the distributor only from code outside `periodicWork`, and
goes on there only after the call has returned.
-/

namespace TickObservers

open Concurrency

variable {F G : Type} {callback : Option F} {period maxLag : ℕ}

/-! ## The step function inverted -/

inductive Step (maxLag : ℕ) (s : State F G) : Action F G → State F G → Prop
  | work {a : PeriodicWork.Action F} {work : PeriodicWork.State F} {distributing : ℕ → Bool}
      (hfree : ∀ u, a.mover = some u → s.free u = true)
      (h : PeriodicWork.step maxLag s.work a = some work) :
      Step maxLag s (.work a) { s with work, distributing }
  | distribute {i : ℕ} {observers : MessageDistribute.State G Unit} {distributing : ℕ → Bool}
      (hpc : s.work.workerPc i = .distribute)
      (h : MessageDistribute.step poolSize s.tickObservers_
        (.start (.client (2 * i + 1)) (.distribute ())) = some observers) :
      Step maxLag s (.distribute i) { s with tickObservers_ := observers, distributing }
  | observers {a : MessageDistribute.Action G Unit} {observers : MessageDistribute.State G Unit}
      (hadmits : s.admits a = true)
      (h : MessageDistribute.step poolSize s.tickObservers_ a = some observers) :
      Step maxLag s (.observers a) { s with tickObservers_ := observers }

theorem step_cases {s t : State F G} {a : Action F G} (h : step maxLag s a = some t) :
    Step maxLag s a t := by
  cases a with
  | work a =>
      simp only [step] at h
      split at h
      · rename_i hgate
        rw [Bool.and_eq_true, Option.all_eq_true] at hgate
        obtain ⟨work, hwork, rfl⟩ := Option.map_eq_some_iff.mp h
        cases a <;> exact .work hgate.1 hwork
      · cases h
  | distribute i =>
      simp only [step] at h
      split at h
      · rename_i hpc
        split at h
        · cases h
        · obtain ⟨observers, hobservers, rfl⟩ := Option.map_eq_some_iff.mp h
          exact .distribute hpc hobservers
      · cases h
  | observers a =>
      simp only [step] at h
      split at h
      · rename_i hadmits
        obtain ⟨observers, hobservers, rfl⟩ := Option.map_eq_some_iff.mp h
        exact .observers hadmits hobservers
      · cases h

/-! ## Each component by itself -/

theorem refines_work : (machine callback period maxLag : Machine (State F G) _).Refines OneControl
    (PeriodicWork.machine callback period maxLag) PeriodicWork.OneControl State.work where
  init := by
    rintro s rfl
    rfl
  step := by
    intro s a t _ hG hst
    cases step_cases hst with
    | work _ h => exact .inr ⟨_, hG, h⟩
    | distribute | observers => exact .inl rfl

theorem refines_observers {H : State F G → Action F G → Prop} :
    (machine callback period maxLag : Machine (State F G) _).Refines H
      (MessageDistribute.machine poolSize) (fun _ _ => True) State.tickObservers_ where
  init := by
    rintro s rfl
    rfl
  step := by
    intro s a t _ _ hst
    cases step_cases hst with
    | work => exact .inl rfl
    | distribute _ h => exact .inr ⟨.start _ _, trivial, h⟩
    | observers _ h => exact .inr ⟨_, trivial, h⟩

/-! ## One component at a time -/

theorem inWork_of {u : PeriodicWork.Thread} {v : ThreadPool.Thread}
    (h : inObservers u = some v) : inWork v = u := by
  rcases u with ⟨⟨⟩, i⟩ | c
  · cases h
  · obtain rfl := Option.some.inj h
    simp only [inWork]
    rw [if_neg (by omega)]
    congr 1
    omega
  · simp only [inObservers] at h
    split at h
    · rename_i heven
      obtain rfl := Option.some.inj h
      simp only [inWork]
      rw [if_pos heven]
    · rename_i hodd
      obtain rfl := Option.some.inj h
      simp only [inWork]
      congr 1
      omega

theorem State.calling_outside {s : State F G} {u : PeriodicWork.Thread}
    (h : s.calling u = true) : s.work.outside u = true := by
  rcases u with ⟨⟨⟩, i⟩ | c
  · cases h
  · simp only [calling] at h
    split at h
    · rename_i f hpc
      simp [PeriodicWork.State.outside, hpc, PeriodicWork.WorkerPc.outside]
    · cases h
  · simp only [calling] at h
    split at h
    · rename_i hpc
      simp [PeriodicWork.State.outside, hpc, PeriodicWork.CallPc.outside]
    · cases h

/-- Whoever enters the distributor is outside `periodicWork`. -/
theorem State.admits_enters {s : State F G} {a : MessageDistribute.Action G Unit}
    (h : s.admits a = true) {v : ThreadPool.Thread} (hv : a.enters = some v) :
    s.work.outside (inWork v) = true := by
  cases a with
  | pool a =>
      cases a with
      | destroy c => cases h
      | _ => cases hv
  | finish i outcome =>
      cases hv
      exact s.calling_outside h
  | start w op =>
      cases hv
      cases op with
      | addUpdateCallback | removeUpdateCallback => exact s.calling_outside h
      | _ => cases h
  | own w => cases hv

/-- No thread is inside both components. -/
def Separate (s : State F G) : Prop :=
  ∀ u v, inObservers u = some v →
    s.work.outside u = true ∨ s.tickObservers_.outside v = true

theorem State.free_outside {s : State F G} {u : PeriodicWork.Thread} {v : ThreadPool.Thread}
    (h : s.free u = true) (hv : inObservers u = some v) : s.tickObservers_.outside v = true := by
  simp only [free, hv] at h
  exact MessageDistribute.outside_iff.mpr
    ⟨MessageDistribute.State.free_out h, MessageDistribute.State.free_outside h⟩

theorem Separate.enters {s t : State F G} (hs : Separate s)
    (hreach : (MessageDistribute.machine poolSize).Reach s.tickObservers_)
    {a : MessageDistribute.Action G Unit}
    (hst : MessageDistribute.step poolSize s.tickObservers_ a = some t.tickObservers_)
    (hwork : t.work = s.work)
    (henters : ∀ v, a.enters = some v → s.work.outside (inWork v) = true) : Separate t := by
  intro u v huv
  rw [hwork]
  by_cases hv : a.enters = some v
  · exact .inl (inWork_of huv ▸ henters v hv)
  · exact (hs u v huv).imp_right (MessageDistribute.stays_outside hreach hst hv)

theorem Separate.of_reach {s : State F G}
    (h : (machine callback period maxLag).ReachBy OneControl s) : Separate s := by
  refine h.invariant (P := Separate) ?_ ?_
  · rintro s rfl u v huv
    rcases u with ⟨⟨⟩, i⟩ | c
    · cases huv
    · right
      obtain rfl := Option.some.inj huv
      simp [State.initial, MessageDistribute.State.outside, MessageDistribute.State.initial,
        MessageDistribute.Pc.isOut, ThreadPool.State.outside, ThreadPool.State.initial,
        ThreadPool.ClientPc.outside]
    · exact .inl rfl
  · intro s a t hreach hs _ hst
    have hobservers := refines_observers.reach hreach
    cases step_cases hst with
    | @work a work distributing hfree h =>
        intro u v huv
        by_cases hu : a.mover = some u
        · exact .inr (s.free_outside (hfree u hu) huv)
        · have hsettled := (PeriodicWork.Resting.of_reach (refines_work.reach hreach)).settled
          have hsame := (PeriodicWork.step_cases h).outside_other hsettled hu
          exact (hs u v huv).imp_left hsame.trans
    | @distribute i observers distributing hpc h =>
        refine hs.enters hobservers h rfl fun v hv => ?_
        cases hv
        rw [inWork_of (u := .job .worker i) rfl]
        simp [PeriodicWork.State.outside, hpc, PeriodicWork.WorkerPc.outside]
    | observers hadmits h =>
        exact hs.enters hobservers h rfl fun v hv => s.admits_enters hadmits hv

end TickObservers
