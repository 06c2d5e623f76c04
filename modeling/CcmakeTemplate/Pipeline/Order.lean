import CcmakeTemplate.Pipeline.Flow

/-!
# Order with one worker of each kind

A callback worker that finds the callback cleared after its pop puts the product
back at the end of `queue_output`, behind everything finished since. So products
may reach the callback out of order even with one worker of each kind. They do
not while a product is put back only into an empty `queue_output`.
-/

namespace Pipeline

open Concurrency

variable {I O F : Type}

/-- At most one worker of each kind ever, `getProduct` is never called, and the
object is not destroyed. -/
def OneEach (s : State I O F) (a : Action I F) : Prop :=
  (s.hired .process ≤ 1 ∧ s.hired .callback ≤ 1) ∧
    a.starts ≠ .getProduct ∧ a.starts ≠ .destructor

instance (s : State I O F) (a : Action I F) : Decidable (OneEach s a) :=
  inferInstanceAs (Decidable (_ ∧ _))

/-- The action puts a product back into `queue_output`. -/
def putsBack (s : State I O F) : Action I F → Bool
  | .callback i _ => match s.callbackPc i with | .requeue _ => true | _ => false
  | _ => false

def OrderlyStep (s : State I O F) (a : Action I F) : Prop :=
  OneEach s a ∧ (putsBack s a = true → s.queue_output.isEmpty = true)

instance (s : State I O F) (a : Action I F) : Decidable (OrderlyStep s a) :=
  inferInstanceAs (Decidable (_ ∧ _))

theorem starts_orderlyStep :
    Starts (fun k => k ≠ .getProduct ∧ k ≠ .destructor)
      (OrderlyStep (I := I) (O := O) (F := F)) :=
  ⟨by decide, by decide, fun _ _ h => h.1.2⟩

theorem CallsWithin.mono {A B : CallKind → Prop} (hAB : ∀ k, A k → B k) {s : State I O F}
    (h : CallsWithin A s) : CallsWithin B s :=
  ⟨fun c => hAB _ (h.client c), fun i f product call hpc => hAB _ (h.nested i f product call hpc)⟩

theorem refines_orderly (process : I → O) (workerCnt : ℕ) :
    (machine process workerCnt : Machine (State I O F) _).Refines OrderlyStep
      (Belt.machine process) Belt.Orderly (belt process) where
  init := by
    rintro s rfl
    rfl
  step := by
    intro s a t hs hG hst
    have hcalls := CallsWithin.of_reach starts_orderlyStep hs
    have hdestroy : CallsWithin (· ≠ .destructor) s := hcalls.mono fun _ h => h.2
    have hfetches : CallsWithin (· ≠ .getProduct) s := hcalls.mono fun _ h => h.1
    rcases (step_cases hst).refines hdestroy with heq | ⟨m, hm, hfetch, hback⟩
    · exact .inl heq
    · refine .inr ⟨m, ⟨hG.1.1.1, hG.1.1.2, fun hf => hfetch hf hfetches, ?_⟩, hm⟩
      intro j hj
      obtain ⟨i, wake, product, rfl, hpc⟩ := hback j hj
      have hputs : putsBack s (.callback i wake) = true := by simp [putsBack, hpc]
      exact List.isEmpty_iff.mp (hG.2 hputs)

/-- With one worker of each kind, and products put back only into an empty queue,
callbacks see the products in the order in which the jobs were added. -/
theorem invoked_in_order {process : I → O} {workerCnt : ℕ} {s : State I O F}
    (h : (machine process workerCnt).ReachBy OrderlyStep s) :
    s.invoked.map Prod.snd <+: s.added.map process :=
  Belt.invoked_prefix ((refines_orderly process workerCnt).reach h)

/-- A product is popped, put back into the empty queue when the callback is
cleared, and handed to the callback installed after that. -/
theorem invoked_in_order_put_back :
    ∃ s : State ℕ ℕ Unit, s.invoked = [((), 2)] ∧
      s.invoked.map Prod.snd <+: s.added.map (· + 1) := by
  obtain ⟨s, hs, hread⟩ := Machine.ReachBy.of_exec (M := machine (· + 1) 1)
    (G := OrderlyStep) (State.initial 1)
    (runConstructor ++ runCall (.addJob 1) 4 ++ runProcess 13 ++
      runCall (.setCallback (some ())) 3 ++ runCallback 10 ++ runCall (.setCallback none) 3 ++
      runCallback 6 ++ runCall (.setCallback (some ())) 3 ++ runCallback 11)
    (fun s : State ℕ ℕ Unit => s.invoked = [((), 2)]) rfl (by decide)
  exact ⟨s, hread, invoked_in_order hs⟩

/-- Two products are finished, the first is popped and put back behind the second,
and the callback sees the second first. -/
theorem invoked_out_of_order :
    ¬ ∀ s : State ℕ ℕ Unit, (machine (· + 1) 1).ReachBy OneEach s →
      s.invoked.map Prod.snd <+: s.added.map (· + 1) := by
  intro hall
  obtain ⟨s, hs, hinv, hadd⟩ := Machine.ReachBy.of_exec (M := machine (· + 1) 1)
    (G := OneEach) (State.initial 1)
    (runConstructor ++ runCall (.addJob 1) 4 ++ runCall (.addJob 2) 4 ++
      runProcess 13 ++ runProcess 12 ++ runCall (.setCallback (some ())) 3 ++
      runCallback 10 ++ runCall (.setCallback none) 3 ++ runCallback 6 ++
      runCall (.setCallback (some ())) 3 ++ runCallback 11)
    (fun s : State ℕ ℕ Unit => s.invoked = [((), 3)] ∧ s.added = [1, 2])
    rfl (by decide)
  have h := hall s hs
  rw [hinv, hadd] at h
  exact absurd h (by decide)

end Pipeline
