import CcmakeTemplate.Pipeline.Sharing

/-!
# `setCallback` as a barrier

A callback worker tests and runs the callback while it shares `mutex_outputCallback`,
and `setCallback` assigns while it owns it exclusively. So no callback is in progress
at the assignment, and a product that was popped before is offered, when its turn
comes, to the callback that is installed then.
-/

namespace Pipeline

open Concurrency

variable {I O F : Type}

/-! ## What one step does to the callback -/

def CallPc.assigned : CallPc I F → Option (Option F)
  | .setCallbackAssign method => some method
  | _ => none

/-- The method that the action assigns to `outputCallback`. -/
def State.assigns (s : State I O F) (a : Action I F) : Option (Option F) :=
  (s.call a).bind CallPc.assigned

/-- No other `setCallback` takes effect. -/
def NoSwap (s : State I O F) (a : Action I F) : Prop := (s.assigns a).isNone = true

instance (s : State I O F) (a : Action I F) : Decidable (NoSwap s a) :=
  inferInstanceAs (Decidable (_ = true))

/-- A callback worker that has popped a product and not started its delivery. -/
def CallbackPc.undelivered : CallbackPc I O F → Option O
  | .leaveTake product | .lockShared product | .test product => some product
  | _ => none

/-- A callback worker that found no callback and is to put its product back. -/
def CallbackPc.returning : CallbackPc I O F → Option O
  | .unlockShared (some product) | .lockRequeue product | .requeue product => some product
  | _ => none

theorem CallStep.outputCallback {u : Thread} {s t : State I O F} {pc pc' : CallPc I F}
    (h : CallStep u s pc t pc') :
    t.outputCallback = pc.assigned.getD s.outputCallback := by
  cases h with
  | go h | lockProcess h | unlockProcess h | lockOutput h | unlockOutput h => cases h <;> rfl
  | @create crew => cases crew <;> rfl
  | @notifyAll crew => cases crew <;> rfl
  | @returns _ _ ret h => cases ret <;> cases h <;> rfl
  | _ => rfl

theorem CallStep.invoked {u : Thread} {s t : State I O F} {pc pc' : CallPc I F}
    (h : CallStep u s pc t pc') : t.invoked = s.invoked := by
  cases h with
  | @create crew => cases crew <;> rfl
  | @notifyAll crew => cases crew <;> rfl
  | @returns _ _ ret => cases ret <;> rfl
  | _ => rfl

theorem Step.outputCallback {process : I → O} {s t : State I O F} {a : Action I F}
    (h : Step process s a t) : t.outputCallback = (s.assigns a).getD s.outputCallback := by
  cases h with
  | process hi h => exact h.frame.outputCallback
  | @callback i wake _ hi h =>
      cases h with
      | @nested f product call call' s' hpc h =>
          rw [show State.assigns s (.callback i wake) = call.assigned by
            simp [State.assigns, State.call, hpc]]
          exact h.outputCallback
      | go h | sets h | lock h | leave h | lockShared h | unlockShared h =>
          simp only [State.assigns, State.call]
          generalize s.callbackPc i = pc at h
          cases h <;> rfl
      | block hpc | pick hpc | invoke hpc | requeue hpc =>
          simp only [State.assigns, State.call, hpc]
          rfl
  | client h => exact h.outputCallback
  | call | destroy | nest | spurious => rfl

/-- An invocation is of the callback that is installed when it starts. -/
theorem Step.invoked {process : I → O} {s t : State I O F} {a : Action I F}
    (h : Step process s a t) : t.invoked = s.invoked ∨
      ∃ f product, s.outputCallback = some f ∧ t.invoked = s.invoked ++ [(f, product)] := by
  cases h with
  | process hi h => cases h <;> exact .inl rfl
  | callback hi h =>
      cases h with
      | @invoke product f hpc hcb => exact .inr ⟨f, product, hcb, rfl⟩
      | nested hpc h => exact .inl h.invoked
      | _ => exact .inl rfl
  | client h => exact .inl h.invoked
  | call | destroy | nest | spurious => exact .inl rfl

/-- A callback worker moves by its own steps, and by the calls that its callback starts. -/
theorem Step.callbackPc_cases {process : I → O} {s t : State I O F} {a : Action I F}
    (h : Step process s a t) (hborn : Unborn s) (i : ℕ) :
    t.callbackPc i = s.callbackPc i ∨ CallbackStep i s t ∨
      ∃ f product call call', s.callbackPc i = .inCallback f product call ∧
        t.callbackPc i = .inCallback f product call' := by
  cases h with
  | process hi h => exact .inl (by rw [h.frame.callbackPc])
  | @callback j wake _ hj h =>
      by_cases hij : i = j
      · subst hij
        exact .inr (.inl h)
      · refine .inl ?_
        cases h with
        | nested hpc h => simp [hij, (h.workers hborn).2]
        | _ => simp [hij]
  | client h => exact .inl (by rw [(h.workers hborn).2])
  | @nest j op f product hpc =>
      by_cases hij : i = j
      · subst hij
        exact .inr (.inr ⟨f, product, .out, op.entry, hpc, Function.update_self _ _ _⟩)
      · exact .inl (Function.update_of_ne hij _ _)
  | call | destroy | spurious => exact .inl rfl

/-! ## The callback in progress -/

/-- Every callback in progress is the installed one. -/
def RunsInstalled (s : State I O F) : Prop :=
  ∀ i f product call, s.callbackPc i = .inCallback f product call → s.outputCallback = some f

/-- While a client owns `mutex_outputCallback` no callback worker tests or runs the
callback. -/
theorem Sharing.nobody_shares {s : State I O F} (hs : Sharing s) {u : Thread}
    (hu : s.excludes u = true) (i : ℕ) : (s.callbackPc i).shares = false := by
  have hwriter := (hs.writer u).mpr hu
  have hreaders : s.mutex_outputCallback.readers = [] := by
    refine hs.apart.resolve_left fun hnone => ?_
    cases hnone.symm.trans hwriter
  by_contra hshares
  have hmem := (hs.readers (.worker .callback i)).mpr (by simpa [State.shares] using hshares)
  simp [hreaders] at hmem

/-- A `setCallback` takes effect only while its client owns `mutex_outputCallback`. -/
theorem Sharing.no_assign {s : State I O F} (hs : Sharing s)
    (hnested : NestedWithin (· ≠ .setCallback) s.callbackPc) {i : ℕ}
    (hshares : (s.callbackPc i).shares = true) (a : Action I F) : s.assigns a = none := by
  cases a with
  | client c wake =>
      cases hcall : s.clientPc c with
      | setCallbackAssign method =>
          have hquiet := hs.nobody_shares (u := .client c)
            (by simp [State.excludes, hcall, CallPc.excludes]) i
          simp [hshares] at hquiet
      | _ => simp [State.assigns, State.call, hcall, CallPc.assigned]
  | callback j wake =>
      cases hj : s.callbackPc j with
      | inCallback f product call =>
          cases call with
          | setCallbackAssign method => exact absurd rfl (hnested j f product _ hj)
          | _ => simp [State.assigns, State.call, hj, CallPc.assigned]
      | _ => simp [State.assigns, State.call, hj]
  | _ => rfl

theorem RunsInstalled.step {process : I → O} {s t : State I O F} {a : Action I F}
    (h : Step process s a t) (hborn : Unborn s) (hsharing : Sharing s)
    (hnested : NestedWithin (· ≠ .setCallback) s.callbackPc) (hs : RunsInstalled s) :
    RunsInstalled t := by
  intro i f product call hpc
  have hkept : (s.callbackPc i).shares = true → t.outputCallback = s.outputCallback := by
    intro hshares
    rw [h.outputCallback, hsharing.no_assign hnested hshares]
    rfl
  rcases h.callbackPc_cases hborn i with hsame | hown | ⟨f', product', call', call'', hold, hnew⟩
  · rw [hsame] at hpc
    rw [hkept (by rw [hpc]; rfl)]
    exact hs i f product call hpc
  · cases hown with
    | @invoke product' f' hold hcb =>
        simp only [Function.update_self] at hpc
        cases hpc
        exact hcb
    | nested hold h' =>
        simp only [Function.update_self] at hpc
        cases hpc
        rw [hkept (by rw [hold]; rfl)]
        exact hs i f product _ hold
    | go h' | sets h' | lock h' | leave h' | lockShared h' | unlockShared h' =>
        simp only [Function.update_self] at hpc
        subst hpc
        generalize s.callbackPc i = old at h'
        cases h'
    | _ =>
        simp only [Function.update_self] at hpc
        cases hpc
  · rw [hnew] at hpc
    cases hpc
    rw [hkept (by rw [hold]; rfl)]
    exact hs i _ _ _ hold

theorem runsInstalled {G : State I O F → Action I F → Prop} {process : I → O} {workerCnt : ℕ}
    {s : State I O F} (h : (machine process workerCnt).ReachBy G s) : RunsInstalled s := by
  refine h.invariant (P := RunsInstalled) ?_ ?_
  · rintro s rfl i f product call hpc
    cases hpc
  · intro s a t hreach hs _ hst
    exact hs.step (step_cases hst) (unborn hreach) (sharing hreach) (nested_not_setCallback hreach)

/-! ## Products in the hands of a callback worker -/

/-- The delivery of a product starts: the callback that is installed now gets it, or
there is none and the product is to be put back. -/
def Offered (i : ℕ) (product : O) (s t : State I O F) : Prop :=
  s.callbackPc i = .test product ∧
    match s.outputCallback with
    | some f => t.callbackPc i = .inCallback f product .out ∧
        t.invoked = s.invoked ++ [(f, product)]
    | none => t.callbackPc i = .unlockShared (some product)

def PutBack (i : ℕ) (product : O) (s t : State I O F) : Prop :=
  s.callbackPc i = .requeue product ∧ t.queue_output = s.queue_output ++ [product]

theorem Step.undelivered {process : I → O} {s t : State I O F} {a : Action I F}
    (h : Step process s a t) (hborn : Unborn s) {i : ℕ} {product : O}
    (hs : (s.callbackPc i).undelivered = some product) :
    (t.callbackPc i).undelivered = some product ∨ Offered i product s t := by
  -- another thread's step, one of its own, or one of a call in its callback
  rcases h.callbackPc_cases hborn i with hsame | hown | ⟨f, product', call, call', hold, -⟩
  · rw [hsame]
    exact .inl hs
  · cases hown with
    | @invoke product' f hpc hcb =>
        rw [hpc] at hs
        cases hs
        refine .inr ⟨hpc, ?_⟩
        rw [hcb]
        exact ⟨Function.update_self _ _ _, rfl⟩
    | @go pc h' =>
        simp only [Function.update_self]
        generalize hold : s.callbackPc i = old at h' hs
        cases h' with
        | noCallback product' hcb =>
            cases hs
            refine .inr ⟨hold, ?_⟩
            rw [hcb]
            exact Function.update_self _ _ _
        | _ => cases hs
    | leave h' =>
        simp only [Function.update_self]
        generalize s.callbackPc i = old at h' hs
        cases h' with
        | take => exact .inl hs
        | _ => cases hs
    | lockShared h' =>
        simp only [Function.update_self]
        generalize s.callbackPc i = old at h' hs
        cases h' with
        | test => exact .inl hs
        | check => cases hs
    | sets h' | lock h' | unlockShared h' =>
        generalize s.callbackPc i = old at h' hs
        cases h' <;> cases hs
    | block hpc | pick hpc | nested hpc | requeue hpc =>
        rw [hpc] at hs
        cases hs
  · rw [hold] at hs
    cases hs

theorem Step.returning {process : I → O} {s t : State I O F} {a : Action I F}
    (h : Step process s a t) (hborn : Unborn s) {i : ℕ} {product : O}
    (hs : (s.callbackPc i).returning = some product) :
    (t.callbackPc i).returning = some product ∨ PutBack i product s t := by
  rcases h.callbackPc_cases hborn i with hsame | hown | ⟨f, product', call, call', hold, -⟩
  · rw [hsame]
    exact .inl hs
  · cases hown with
    | requeue hpc =>
        rw [hpc] at hs
        cases hs
        exact .inr ⟨hpc, rfl⟩
    | unlockShared h' =>
        simp only [Function.update_self]
        generalize s.callbackPc i = old at h' hs
        cases h' with
        | fail => exact .inl hs
        | _ => cases hs
    | lock h' =>
        simp only [Function.update_self]
        generalize s.callbackPc i = old at h' hs
        cases h' with
        | requeue => exact .inl hs
        | _ => cases hs
    | go h' | sets h' | leave h' | lockShared h' =>
        generalize s.callbackPc i = old at h' hs
        cases h' <;> cases hs
    | block hpc | pick hpc | invoke hpc | nested hpc =>
        rw [hpc] at hs
        cases hs
  · rw [hold] at hs
    cases hs

/-! ## The barrier -/

section

variable (process : I → O) (workerCnt : ℕ)

/-- `method` is what the `setCallback` before `t` installed, or a later one did. -/
def InstalledSince (g : Option F) (t u : State I O F) (method : Option F) : Prop :=
  method = g ∨ ∃ v a w, (machine process workerCnt).RunBy (fun _ _ => True) t v ∧
    v.assigns a = some method ∧ step process v a = some w ∧
    (machine process workerCnt).RunBy (fun _ _ => True) w u

/-- What a `setCallback(g)` promises from its assignment on, `t` being the state after it. -/
structure Barrier (g : Option F) (t : State I O F) : Prop where
  /-- No invocation is in progress, and no worker is deciding on one. -/
  quiet : ∀ i, (t.callbackPc i).shares = false
  /-- Until the next `setCallback` every invocation is of `g`. -/
  current : ∀ u, (machine process workerCnt).RunBy NoSwap t u →
    u.outputCallback = g ∧
      (∀ i f product call, u.callbackPc i = .inCallback f product call → g = some f) ∧
      ∃ later, u.invoked = t.invoked ++ later ∧ ∀ x ∈ later, g = some x.1
  /-- Nothing that was installed before is in progress or is started ever again. -/
  since : ∀ u, (machine process workerCnt).RunBy (fun _ _ => True) t u →
    (∀ i f product call, u.callbackPc i = .inCallback f product call →
      InstalledSince process workerCnt g t u (some f)) ∧
      ∃ later, u.invoked = t.invoked ++ later ∧
        ∀ x ∈ later, InstalledSince process workerCnt g t u (some x.1)
  /-- A product whose delivery has not started keeps waiting or is offered to the callback
  that is installed then. -/
  offered : ∀ u v i product, (machine process workerCnt).RunBy (fun _ _ => True) t u →
    (u.callbackPc i).undelivered = some product →
    (machine process workerCnt).RunBy (fun _ _ => True) u v →
    (v.callbackPc i).undelivered = some product ∨
      ∃ w w', (machine process workerCnt).RunBy (fun _ _ => True) u w ∧
        InstalledSince process workerCnt g t w w.outputCallback ∧ Offered i product w w' ∧
        (machine process workerCnt).RunBy (fun _ _ => True) w' v
  /-- A product that was offered while there was no callback is put back. -/
  returned : ∀ u v i product, (machine process workerCnt).RunBy (fun _ _ => True) t u →
    (u.callbackPc i).returning = some product →
    (machine process workerCnt).RunBy (fun _ _ => True) u v →
    (v.callbackPc i).returning = some product ∨
      ∃ w w', (machine process workerCnt).RunBy (fun _ _ => True) u w ∧
        PutBack i product w w' ∧ (machine process workerCnt).RunBy (fun _ _ => True) w' v

end

section

variable {process : I → O} {workerCnt : ℕ} {g : Option F} {t u v : State I O F}

theorem InstalledSince.next {method : Option F} {a : Action I F}
    (h : InstalledSince process workerCnt g t u method) (hst : step process u a = some v) :
    InstalledSince process workerCnt g t v method := by
  rcases h with rfl | ⟨w, b, w', hw, hassigns, hstep, hw'⟩
  · exact .inl rfl
  · exact .inr ⟨w, b, w', hw, hassigns, hstep, hw'.tail ⟨a, trivial, hst⟩⟩

/-- From the assignment on, the installed callback and all invocations are recent. -/
theorem installed_since (ht : t.outputCallback = g)
    (h : (machine process workerCnt).RunBy (fun _ _ => True) t u) :
    InstalledSince process workerCnt g t u u.outputCallback ∧
      ∃ later, u.invoked = t.invoked ++ later ∧
        ∀ x ∈ later, InstalledSince process workerCnt g t u (some x.1) := by
  induction h with
  | refl => exact ⟨.inl ht, [], by simp, by simp⟩
  | @tail u v hpre hlast ih =>
      obtain ⟨a, -, hst⟩ := hlast
      obtain ⟨hcurrent, later, hinvoked, hlater⟩ := ih
      have hnext : ∀ x ∈ later, InstalledSince process workerCnt g t v (some x.1) :=
        fun x hx => (hlater x hx).next hst
      constructor
      · rw [(step_cases hst).outputCallback]
        cases hassigns : u.assigns a with
        | none => exact hcurrent.next hst
        | some method => exact .inr ⟨u, a, v, hpre, hassigns, hst, .refl⟩
      · rcases (step_cases hst).invoked with hsame | ⟨f, product, hcb, hnew⟩
        · exact ⟨later, hsame.trans hinvoked, hnext⟩
        · refine ⟨later ++ [(f, product)], by rw [hnew, hinvoked, List.append_assoc], ?_⟩
          intro x hx
          rcases List.mem_append.mp hx with hold | hx
          · exact hnext x hold
          · obtain rfl := List.mem_singleton.mp hx
            rw [hcb] at hcurrent
            exact hcurrent.next hst

theorem current_until_next (ht : t.outputCallback = g)
    (h : (machine process workerCnt).RunBy NoSwap t u) :
    u.outputCallback = g ∧ ∃ later, u.invoked = t.invoked ++ later ∧ ∀ x ∈ later, g = some x.1 := by
  refine h.invariant (P := fun u => u.outputCallback = g ∧
    ∃ later, u.invoked = t.invoked ++ later ∧ ∀ x ∈ later, g = some x.1) ⟨ht, [], by simp⟩ ?_
  rintro u a v ⟨hcurrent, later, hinvoked, hlater⟩ hG hst
  constructor
  · rw [(step_cases hst).outputCallback, Option.isNone_iff_eq_none.mp hG]
    exact hcurrent
  · rcases (step_cases hst).invoked with hsame | ⟨f, product, hcb, hnew⟩
    · exact ⟨later, hsame.trans hinvoked, hlater⟩
    · refine ⟨later ++ [(f, product)], by rw [hnew, hinvoked, List.append_assoc], ?_⟩
      intro x hx
      rcases List.mem_append.mp hx with hold | hx
      · exact hlater x hold
      · obtain rfl := List.mem_singleton.mp hx
        exact hcurrent.symm.trans hcb

/-- Every `setCallback` by a client is a barrier. -/
theorem setCallback_barrier {s : State I O F} {c : ℕ} {wake : Option Thread}
    (h : (machine process workerCnt).Reach s) (hpc : s.clientPc c = .setCallbackAssign g)
    (hst : step process s (.client c wake) = some t) : Barrier process workerCnt g t := by
  have ht : (machine process workerCnt).Reach t :=
    h.next (M := machine process workerCnt) (a := .client c wake) trivial hst
  have hreach : ∀ {u}, (machine process workerCnt).RunBy (fun _ _ => True) t u →
      (machine process workerCnt).Reach u := fun hrun => ht.run hrun
  have hexcludes : s.excludes (.client c) = true := by simp [State.excludes, hpc, CallPc.excludes]
  have hassigned : t.outputCallback = g := by
    rw [(step_cases hst).outputCallback]
    simp [State.assigns, State.call, hpc, CallPc.assigned]
  refine ⟨fun i => ?_, fun u hrun => ?_, fun u hrun => ?_, ?_, ?_⟩
  · have hsame : t.callbackPc = s.callbackPc := by
      cases step_cases hst with
      | client h' => exact (h'.workers (unborn h)).2
    rw [hsame]
    exact (sharing h).nobody_shares hexcludes i
  · obtain ⟨hcurrent, hlater⟩ := current_until_next hassigned hrun
    refine ⟨hcurrent, fun i f product call hin => ?_, hlater⟩
    rw [← hcurrent]
    exact runsInstalled (hreach (hrun.mono fun _ _ _ => trivial)) i f product call hin
  · obtain ⟨hcurrent, hlater⟩ := installed_since hassigned hrun
    refine ⟨fun i f product call hin => ?_, hlater⟩
    rw [← runsInstalled (hreach hrun) i f product call hin]
    exact hcurrent
  · intro u v i product hu hheld hrun
    rcases hrun.until (Q := Offered i product) (hreach hu) hheld
      (fun s a t hs hP _ hst => (step_cases hst).undelivered (unborn hs) hP) with
      hkept | ⟨w, w', hw, -, -, hoffer, hw'⟩
    · exact .inl hkept
    · exact .inr ⟨w, w', hw, (installed_since hassigned (hu.trans hw)).1, hoffer, hw'⟩
  · intro u v i product hu hheld hrun
    rcases hrun.until (Q := PutBack i product) (hreach hu) hheld
      (fun s a t hs hP _ hst => (step_cases hst).returning (unborn hs) hP) with
      hkept | ⟨w, w', hw, -, -, hback, hw'⟩
    · exact .inl hkept
    · exact .inr ⟨w, w', hw, hback, hw'⟩

/-- A product is popped while `true` is installed, and `false` is installed before its
delivery starts. -/
theorem setCallback_barrier_swap :
    ∃ s t : State ℕ ℕ Bool, (s.outputCallback = some true ∧ s.callbackPc 0 = .lockShared 2) ∧
      step (· + 1) s (.client 0 none) = some t ∧ Barrier (· + 1) 1 (some false) t := by
  obtain ⟨s, hs, hcb, hpopped, hpc, hsome⟩ := Machine.ReachBy.of_exec (M := machine (· + 1) 1)
    (G := fun _ _ => True) (State.initial 1)
    (runConstructor ++ runCall (.setCallback (some true)) 3 ++ runCall (.addJob 1) 4 ++
      runProcess 14 ++ runCallback 10 ++ runCall (.setCallback (some false)) 1)
    (fun s : State ℕ ℕ Bool => s.outputCallback = some true ∧ s.callbackPc 0 = .lockShared 2 ∧
      s.clientPc 0 = .setCallbackAssign (some false) ∧
      (step (· + 1) s (.client 0 none)).isSome = true)
    rfl (by decide)
  obtain ⟨t, ht⟩ := Option.isSome_iff_exists.mp hsome
  exact ⟨s, t, ⟨hcb, hpopped⟩, ht, setCallback_barrier hs hpc ht⟩

end

end Pipeline
