import CcmakeTemplate.Pipeline.Frames

/-!
# Which calls are in progress

A thread inside a public method stays inside that method until it returns. So a
client that never makes some call is never found inside it: `CallsWithin` turns
a promise about the calls that are started into a fact about every state.
-/

namespace Pipeline

open Concurrency

variable {I O F : Type}

inductive CallKind where
  | outside | addJob | getProduct | getQueueCount | setCallback | workerCount
  | constructor | destructor
deriving DecidableEq

def Return.kind : Return → CallKind
  | .caller => .workerCount
  | .constructorProcess _ | .constructorEnd => .constructor
  | .destructorOutput | .destructorEnd => .destructor

def CallPc.kind : CallPc I F → CallKind
  | .out => .outside
  | .addJobLock _ | .addJobPush _ | .addJobNotify | .addJobUnlock => .addJob
  | .getProductLock | .getProductTake | .getProductUnlock => .getProduct
  | .countLock | .countSizes | .countScan .. | .countUnlock .. => .getQueueCount
  | .setCallbackLock _ | .setCallbackAssign _ | .setCallbackUnlock => .setCallback
  | .hireFire _ _ _ ret => ret.kind
  | .clearProcessLock | .clearProcessSwap | .clearProcessUnlock | .clearOutputLock
  | .clearOutputSwap | .clearOutputUnlock => .destructor

theorem resume_kind (s : State I O F) (ret : Return) :
    (resume s ret).2.kind = ret.kind ∨ (resume s ret).2.kind = .outside := by
  cases ret <;> simp [resume, CallPc.kind, Return.kind]

theorem CallStep.kind {t : Thread} {s s' : State I O F} {pc pc' : CallPc I F}
    (h : CallStep t s pc s' pc') : pc'.kind = pc.kind ∨ pc'.kind = .outside := by
  cases h with
  | go h => cases h <;> exact .inl rfl
  | lockProcess h => cases h <;> exact .inl rfl
  | lockOutput h => cases h <;> exact .inl rfl
  | unlockProcess h =>
      cases h with
      | addJob => exact .inr rfl
      | clear => exact .inl rfl
  | unlockOutput h =>
      cases h with
      | getProduct => exact .inr rfl
      | clear => exact .inl rfl
  | unlockBoth => exact .inr rfl
  | unlockCallback => exact .inr rfl
  | returns => exact resume_kind s _
  | _ => exact .inl rfl

/-- The calls that callbacks are inside are of a kind in `A`. -/
def NestedWithin (A : CallKind → Prop) (table : ℕ → CallbackPc I O F) : Prop :=
  ∀ i, ∀ f product call, table i = .inCallback f product call → A call.kind

theorem NestedWithin.update {A : CallKind → Prop} {table : ℕ → CallbackPc I O F} {i : ℕ}
    {pc : CallbackPc I O F} (h : NestedWithin A table)
    (hpc : ∀ f product call, pc = .inCallback f product call → A call.kind) :
    NestedWithin A (Function.update table i pc) :=
  forall_update (P := fun _ (pc : CallbackPc I O F) =>
    ∀ f product call, pc = .inCallback f product call → A call.kind) h hpc

/-- Every call in progress, made by a client or by a callback, is of a kind in
`A`. -/
structure CallsWithin (A : CallKind → Prop) (s : State I O F) : Prop where
  client : ∀ c, A (s.clientPc c).kind
  nested : NestedWithin A s.callbackPc

/-- The call that an action starts. -/
def Action.starts : Action I F → CallKind
  | .call _ op | .nest _ op => op.entry.kind
  | .destroy _ => .destructor
  | _ => .outside

/-- The call whose next statement the action runs. -/
def State.call (s : State I O F) : Action I F → Option (CallPc I F)
  | .client c _ => some (s.clientPc c)
  | .callback i _ => match s.callbackPc i with | .inCallback _ _ call => some call | _ => none
  | _ => none

/-- A guard that starts no call outside `A`. -/
structure Starts (A : CallKind → Prop) (G : State I O F → Action I F → Prop) : Prop where
  outside : A .outside
  constructor : A .constructor
  action : ∀ s a, G s a → A a.starts

theorem CallStep.nested {A : CallKind → Prop} {t : Thread} {s s' : State I O F}
    {pc pc' : CallPc I F} (h : CallStep t s pc s' pc')
    (hs : NestedWithin A s.callbackPc) : NestedWithin A s'.callbackPc := by
  rcases h.frame.2 with heq | heq
  · rw [heq]
    exact hs
  · rw [heq]
    exact hs.update (by simp)

theorem CallStep.within {A : CallKind → Prop} {t : Thread} {s s' : State I O F}
    {pc pc' : CallPc I F} (h : CallStep t s pc s' pc') (hout : A .outside)
    (hpc : A pc.kind) : A pc'.kind := by
  rcases h.kind with heq | heq
  · rw [heq]
    exact hpc
  · rw [heq]
    exact hout

theorem CallbackStep.within {A : CallKind → Prop} {i : ℕ} {s t : State I O F}
    (h : CallbackStep i s t) (hout : A .outside)
    (hs : NestedWithin A s.callbackPc) : NestedWithin A t.callbackPc := by
  cases h with
  | go h =>
      refine hs.update ?_
      generalize s.callbackPc i = old at h
      cases h <;> simp
  | sets h =>
      refine hs.update ?_
      generalize s.callbackPc i = old at h
      cases h <;> simp
  | lock h =>
      refine hs.update ?_
      generalize s.callbackPc i = old at h
      cases h <;> simp
  | leave h =>
      refine hs.update ?_
      generalize s.callbackPc i = old at h
      cases h <;> simp
  | lockShared h =>
      refine hs.update ?_
      generalize s.callbackPc i = old at h
      cases h <;> simp
  | unlockShared h =>
      refine hs.update ?_
      generalize s.callbackPc i = old at h
      cases h <;> simp
  | invoke =>
      refine hs.update ?_
      rintro _ _ call ⟨⟩
      exact hout
  | nested hpc h =>
      refine (h.nested hs).update ?_
      rintro _ _ call ⟨⟩
      exact h.within hout (hs i _ _ _ hpc)
  | _ => exact hs.update (by simp)

theorem CallsWithin.of_reach {A : CallKind → Prop} {G : State I O F → Action I F → Prop}
    (hG : Starts A G) {process : I → O} {workerCnt : ℕ} {s : State I O F}
    (h : (machine process workerCnt).ReachBy G s) : CallsWithin A s := by
  refine h.invariant (P := CallsWithin A) ?_ ?_
  · rintro s rfl
    refine ⟨forall_update (P := fun _ (pc : CallPc I F) => A pc.kind) (fun _ => hG.outside)
      hG.constructor, ?_⟩
    intro i f product call h
    cases h
  · intro s a t _ hs hGs hst
    cases step_cases hst with
    | process hi h => cases h <;> exact ⟨hs.client, hs.nested⟩
    | callback hi h =>
        refine ⟨?_, h.within hG.outside hs.nested⟩
        cases h with
        | nested _ h =>
            intro c
            simpa [h.frame.1] using hs.client c
        | _ => exact hs.client
    | @client c _ u pc h =>
        refine ⟨forall_update (P := fun _ (pc : CallPc I F) => A pc.kind) ?_
          (h.within hG.outside (hs.client c)), h.nested hs.nested⟩
        rw [h.frame.1]
        exact hs.client
    | @call c op halive hpc =>
        exact ⟨forall_update (P := fun _ (pc : CallPc I F) => A pc.kind) hs.client
            (hG.action s (.call c op) hGs),
          hs.nested⟩
    | @nest i op f product hpc hi hop =>
        refine ⟨hs.client, hs.nested.update ?_⟩
        rintro _ _ call ⟨⟩
        exact hG.action s (.nest i op) hGs
    | @destroy c halive hpc =>
        exact ⟨forall_update (P := fun _ (pc : CallPc I F) => A pc.kind) hs.client
            (hG.action s (.destroy c) hGs),
          hs.nested⟩
    | spurious => exact ⟨hs.client, hs.nested⟩

/-! ## The life of the object -/

theorem CallStep.not_out {u : Thread} {s t : State I O F} {pc : CallPc I F} :
    ¬ CallStep u s .out t pc := by
  intro h
  cases h with
  | go h | lockProcess h | unlockProcess h | lockOutput h | unlockOutput h => cases h

/-- What a method step does to the phase: the constructor and the destructor change
it when they return, and no other call does. -/
inductive PhaseStep : Phase → CallKind → Phase → CallKind → Prop
  | stay (phase : Phase) (kind : CallKind) : PhaseStep phase kind phase kind
  | returned (phase : Phase) {kind : CallKind} (hc : kind ≠ .constructor)
      (hd : kind ≠ .destructor) : PhaseStep phase kind phase .outside
  | constructed (phase : Phase) : PhaseStep phase .constructor .alive .outside
  | destroyed (phase : Phase) : PhaseStep phase .destructor .destroyed .outside

theorem CallStep.phaseStep {u : Thread} {s t : State I O F} {pc pc' : CallPc I F}
    (h : CallStep u s pc t pc') : PhaseStep s.phase pc.kind t.phase pc'.kind := by
  cases h with
  | go h => cases h <;> exact .stay _ _
  | lockProcess h => cases h <;> exact .stay _ _
  | lockOutput h => cases h <;> exact .stay _ _
  | unlockProcess h =>
      cases h with
      | addJob => exact .returned _ (by simp [CallPc.kind]) (by simp [CallPc.kind])
      | clear => exact .stay _ _
  | unlockOutput h =>
      cases h with
      | getProduct => exact .returned _ (by simp [CallPc.kind]) (by simp [CallPc.kind])
      | clear => exact .stay _ _
  | unlockBoth | unlockCallback =>
      exact .returned _ (by simp [CallPc.kind]) (by simp [CallPc.kind])
  | @create crew => cases crew <;> exact .stay _ _
  | @notifyAll crew => cases crew <;> exact .stay _ _
  | @returns _ _ ret =>
      cases ret with
      | caller =>
          exact .returned _ (by simp [CallPc.kind, Return.kind])
            (by simp [CallPc.kind, Return.kind])
      | constructorProcess => exact .stay _ _
      | constructorEnd => exact .constructed _
      | destructorOutput => exact .stay _ _
      | destructorEnd => exact .destroyed _
  | _ => exact .stay _ _

/-- The calls that client `c` may be inside in a phase: only client 0 constructs, and
nobody else is inside the object meanwhile. -/
def Phase.Admits (phase : Phase) (c : ℕ) (kind : CallKind) : Prop :=
  match phase with
  | .constructing => kind = if c = 0 then .constructor else .outside
  | .alive => kind ≠ .constructor ∧ kind ≠ .destructor
  | .destroying | .destroyed => kind ≠ .constructor

structure LifeCycle (s : State I O F) : Prop where
  client : ∀ c, s.phase.Admits c (s.clientPc c).kind
  nested : NestedWithin (fun kind => kind ≠ .constructor ∧ kind ≠ .destructor) s.callbackPc

theorem PhaseStep.admits {phase phase' : Phase} {kind kind' : CallKind} {c : ℕ}
    (h : PhaseStep phase kind phase' kind') (hs : phase.Admits c kind) :
    phase'.Admits c kind' := by
  cases h with
  | stay => exact hs
  | returned hc hd =>
      cases phase with
      | constructing =>
          by_cases h0 : c = 0
          · simp only [Phase.Admits, if_pos h0] at hs
            exact absurd hs hc
          · simp only [Phase.Admits, if_neg h0]
      | alive => exact ⟨by decide, by decide⟩
      | destroying | destroyed => exact CallKind.noConfusion
  | constructed => exact ⟨by decide, by decide⟩
  | destroyed => exact CallKind.noConfusion

theorem PhaseStep.admits_other {phase phase' : Phase} {kind kind' other : CallKind} {c c' : ℕ}
    (h : PhaseStep phase kind phase' kind') (hs : phase.Admits c kind) (hcc : c' ≠ c)
    (hother : phase.Admits c' other) : phase'.Admits c' other := by
  cases h with
  | stay | returned => exact hother
  | constructed =>
      cases phase with
      | constructing =>
          have hc : c = 0 := by
            by_contra h0
            simp [Phase.Admits, h0] at hs
          have hout : other = .outside := by
            simpa [Phase.Admits, show c' ≠ 0 by omega] using hother
          subst hout
          exact ⟨by decide, by decide⟩
      | alive => exact absurd rfl hs.1
      | destroying | destroyed => exact absurd rfl hs
  | destroyed =>
      cases phase with
      | constructing => by_cases h0 : c = 0 <;> simp [Phase.Admits, h0] at hs
      | alive => exact hother.1
      | destroying | destroyed => exact hother

/-- A callback worker's step leaves the phase alone. -/
theorem CallbackStep.phase {i : ℕ} {s t : State I O F} (h : CallbackStep i s t)
    (hs : LifeCycle s) : t.phase = s.phase := by
  cases h with
  | @nested f product call call' s' hpc h =>
      obtain ⟨hc, hd⟩ := hs.nested i f product call hpc
      have hphase := h.phaseStep
      generalize call.kind = kind at hphase hc hd
      generalize hkind : call'.kind = kind' at hphase
      change s'.phase = s.phase
      generalize s'.phase = phase' at hphase ⊢
      cases hphase with
      | stay | returned => rfl
      | constructed => exact absurd rfl hc
      | destroyed => exact absurd rfl hd
  | _ => rfl

theorem LifeCycle.of_client {s t : State I O F} (hs : LifeCycle s) {c : ℕ} {pc : CallPc I F}
    (h : CallStep (.client c) s (s.clientPc c) t pc) : LifeCycle (t.goClient c pc) := by
  refine ⟨?_, h.nested hs.nested⟩
  intro c'
  by_cases hcc : c' = c
  · subst hcc
    simp only [Function.update_self]
    exact h.phaseStep.admits (hs.client c')
  · simp only [Function.update_of_ne hcc, h.frame.1]
    exact h.phaseStep.admits_other (hs.client c) hcc (hs.client c')

theorem Op.entry_kind (op : Op I F) :
    op.entry.kind ≠ .constructor ∧ op.entry.kind ≠ .destructor := by
  cases op <;> simp [Op.entry, CallPc.kind, Return.kind]

theorem lifeCycle {G : State I O F → Action I F → Prop} {process : I → O} {workerCnt : ℕ}
    {s : State I O F} (h : (machine process workerCnt).ReachBy G s) : LifeCycle s := by
  refine h.invariant (P := LifeCycle) ?_ ?_
  · rintro s rfl
    refine ⟨fun c => ?_, fun i f product call hpc => by cases hpc⟩
    by_cases hc : c = 0
    · subst hc
      simp [State.initial, Phase.Admits, CallPc.kind, Return.kind]
    · simp [State.initial, Phase.Admits, CallPc.kind, hc]
  · intro s a t _ hs _ hst
    cases step_cases hst with
    | process hi h =>
        have hframe := h.frame
        exact ⟨by rw [hframe.phase, hframe.clientPc]; exact hs.client,
          by rw [hframe.callbackPc]; exact hs.nested⟩
    | callback hi h =>
        refine ⟨?_, h.within (by decide) hs.nested⟩
        rw [h.phase hs]
        cases h with
        | nested hpc h =>
            intro c
            simpa [h.frame.1] using hs.client c
        | _ => exact hs.client
    | client h => exact hs.of_client h
    | @call c op halive =>
        refine ⟨?_, hs.nested⟩
        have hclient := hs.client
        simp only [halive] at hclient ⊢
        exact forall_update (P := fun c (pc : CallPc I F) => Phase.alive.Admits c pc.kind) hclient
          op.entry_kind
    | @nest i op f product =>
        refine ⟨hs.client, hs.nested.update ?_⟩
        rintro _ _ call ⟨⟩
        exact op.entry_kind
    | @destroy c halive =>
        refine ⟨?_, hs.nested⟩
        have hclient : ∀ c, Phase.destroying.Admits c (s.clientPc c).kind := by
          intro c
          have h := hs.client c
          rw [halive] at h
          exact h.1
        exact forall_update (P := fun c (pc : CallPc I F) => Phase.destroying.Admits c pc.kind)
          hclient (by simp [Phase.Admits, CallPc.kind])
    | spurious => exact ⟨hs.client, hs.nested⟩

/-! ## A few clients -/

/-- Only the clients up to `n` make calls. -/
def FewClients (n : ℕ) (_ : State I O F) : Action I F → Prop
  | .call c _ | .destroy c => c ≤ n
  | _ => True

instance (n : ℕ) (s : State I O F) (a : Action I F) : Decidable (FewClients n s a) := by
  cases a <;> unfold FewClients <;> infer_instance

theorem fewClients_out {n : ℕ} {process : I → O} {workerCnt : ℕ} {s : State I O F}
    (h : (machine process workerCnt).ReachBy (FewClients n) s) :
    ∀ c, n < c → s.clientPc c = .out := by
  refine h.invariant (P := fun s => ∀ c, n < c → s.clientPc c = .out) ?_ ?_
  · rintro s rfl c hc
    simp [State.initial, (Nat.zero_le n).trans_lt hc |>.ne']
  · intro s a t _ hs hG hst c hc
    cases step_cases hst with
    | process _ h => rw [h.frame.clientPc, hs c hc]
    | callback _ h =>
        cases h with
        | nested _ h => simpa [h.frame.1] using hs c hc
        | _ => exact hs c hc
    | @client c' _ _ _ h =>
        by_cases hcc : c = c'
        · subst hcc
          rw [hs c hc] at h
          exact absurd h CallStep.not_out
        · simpa [hcc, h.frame.1] using hs c hc
    | call | destroy =>
        have hcc := (lt_of_le_of_lt (show _ ≤ n from hG) hc).ne'
        simpa [hcc] using hs c hc
    | nest | spurious => exact hs c hc

/-- Only client 0 makes calls. -/
def FirstClient (_ : State I O F) : Action I F → Prop
  | .call c _ | .destroy c => c = 0
  | _ => True

instance (s : State I O F) (a : Action I F) : Decidable (FirstClient s a) := by
  cases a <;> unfold FirstClient <;> infer_instance

theorem FirstClient.few {s : State I O F} {a : Action I F} (h : FirstClient s a) :
    FewClients 0 s a := by
  cases a with
  | call c op | destroy c => exact (show c = 0 from h).le
  | _ => trivial

theorem firstClient_out {process : I → O} {workerCnt : ℕ} {s : State I O F}
    (h : (machine process workerCnt).ReachBy FirstClient s) :
    ∀ c, c ≠ 0 → s.clientPc c = .out :=
  fun c hc => fewClients_out (h.mono fun _ _ hG => hG.few) c (Nat.pos_of_ne_zero hc)

end Pipeline
