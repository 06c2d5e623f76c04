import CcmakeTemplate.PeriodicWork.Callers

/-!
# `start` and `stop` from many threads

`start` and `stop` hold `workLock` for one assignment only. From the test of `sem_` on
they handle `timerThread_`, `workerThread_` and `sem_` without a lock, so two calls that
do it at once join, delete or overwrite what the other one uses. And a `start` clears
`threadQuit` whenever it gets there, so a `stop` that has set it may wait for threads that
nobody tells to end. As long as one call at a time handles the pointers, or all three are
null, and no `start` clears the flag under a `stop`, neither can happen.

Since a `stop` sets the flag before it looks at the pointers, the stages of a single
control thread are read up to this flag.
-/

namespace PeriodicWork

open Concurrency Semaphore

variable {F : Type}

/-! ## Who handles the pointers -/

/-- From the test of `sem_` to the last access to a pointer. -/
def CallPc.handles : CallPc F → Bool
  | .stop _ .lock | .stop _ .setQuit | .stop _ .unlock | .stop _ .notify | .stop _ .semTest
  | .stop _ (.deleteSem _) => false
  | .stop _ _ => true
  | .start .quit | .start .changed | .start .sem => false
  | .start _ => true
  | _ => false

/-- From the store of `threadQuit` in `stop` to the last join. -/
def CallPc.quits : CallPc F → Bool
  | .stop _ .lock | .stop _ .setQuit | .stop _ (.delete _) | .stop _ (.null _)
  | .stop _ .resetSem | .stop _ (.deleteSem _) => false
  | .stop _ _ => true
  | _ => false

namespace State

def Unowned (s : State F) : Prop := (∀ j, s.thread_ j = none) ∧ s.sem_ = none

/-- No other call handles the pointers. -/
def Alone (s : State F) (c : ℕ) : Prop := ∀ c', c' ≠ c → (s.clientPc c').handles = false

/-- What `start` and `stop` manage, except for the flag. -/
def pointers (s : State F) : Owned := ({ s with threadQuit := false } : State F).owned

/-- The stage that the program point `pc` stands for, up to the flag. -/
def Arranged (s : State F) (pc : CallPc F) (E : ℕ) (shape : Shape) : Prop :=
  ∃ b, Staged ({ s with threadQuit := b } : State F).owned pc E shape

end State

/-- A call begins to handle the pointers only while no other call does, or while all are
null; `start` assigns them only while no other call handles them and all are null; and it
clears `threadQuit` only while no other call is between setting it and its last join. -/
def HandledAlone (s : State F) : Action F → Prop
  | .client c _ _ =>
      match s.clientPc c with
      | .stop _ .semTest => s.Unowned ∨ s.Alone c
      | .start .quit => ∀ c', c' ≠ c → (s.clientPc c').quits = false
      | .start .sem => s.Unowned ∧ s.Alone c
      | _ => True
  | _ => True

/-! ## Stages up to the flag -/

section

variable {s t : State F} {pc pc' : CallPc F} {E : ℕ} {shape : Shape}

theorem State.Arranged.go (hs : s.Arranged pc E shape) (hstage : pc'.Stage shape)
    (hnames : pc'.Names E) : s.Arranged pc' E shape := by
  obtain ⟨b, hs⟩ := hs
  refine ⟨(pc'.quit shape).getD false, hstage, hnames, ?_, hs.slot, hs.old, hs.sem, hs.semCnt⟩
  intro b' hb'
  simp [State.owned, hb']

theorem State.Arranged.keep (hs : s.Arranged pc E shape) (h : t.pointers = s.pointers) :
    t.Arranged pc E shape := by
  obtain ⟨b, hs⟩ := hs
  have heq : ({ t with threadQuit := b } : State F).owned =
      ({ s with threadQuit := b } : State F).owned :=
    congrArg (fun o : Owned => { o with threadQuit := b }) h
  exact ⟨b, heq ▸ hs⟩

/-- With nothing to stop, the pointers are null. -/
theorem State.Arranged.unowned (hs : s.Arranged pc E .idle) : s.Unowned := by
  obtain ⟨b, hs⟩ := hs
  exact ⟨fun j => (hs.idle j).1, hs.sem⟩

theorem State.Arranged.sem_some (hs : s.Arranged pc E shape) (hsem : shape.sem = true) :
    s.sem_ = some E := by
  obtain ⟨b, hs⟩ := hs
  have h := hs.sem
  rw [hsem] at h
  exact h

end

/-- No step of `stop` but one writes the flag, and none reads it. -/
theorem StopFaults.ghost {s : State F} {pc : StopPc} (h : StopFaults s pc) (b : Bool) :
    StopFaults ({ s with threadQuit := b } : State F) pc := by
  cases h with
  | semDeref h => exact .semDeref h
  | joinableNull h => exact .joinableNull h
  | joinableDeleted h hobj => exact .joinableDeleted h hobj
  | joinNull h => exact .joinNull h
  | joinSpent h hobj => exact .joinSpent h hobj
  | deleteSpent h hobj => exact .deleteSpent h hobj

theorem StopStep.ghost {u : Thread} {s t : State F} {again : Bool} {pc : StopPc} {pc' : CallPc F}
    (h : StopStep u s again pc t pc') (hpc : pc ≠ .setQuit) (b : Bool) :
    StopStep u ({ s with threadQuit := b } : State F) again pc
      ({ t with threadQuit := b } : State F) pc' := by
  cases h with
  | go h => exact .go (by cases h <;> constructor <;> assumption)
  | fault h => exact .fault (h.ghost b)
  | lock hfree => exact .lock hfree
  | setQuit => exact absurd rfl hpc
  | unlock => exact .unlock
  | notify hcv => exact .notify hcv
  | sem h => exact .sem h
  | join h hobj hended => exact .join h hobj (by rename_i j i; cases j <;> exact hended)
  | delete h hobj => exact .delete h hobj
  | null j => exact .null j
  | resetNull h => exact .resetNull h
  | reset h => exact .reset h
  | deleteSem k => exact .deleteSem k

theorem StartStep.ghost {maxLag : ℕ} {s t : State F} {pc : StartPc} {pc' : CallPc F}
    (h : StartStep maxLag s pc t pc') (hpc : pc ≠ .quit) (b : Bool) :
    StartStep maxLag ({ s with threadQuit := b } : State F) pc
      ({ t with threadQuit := b } : State F) pc' := by
  cases h with
  | quit => exact absurd rfl hpc
  | changed => exact .changed
  | sem h => exact .sem h
  | deleteSem k => exact .deleteSem k
  | create j =>
      have hcreate : StartStep maxLag ({ s with threadQuit := b } : State F) (.create j) _ _ :=
        .create j
      cases j <;> exact hcreate
  | assign j i => exact .assign j i

theorem State.Arranged.stop {u : Thread} {s t : State F} {again : Bool} {pc : StopPc}
    {pc' : CallPc F} {E : ℕ} {shape : Shape} (hs : s.Arranged (.stop again pc) E shape)
    (h : StopStep u s again pc t pc') (hpc : pc ≠ .setQuit) :
    ∃ E' shape', t.Arranged pc' E' shape' := by
  obtain ⟨b, hs⟩ := hs
  obtain ⟨E', shape', ht⟩ := hs.stop (h.ghost hpc b)
  exact ⟨E', shape', b, ht⟩

theorem State.Arranged.start {maxLag : ℕ} {s t : State F} {pc : StartPc} {pc' : CallPc F} {E : ℕ}
    {shape : Shape} (hs : s.Arranged (.start pc) E shape) (h : StartStep maxLag s pc t pc')
    (hpc : pc ≠ .quit) : ∃ shape', t.Arranged pc' E shape' := by
  obtain ⟨b, hs⟩ := hs
  obtain ⟨shape', ht⟩ := hs.start (h.ghost hpc b)
  exact ⟨shape', b, ht⟩

/-- A call that handles the pointers has something behind them, or passes over nulls. -/
theorem CallPc.Stage.handles {pc : CallPc F} {shape : Shape} (h : pc.Stage shape)
    (hpc : pc.handles = true) :
    shape.sem = true ∨ shape = .idle ∧ ∃ again pc', pc = .stop again pc' ∧ pc'.skips = true := by
  cases pc with
  | out | set pc => cases hpc
  | stop again pc =>
      rcases h with rfl | ⟨hskips, rfl⟩
      · left
        cases pc with
        | joinTest j | joinable j | join j | delete j | null j => cases j <;> rfl
        | deleteSem k => cases hpc
        | _ => rfl
      · exact .inr ⟨rfl, again, pc, rfl, hskips⟩
  | start pc =>
      left
      obtain rfl : shape = pc.shape := h
      cases pc with
      | quit | changed | sem => cases hpc
      | create j | assign j i => cases j <;> rfl
      | deleteSem k => rfl
  | fault => exact absurd h id

/-- Outside of the handling there is all or nothing. -/
theorem CallPc.Stage.calm {pc : CallPc F} {shape : Shape} (h : pc.Stage shape)
    (hpc : pc.handles = false) : (CallPc.out : CallPc F).Stage shape := by
  cases pc with
  | out | set pc => exact h
  | stop again pc =>
      cases pc with
      | lock | setQuit | unlock | notify | semTest =>
          rcases h with hrunning | ⟨-, hidle⟩
          · exact .inr hrunning
          · exact .inl hidle
      | deleteSem k =>
          rcases h with hidle | ⟨hno, -⟩
          · exact .inl hidle
          · cases hno
      | _ => cases hpc
  | start pc =>
      cases pc with
      | quit | changed | sem => exact .inl h
      | _ => cases hpc
  | fault => exact absurd h id

/-! ## One handler at a time -/

/-- Nobody handles the pointers, unless in vain, or one call does and has something
behind them. -/
inductive Handled (s : State F) (E : ℕ) (shape : Shape) : Prop
  | nobody (h : s.Arranged .out E shape)
      (hvain : ∀ c, (s.clientPc c).handles = true →
        shape = .idle ∧ ∃ again pc, s.clientPc c = .stop again pc ∧ pc.skips = true)
  | one (c : ℕ) (hc : (s.clientPc c).handles = true) (h : s.Arranged (s.clientPc c) E shape)
      (hsem : shape.sem = true) (halone : s.Alone c)

section

variable {s t : State F} {E : ℕ} {shape : Shape}

theorem Handled.arranged (hs : Handled s E shape) : ∃ pc, s.Arranged pc E shape := by
  cases hs with
  | nobody h => exact ⟨_, h⟩
  | one c hc h => exact ⟨_, h⟩

/-- Steps of the object's own threads. -/
theorem Handled.keep (hs : Handled s E shape) (hpointers : t.pointers = s.pointers)
    (hclient : t.clientPc = s.clientPc) : Handled t E shape := by
  cases hs with
  | nobody h hvain => exact .nobody (h.keep hpointers) (by rw [hclient]; exact hvain)
  | one c hc h hsem halone =>
      refine .one c ?_ ?_ hsem ?_
      · rwa [hclient]
      · rw [hclient]
        exact h.keep hpointers
      · intro c' hc'
        rw [hclient]
        exact halone c' hc'

theorem State.Alone.eq {c d : ℕ} (h : s.Alone c) (hd : (s.clientPc d).handles = true) :
    d = c := by
  by_contra hne
  cases (h d hne).symm.trans hd

theorem alone_update {table : ℕ → CallPc F} {c c' : ℕ} {pc : CallPc F}
    (h : ∀ d, d ≠ c' → (table d).handles = false) (hpc : c ≠ c' → pc.handles = false) :
    ∀ d, d ≠ c' → (Function.update table c pc d).handles = false := by
  intro d hd
  by_cases hdc : d = c
  · subst hdc
    rw [Function.update_self]
    exact hpc hd
  · rw [Function.update_of_ne hdc]
    exact h d hd

/-- Steps of a call that does not handle the pointers. -/
theorem Handled.bystander (hs : Handled s E shape) {c : ℕ} {pc : CallPc F}
    (hold : (s.clientPc c).handles = false) (hnew : pc.handles = false)
    (hpointers : t.pointers = s.pointers)
    (hclient : t.clientPc = Function.update s.clientPc c pc) : Handled t E shape := by
  cases hs with
  | nobody h hvain =>
      refine .nobody (h.keep hpointers) ?_
      rw [hclient]
      refine forall_update (P := fun _ (pc : CallPc F) => pc.handles = true → shape = .idle ∧
        ∃ again pc', pc = .stop again pc' ∧ pc'.skips = true) hvain ?_
      intro hno
      cases hnew.symm.trans hno
  | one c' hc' h hsem halone =>
      have hne : c' ≠ c := by
        rintro rfl
        cases hold.symm.trans hc'
      have hkeep : t.clientPc c' = s.clientPc c' := by rw [hclient, Function.update_of_ne hne]
      refine .one c' (by rwa [hkeep]) ?_ hsem ?_
      · rw [hkeep]
        exact h.keep hpointers
      · rw [State.Alone, hclient]
        exact alone_update halone fun _ => hnew

/-- The handler moves on, and stops handling in the end. -/
theorem Handled.of_stage {c : ℕ} (halone : t.Alone c) (h : t.Arranged (t.clientPc c) E shape) :
    Handled t E shape := by
  have hstage : (t.clientPc c).Stage shape := by
    obtain ⟨b, h⟩ := h
    exact h.stage
  by_cases hc : (t.clientPc c).handles = true
  · rcases hstage.handles hc with hsem | ⟨hidle, again, pc, hpc, hskips⟩
    · exact .one c hc h hsem halone
    · refine .nobody (h.go (.inl hidle) trivial) ?_
      intro c' hc'
      obtain rfl : c' = c := halone.eq hc'
      exact ⟨hidle, again, pc, hpc, hskips⟩
  · rw [Bool.not_eq_true] at hc
    refine .nobody (h.go (hstage.calm hc) trivial) ?_
    intro c' hc'
    obtain rfl : c' = c := halone.eq hc'
    cases hc.symm.trans hc'

end

/-- A `stop` that has nothing behind the pointers leaves them null. -/
theorem StopStep.in_vain {u : Thread} {s t : State F} {again : Bool} {pc : StopPc}
    {pc' : CallPc F} (h : StopStep u s again pc t pc') (hs : s.Unowned) (hskips : pc.skips = true)
    (hpc : (CallPc.stop again pc : CallPc F).handles = true) :
    t.pointers = s.pointers ∧ (pc'.handles = true →
      ∃ pc'', pc' = .stop again pc'' ∧ pc''.skips = true) := by
  cases h with
  | go h =>
      refine ⟨rfl, fun _ => ⟨_, rfl, ?_⟩⟩
      cases h with
      | joinPresent j h => exact absurd (hs.1 j) h
      | joinAbsent j | deleteAbsent j => cases j <;> rfl
      | present | absent => cases hpc
      | deref | stopped | joinable | unjoinable => cases hskips
  | fault h =>
      cases h with
      | @deleteSpent j i h => cases h.symm.trans (hs.1 j)
      | _ => cases hskips
  | @delete j i h => cases h.symm.trans (hs.1 j)
  | null j =>
      refine ⟨?_, fun _ => ⟨_, rfl, by cases j <;> rfl⟩⟩
      have hkeep : Function.update s.thread_ j none = s.thread_ := by
        rw [show (none : Option ℕ) = s.thread_ j from (hs.1 j).symm, Function.update_eq_self]
      simp only [State.pointers, State.owned, hkeep]
  | resetNull h => exact ⟨rfl, fun hno => by cases again <;> cases hno⟩
  | reset h => cases h.symm.trans hs.2
  | sem | join => cases hskips
  | lock | setQuit | unlock | notify | deleteSem => cases hpc

/-- A step that neither handles nor begins to handle leaves the pointers alone. -/
theorem CallStep.calm {maxLag : ℕ} {u : Thread} {s t : State F} {pc pc' : CallPc F}
    (h : CallStep maxLag u s pc t pc') (hold : pc.handles = false) (hnew : pc'.handles = false) :
    t.pointers = s.pointers := by
  cases h with
  | set h | setReturns h => cases h <;> rfl
  | stop h =>
      cases h with
      | sem | join | delete | null | reset => cases hold
      | _ => rfl
  | start h =>
      cases h with
      | sem h => rcases h with ⟨-, rfl⟩ | ⟨k, -, rfl⟩ <;> cases hnew
      | create | assign => cases hold
      | _ => rfl

/-- The two points at which a call begins to handle the pointers. -/
theorem CallStep.begins {maxLag : ℕ} {u : Thread} {s t : State F} {pc pc' : CallPc F}
    (h : CallStep maxLag u s pc t pc') (hold : pc.handles = false) (hnew : pc'.handles = true) :
    (∃ again, pc = .stop again .semTest) ∨ pc = .start .sem := by
  cases h with
  | set | setReturns => cases hnew
  | stop h =>
      rename_i again _
      cases h with
      | go h =>
          cases h with
          | present | absent => exact .inl ⟨_, rfl⟩
          | _ => cases hold
      | resetNull | sem | join | delete | null => cases hold
      | deleteSem => cases again <;> cases hnew
      | fault => cases hnew
      | _ => cases hnew
  | start h =>
      cases h with
      | sem => exact .inr rfl
      | quit | changed => cases hnew
      | deleteSem | create | assign => cases hold

theorem State.Arranged.call {maxLag : ℕ} {u : Thread} {s t : State F} {pc pc' : CallPc F} {E : ℕ}
    {shape : Shape} (hs : s.Arranged pc E shape) (h : CallStep maxLag u s pc t pc')
    (hpc : pc.handles = true ∨ pc'.handles = true) : ∃ E' shape', t.Arranged pc' E' shape' := by
  cases h with
  | set | setReturns => rcases hpc with hno | hno <;> cases hno
  | stop h =>
      refine hs.stop h ?_
      rintro rfl
      cases h
      · rename_i h
        cases h
      · rename_i h
        cases h
      · rcases hpc with hno | hno <;> cases hno
  | start h =>
      obtain ⟨shape', ht⟩ := hs.start h (by
        rintro rfl
        cases h
        rcases hpc with hno | hno <;> cases hno)
      exact ⟨E, shape', ht⟩

/-- With null pointers there is nothing to stop. -/
theorem State.Arranged.idle {s : State F} {E : ℕ} {shape : Shape}
    (hs : s.Arranged (.out : CallPc F) E shape) (hnull : s.Unowned) : shape = .idle := by
  have hstage : (CallPc.out : CallPc F).Stage shape := by
    obtain ⟨b, hs⟩ := hs
    exact hs.stage
  rcases hstage with hidle | rfl
  · exact hidle
  · cases (hs.sem_some rfl).symm.trans hnull.2

theorem Handled.client {maxLag c : ℕ} {fails : Bool} {wake : Option Thread} {s u : State F}
    {pc : CallPc F} {E : ℕ} {shape : Shape} (hs : Handled s E shape)
    (hG : HandledAlone s (.client c fails wake))
    (h : CallStep maxLag (.client c) s (s.clientPc c) u pc) :
    ∃ E' shape', Handled (u.goClient c pc) E' shape' := by
  have hclient : (u.goClient c pc).clientPc = Function.update s.clientPc c pc := by
    rw [← h.clientPc]
  have hself : (u.goClient c pc).clientPc c = pc := Function.update_self ..
  have halone_next : s.Alone c → (u.goClient c pc).Alone c := by
    intro halone
    rw [State.Alone, hclient]
    exact alone_update halone fun hne => absurd rfl hne
  have hmoved : s.Alone c → ∀ {E' shape'}, u.Arranged pc E' shape' →
      ∃ E' shape', Handled (u.goClient c pc) E' shape' := by
    intro halone E' shape' hu
    exact ⟨E', shape', .of_stage (halone_next halone) (hself.symm ▸ hu.keep rfl)⟩
  by_cases hold : (s.clientPc c).handles = true
  · cases hs with
    | nobody harr hvain =>
        obtain ⟨rfl, again, pc₀, hpc₀, hskips⟩ := hvain c hold
        rw [hpc₀] at h hold
        cases h with
        | stop h =>
            -- a `stop` that found null goes on to the end without touching the pointers
            obtain ⟨hpointers, hnext⟩ := h.in_vain harr.unowned hskips hold
            refine ⟨E, .idle, .nobody (harr.keep hpointers) ?_⟩
            rw [hclient]
            exact forall_update (P := fun _ (pc : CallPc F) => pc.handles = true →
              Shape.idle = .idle ∧ ∃ again pc', pc = .stop again pc' ∧ pc'.skips = true) hvain
              fun hh => ⟨rfl, again, hnext hh⟩
    | one c' hc' harr hsem halone =>
        obtain rfl : c = c' := halone.eq hold
        obtain ⟨E', shape', hu⟩ := harr.call h (.inl hold)
        exact hmoved halone hu
  · rw [Bool.not_eq_true] at hold
    by_cases hnew : pc.handles = true
    · -- the call begins to handle the pointers, as the rule allows it to
      have harr : s.Arranged .out E shape ∧ ∀ c', (s.clientPc c').handles = true →
          shape = .idle ∧ ∃ again pc, s.clientPc c' = .stop again pc ∧ pc.skips = true := by
        cases hs with
        | nobody harr hvain => exact ⟨harr, hvain⟩
        | one c' hc' harr hsem halone =>
            exfalso
            have hbusy : ¬ s.Alone c := by
              intro hno
              have hne : c' ≠ c := by
                rintro rfl
                cases hold.symm.trans hc'
              cases (hno c' hne).symm.trans hc'
            have howned : ¬ s.Unowned := fun hno => by
              cases (harr.sem_some hsem).symm.trans hno.2
            rcases h.begins hold hnew with ⟨again, hpc⟩ | hpc
            · simp only [HandledAlone, hpc] at hG
              exact hG.elim howned hbusy
            · simp only [HandledAlone, hpc] at hG
              exact howned hG.1
      obtain ⟨harr, hvain⟩ := harr
      rcases h.begins hold hnew with ⟨again, hpc⟩ | hpc
      · simp only [HandledAlone, hpc] at hG
        rw [hpc] at h
        have hstage : (CallPc.stop again .semTest : CallPc F).Stage shape := by
          obtain ⟨b, harr⟩ := harr
          rcases harr.stage with hidle | hrunning
          · exact .inr ⟨rfl, hidle⟩
          · exact .inl hrunning
        -- either there is nothing to stop, or the call is the only one to handle the pointers
        rcases hG with hnull | halone
        · obtain rfl : shape = .idle := harr.idle hnull
          cases h with
          | stop h =>
              cases h with
              | go h =>
                  cases h with
                  | present hno => exact absurd hnull.2 hno
                  | absent =>
                      refine ⟨E, .idle, .nobody (harr.keep rfl) ?_⟩
                      rw [hclient]
                      exact forall_update (P := fun _ (pc : CallPc F) => pc.handles = true →
                        Shape.idle = .idle ∧ ∃ again pc', pc = .stop again pc' ∧
                          pc'.skips = true) hvain fun _ => ⟨rfl, again, _, rfl, rfl⟩
              | fault h => cases h
        · obtain ⟨E', shape', hu⟩ := (harr.go hstage trivial).call h (.inr hnew)
          exact hmoved halone hu
      · simp only [HandledAlone, hpc] at hG
        rw [hpc] at h
        obtain rfl : shape = .idle := harr.idle hG.1
        have hstarts : s.Arranged (.start .sem) E .idle := harr.go rfl trivial
        obtain ⟨E', shape', hu⟩ := hstarts.call h (.inr hnew)
        exact hmoved hG.2 hu
    · rw [Bool.not_eq_true] at hnew
      have hpointers : (u.goClient c pc).pointers = s.pointers := h.calm hold hnew
      exact ⟨E, shape, hs.bystander hold hnew hpointers hclient⟩

theorem SetStep.pointers {u : Thread} {s t : State F} {pc : SetPc F} {call : Option (SetPc F)}
    (h : SetStep u s pc t call) : t.pointers = s.pointers := by
  cases h <;> rfl

theorem Handled.step {maxLag : ℕ} {s t : State F} {a : Action F} {E : ℕ} {shape : Shape}
    (hs : Handled s E shape) (hG : HandledAlone s a) (h : Step maxLag s a t) :
    ∃ E' shape', Handled t E' shape' := by
  cases h with
  | timer hi h =>
      refine ⟨E, shape, hs.keep ?_ h.owned.2⟩
      cases h <;> rfl
  | worker hi h =>
      refine ⟨E, shape, hs.keep ?_ h.owned.2⟩
      cases h with
      | nested hpc h => exact h.pointers
      | _ => rfl
  | client h => exact hs.client hG h
  | set hpc | starts hpc | stops hpc =>
      refine ⟨E, shape, hs.bystander ?_ ?_ rfl rfl⟩
      · rw [hpc]
        rfl
      · rfl
  | nest hpc hi => exact ⟨E, shape, hs.keep rfl rfl⟩
  | tick time => exact ⟨E, shape, hs.keep rfl rfl⟩
  | spurious u => exact ⟨E, shape, hs.keep rfl rfl⟩

theorem Handled.of_reach {callback : Option F} {period maxLag : ℕ} {s : State F}
    (h : (machine callback period maxLag).ReachBy HandledAlone s) :
    ∃ E shape, Handled s E shape := by
  refine h.invariant (P := fun s => ∃ E shape, Handled s E shape) ?_ ?_
  · rintro s rfl
    refine ⟨0, .idle, .nobody ⟨false, .inl rfl, trivial, ?_, ?_, ?_, rfl, rfl⟩ ?_⟩
    · rintro b ⟨⟩
    · intro j
      cases j <;> exact ⟨rfl, rfl⟩
    · intro j i hi
      cases hi
    · intro c hc
      cases hc
  · rintro s a t _ ⟨E, shape, hs⟩ hG hst
    exact hs.step hG (step_cases hst)

/-! ## Threads and semaphores behind the pointers -/

section

variable {s t : State F} {E : ℕ} {shape : Shape}

theorem Handled.mover (hs : Handled s E shape) (hsettled : Settled s) {j : Job} {i : ℕ}
    (hi : i < s.created j) (hended : s.ended j i = false) :
    (s.object j i).joined = false ∧ i = E ∧ s.sem_ = some i := by
  have hobj : (s.object j i).joined = false := by
    by_contra hjoined
    rw [hsettled.joined j i (Bool.not_eq_false _ ▸ hjoined)] at hended
    cases hended
  obtain ⟨pc, b, hstaged⟩ := hs.arranged
  obtain ⟨rfl, hruns⟩ := hstaged.current hi hobj
  have hsem : s.sem_ = if shape.sem then some i else none := hstaged.sem
  rw [hstaged.sem_of_runs hruns] at hsem
  exact ⟨hobj, rfl, hsem⟩

theorem Handled.sem_lt (hs : Handled s E shape) {k : ℕ} (h : s.sem_ = some k) :
    k < s.semCnt := by
  obtain ⟨pc, b, hstaged⟩ := hs.arranged
  exact hstaged.sem_lt h

/-- A `stop` at a point that it does not pass in vain is the one that handles the pointers. -/
theorem Handled.stopping (hs : Handled s E shape) {c : ℕ} {again : Bool} {pc : StopPc}
    (hpc : s.clientPc c = .stop again pc) (hhandles : (s.clientPc c).handles = true)
    (hskips : pc.skips = false) :
    (∃ b, Staged ({ s with threadQuit := b } : State F).owned (.stop again pc : CallPc F) E shape) ∧
      s.sem_ = some E ∧ s.Alone c := by
  cases hs with
  | nobody harr hvain =>
      obtain ⟨-, again', pc', hpc', hskips'⟩ := hvain c hhandles
      cases hpc.symm.trans hpc'
      cases hskips.symm.trans hskips'
  | one c' hc' harr hsem halone =>
      obtain rfl : c = c' := halone.eq hhandles
      refine ⟨?_, harr.sem_some hsem, halone⟩
      rw [hpc] at harr
      exact harr

theorem Handled.stopping_sem (hs : Handled s E shape) {c k : ℕ} {again : Bool} {pc : SemPc}
    (hpc : s.clientPc c = .stop again (.sem k pc)) : s.sem_ = some k := by
  obtain ⟨⟨b, hstaged⟩, hsem, -⟩ := hs.stopping hpc (by rw [hpc]; rfl) rfl
  rw [hsem]
  exact congrArg some hstaged.names.symm

/-- Two timers never wait at once. -/
theorem Handled.waiting_unique (hs : Handled s E shape) (hsettled : Settled s) (i j : ℕ)
    (hi : s.timerPc i = .waiting) (hj : s.timerPc j = .waiting) : i = j := by
  have hpresent : ∀ i, s.timerPc i = .waiting → i = E := by
    intro i hi
    have hborn : i < s.created .timer := by
      by_contra hno
      cases hi.symm.trans ((hsettled.unborn i).1 (not_lt.mp hno))
    have hended : s.ended .timer i = false := by
      rw [Bool.eq_false_iff, Ne, State.ended_timer, hi]
      nofun
    exact (hs.mover hsettled hborn hended).2.1
  rw [hpresent i hi, hpresent j hj]

end

theorem Settled.keep {s t : State F} (hs : Settled s)
    (hpc : t.timerPc = s.timerPc ∧ t.workerPc = s.workerPc ∧ t.log = s.log ∧
      t.created = s.created)
    (hjoined : ∀ j i, (t.object j i).joined = true →
      (s.object j i).joined = true ∨ s.ended j i = true) : Settled t := by
  obtain ⟨htimer, hworker, hlog, hcreated⟩ := hpc
  refine ⟨?_, ?_⟩
  · intro j i hj
    have hended : t.ended j i = s.ended j i := by
      cases j <;> simp only [State.ended, htimer, hworker]
    rw [hended]
    exact (hjoined j i hj).elim (hs.joined j i) id
  · rw [hcreated, htimer, hworker, hlog]
    exact hs.unborn

theorem Settled.call {maxLag : ℕ} {u : Thread} {s t : State F} {pc pc' : CallPc F}
    (hs : Settled s) (h : CallStep maxLag u s pc t pc') : Settled t := by
  cases h with
  | set h | setReturns h =>
      have howned := h.owned.1
      refine hs.keep ⟨h.frame.1, h.frame.2.1, h.frame.2.2.1, congrArg Owned.created howned⟩ ?_
      rw [show t.object = s.object from congrArg Owned.object howned]
      exact fun j i hj => .inl hj
  | stop h => exact hs.keep h.frame fun j i => h.joined
  | start h =>
      cases h with
      | create j =>
          have hcreate := hs.resting.create (j := j)
          cases j <;> exact ⟨hcreate.joined, hcreate.unborn⟩
      | _ => exact hs.keep ⟨rfl, rfl, rfl, rfl⟩ fun j i hj => .inl hj

theorem Settled.of_alone {callback : Option F} {period maxLag : ℕ} {s : State F}
    (h : (machine callback period maxLag).ReachBy HandledAlone s) : Settled s := by
  refine h.invariant (P := Settled) ?_ ?_
  · rintro s rfl
    refine ⟨?_, fun _ => ⟨fun _ => rfl, fun _ => ⟨rfl, rfl⟩⟩⟩
    rintro j i ⟨⟩
  · intro s a t hreach hs hG hst
    obtain ⟨E, shape, hhandled⟩ := Handled.of_reach hreach
    cases step_cases hst with
    | timer hi h => exact hs.timer hi (hhandled.mover hs hi h.not_ended).1 h
    | worker hi h =>
        obtain ⟨pc, log, hpc, hlog, htimer, -⟩ := h.moves
        exact hs.worker hi (hhandled.mover hs hi h.not_ended).1 hpc hlog htimer h.owned.1
    | client h =>
        have hu := hs.call h
        exact ⟨hu.joined, hu.unborn⟩
    | @nest i op f hpc hi =>
        have hended : s.ended .worker i = false := by
          rw [Bool.eq_false_iff, Ne, State.ended_worker, hpc]
          rintro ⟨⟩
        exact hs.worker (t := s.goWorker i (.inTask f (some op.entry))) hi
          (hhandled.mover hs hi hended).1 rfl (Function.update_eq_self i s.log).symm rfl rfl
    | set | starts | stops | tick | spurious =>
        exact hs.keep ⟨rfl, rfl, rfl, rfl⟩ fun j i hj => .inl hj

theorem InCall.of_alone {callback : Option F} {period maxLag : ℕ} {s : State F}
    (h : (machine callback period maxLag).ReachBy HandledAlone s) : InCall s := by
  refine h.invariant (P := InCall) ?_ ?_
  · rintro s rfl
    exact .initial callback period maxLag
  · intro s a t hreach hs hG hst
    obtain ⟨E, shape, hhandled⟩ := Handled.of_reach hreach
    have hsettled := Settled.of_alone hreach
    exact hs.step hsettled (fun j i hi hended => (hhandled.mover hsettled hi hended).2.2)
      (fun k => hhandled.sem_lt) (step_cases hst)

/-! ## Nobody meets a null pointer or a spent object -/

theorem Handled.no_fault {s : State F} {E c : ℕ} {shape : Shape} {again : Bool} {pc : StopPc}
    (hs : Handled s E shape) (hpc : s.clientPc c = .stop again pc) : ¬ StopFaults s pc := by
  intro h
  have hhandles : (s.clientPc c).handles = true := by
    rw [hpc]
    cases h <;> rfl
  cases hs with
  | nobody harr hvain =>
      obtain ⟨rfl, again', pc', hpc', hskips⟩ := hvain c hhandles
      cases hpc.symm.trans hpc'
      cases h with
      | @deleteSpent j i h => cases h.symm.trans (harr.unowned.1 j)
      | _ => cases hskips
  | one c' hc' harr hsem halone =>
      obtain rfl : c = c' := halone.eq hhandles
      rw [hpc] at harr
      obtain ⟨b, hstaged⟩ := harr
      exact hstaged.no_fault (h.ghost b)

structure Faultless (s : State F) : Prop where
  client : ∀ c, s.clientPc c ≠ .fault
  timer : ∀ i, s.timerPc i ≠ .fault
  worker : ∀ i, s.workerPc i ≠ .fault

theorem TimerStep.faultless {i : ℕ} {s t : State F} (h : TimerStep i s t) (hsem : s.sem_ ≠ none) :
    ∃ pc, t.timerPc = Function.update s.timerPc i pc ∧ pc ≠ .fault := by
  cases h with
  | @go pc h =>
      refine ⟨pc, rfl, ?_⟩
      generalize s.timerPc i = old at h
      cases h with
      | null first h => exact absurd h hsem
      | absent first | ticked first => cases first <;> nofun
      | _ => nofun
  | _ => exact ⟨_, rfl, nofun⟩

theorem WorkerStep.faultless {i : ℕ} {s t : State F} (h : WorkerStep i s t)
    (hsem : s.sem_ ≠ none) :
    ∃ pc, t.workerPc = Function.update s.workerPc i pc ∧ pc ≠ .fault := by
  cases h with
  | @go pc h =>
      refine ⟨pc, rfl, ?_⟩
      generalize s.workerPc i = old at h
      cases h with
      | null h => exact absurd h hsem
      | _ => nofun
  | @does event pc h =>
      refine ⟨pc, rfl, ?_⟩
      generalize s.workerPc i = old at h
      cases h <;> nofun
  | @nested f pc s' call hpc h =>
      refine ⟨.inTask f call, ?_, nofun⟩
      show Function.update s'.workerPc i _ = _
      rw [h.frame.2.1]
  | _ => exact ⟨_, rfl, nofun⟩

theorem CallStep.faultless {maxLag : ℕ} {u : Thread} {s t : State F} {pc pc' : CallPc F}
    (h : CallStep maxLag u s pc t pc')
    (hno : ∀ again pc₀, pc = .stop again pc₀ → ¬ StopFaults s pc₀) : pc' ≠ .fault := by
  cases h with
  | set | setReturns => nofun
  | @stop again _ _ _ h =>
      cases h with
      | fault h => exact absurd h (hno again _ rfl)
      | resetNull | deleteSem => cases again <;> nofun
      | _ => nofun
  | start h =>
      cases h with
      | assign j i => cases j <;> nofun
      | _ => nofun

theorem Faultless.of_alone {callback : Option F} {period maxLag : ℕ} {s : State F}
    (h : (machine callback period maxLag).ReachBy HandledAlone s) : Faultless s := by
  refine h.invariant (P := Faultless) ?_ ?_
  · rintro s rfl
    exact ⟨nofun, nofun, nofun⟩
  · intro s a t hreach hs hG hst
    obtain ⟨E, shape, hhandled⟩ := Handled.of_reach hreach
    have hsettled := Settled.of_alone hreach
    -- the semaphore outlives the threads that use it
    have hsem : ∀ j i, i < s.created j → s.ended j i = false → s.sem_ ≠ none := by
      intro j i hi hended hno
      cases (hhandled.mover hsettled hi hended).2.2.symm.trans hno
    have hclient : ∀ c (pc : CallPc F), pc ≠ .fault →
        ∀ c', Function.update s.clientPc c pc c' ≠ .fault := fun c pc hpc =>
      forall_update (P := fun _ (pc : CallPc F) => pc ≠ .fault) hs.client hpc
    cases step_cases hst with
    | timer hi h =>
        obtain ⟨pc, hpc, hfault⟩ := h.faultless (hsem _ _ hi h.not_ended)
        obtain ⟨-, -, hworker, -⟩ := h.moves
        refine ⟨by rw [h.owned.2]; exact hs.client, ?_, by rw [hworker]; exact hs.worker⟩
        rw [hpc]
        exact forall_update (P := fun _ (pc : TimerPc) => pc ≠ .fault) hs.timer hfault
    | worker hi h =>
        obtain ⟨pc, hpc, hfault⟩ := h.faultless (hsem _ _ hi h.not_ended)
        obtain ⟨-, -, -, -, htimer, -⟩ := h.moves
        refine ⟨by rw [h.owned.2]; exact hs.client, by rw [htimer]; exact hs.timer, ?_⟩
        rw [hpc]
        exact forall_update (P := fun _ (pc : WorkerPc F) => pc ≠ .fault) hs.worker hfault
    | @client c _ _ u pc h =>
        obtain ⟨htimer, hworker⟩ := h.threads hsettled
        refine ⟨?_, ?_, ?_⟩
        · rw [show (u.goClient c pc).clientPc = Function.update s.clientPc c pc by
            rw [← h.clientPc]]
          exact hclient c pc (h.faultless fun again pc₀ => hhandled.no_fault)
        · show ∀ i, u.timerPc i ≠ .fault
          rw [htimer]
          exact hs.timer
        · show ∀ i, u.workerPc i ≠ .fault
          rw [hworker]
          exact hs.worker
    | @set c | @starts c | @stops c => exact ⟨hclient c _ nofun, hs.timer, hs.worker⟩
    | nest hpc hi =>
        exact ⟨hs.client, hs.timer,
          forall_update (P := fun _ (pc : WorkerPc F) => pc ≠ .fault) hs.worker nofun⟩
    | tick | spurious => exact ⟨hs.client, hs.timer, hs.worker⟩

/-- Semaphore `k` was created, and `sem_` points to it no longer. -/
def State.Past (s : State F) (k : ℕ) : Prop := k < s.semCnt ∧ s.sem_ ≠ some k

/-- Only semaphores of the past are deleted. -/
structure Spent (s : State F) : Prop where
  gone : ∀ k, s.semDeleted k = true → s.Past k
  going : ∀ c again k, s.clientPc c = .stop again (.deleteSem k) → s.Past k

theorem past_update {s : State F} {table : ℕ → Bool} {k : ℕ}
    (h : ∀ k, table k = true → s.Past k) (hk : s.Past k) :
    ∀ k', Function.update table k true k' = true → s.Past k' :=
  forall_update (P := fun k (deleted : Bool) => deleted = true → s.Past k) h fun _ => hk

theorem CallStep.spent {maxLag : ℕ} {u : Thread} {s t : State F} {pc pc' : CallPc F}
    (h : CallStep maxLag u s pc t pc') (hgone : ∀ k, s.semDeleted k = true → s.Past k)
    (hgoing : ∀ again k, pc = .stop again (.deleteSem k) → s.Past k)
    (hstart : ∀ k, pc ≠ .start (.deleteSem k)) (hlt : ∀ k, s.sem_ = some k → k < s.semCnt) :
    (∀ k, s.Past k → t.Past k) ∧ (∀ k, t.semDeleted k = true → t.Past k) ∧
      ∀ again k, pc' = .stop again (.deleteSem k) → t.Past k := by
  cases h with
  | set h | setReturns h => cases h <;> exact ⟨fun _ => id, hgone, nofun⟩
  | @stop again _ _ _ h =>
      cases h with
      | go h =>
          refine ⟨fun _ => id, hgone, ?_⟩
          cases h with
          | joinAbsent j | @unjoinable j | deleteAbsent j => cases j <;> nofun
          | _ => nofun
      | @reset k h =>
          refine ⟨fun k' hk' => ⟨hk'.1, nofun⟩, fun k' hk' => ⟨(hgone k' hk').1, nofun⟩, ?_⟩
          rintro again k' ⟨⟩
          exact ⟨hlt k h, nofun⟩
      | deleteSem k =>
          refine ⟨fun _ => id, ?_, fun _ _ hno => by cases again <;> cases hno⟩
          exact past_update hgone (hgoing again k rfl)
      | @join j | @delete j | null j => exact ⟨fun _ => id, hgone, by cases j <;> nofun⟩
      | resetNull h => exact ⟨fun _ => id, hgone, fun _ _ hno => by cases again <;> cases hno⟩
      | _ => exact ⟨fun _ => id, hgone, nofun⟩
  | start h =>
      cases h with
      | sem h =>
          have hpast : ∀ k, s.Past k → State.Past ({ s with
              sem_ := some s.semCnt, semCnt := s.semCnt + 1 }.setSem s.semCnt
                (CountingSemaphore.new (ptrdiff maxLag))) k := by
            intro k hk
            refine ⟨hk.1.trans (Nat.lt_succ_self _), fun hno => ?_⟩
            exact hk.1.ne (Option.some.inj hno).symm
          exact ⟨hpast, fun k hk => hpast k (hgone k hk), nofun⟩
      | deleteSem k => exact absurd rfl (hstart k)
      | create j => cases j <;> exact ⟨fun _ => id, hgone, nofun⟩
      | assign j i => exact ⟨fun _ => id, hgone, by cases j <;> nofun⟩
      | _ => exact ⟨fun _ => id, hgone, nofun⟩

/-- No `start` replaces a semaphore. -/
theorem Handled.no_replacement {s : State F} {E c k : ℕ} {shape : Shape} (hs : Handled s E shape) :
    s.clientPc c ≠ .start (.deleteSem k) := by
  intro hpc
  have hhandles : (s.clientPc c).handles = true := by
    rw [hpc]
    rfl
  cases hs with
  | nobody harr hvain =>
      obtain ⟨-, again, pc, hpc', -⟩ := hvain c hhandles
      cases hpc.symm.trans hpc'
  | one c' hc' harr hsem halone =>
      obtain rfl : c = c' := halone.eq hhandles
      rw [hpc] at harr
      obtain ⟨b, hstaged⟩ := harr
      exact hstaged.names

theorem Spent.of_alone {callback : Option F} {period maxLag : ℕ} {s : State F}
    (h : (machine callback period maxLag).ReachBy HandledAlone s) : Spent s := by
  refine h.invariant (P := Spent) ?_ ?_
  · rintro s rfl
    exact ⟨nofun, nofun⟩
  · intro s a t hreach hs hG hst
    obtain ⟨E, shape, hhandled⟩ := Handled.of_reach hreach
    have hkeep : ∀ u : State F, u.owned = s.owned → u.semDeleted = s.semDeleted →
        (∀ c again k, u.clientPc c = .stop again (.deleteSem k) →
          s.clientPc c = .stop again (.deleteSem k)) → Spent u := by
      intro u howned hdeleted hclient
      have hcnt : u.semCnt = s.semCnt := congrArg Owned.semCnt howned
      have hsem : u.sem_ = s.sem_ := congrArg Owned.sem_ howned
      have hpast : ∀ k, s.Past k → u.Past k := by
        intro k hk
        rwa [State.Past, hcnt, hsem]
      refine ⟨?_, fun c again k hpc => hpast k (hs.going c again k (hclient c again k hpc))⟩
      rw [hdeleted]
      exact fun k hk => hpast k (hs.gone k hk)
    -- only client steps move `sem_` or delete a semaphore
    cases step_cases hst with
    | timer hi h =>
        refine hkeep _ h.owned.1 ?_ (by rw [h.owned.2]; exact fun _ _ _ => id)
        cases h <;> rfl
    | worker hi h =>
        refine hkeep _ h.owned.1 ?_ (by rw [h.owned.2]; exact fun _ _ _ => id)
        cases h with
        | nested hpc h => cases h <;> rfl
        | _ => rfl
    | @client c _ _ u pc h =>
        obtain ⟨hpast, hgone, hgoing⟩ := h.spent hs.gone (hs.going c)
          (fun k => hhandled.no_replacement) (fun k => hhandled.sem_lt)
        refine ⟨hgone, ?_⟩
        rw [show (u.goClient c pc).clientPc = Function.update s.clientPc c pc by rw [← h.clientPc]]
        exact forall_update (P := fun _ (pc : CallPc F) => ∀ again k,
          pc = .stop again (.deleteSem k) → u.Past k)
          (fun c' again k hpc => hpast k (hs.going c' again k hpc)) hgoing
    | @set c op hpc | @starts c hpc | @stops c hpc =>
        refine hkeep _ rfl rfl ?_
        exact forall_update (P := fun c' (pc : CallPc F) => ∀ again k,
          pc = .stop again (.deleteSem k) → s.clientPc c' = .stop again (.deleteSem k))
          (fun _ _ _ => id) nofun
    | nest | tick | spurious => exact hkeep _ rfl rfl fun _ _ _ => id

/-! ## A single control thread -/

/-- One control thread never handles the pointers twice at once. -/
theorem handled_alone_of_control {callback : Option F} {period maxLag : ℕ} {s : State F}
    (h : (machine callback period maxLag).ReachBy OneControl s) :
    (machine callback period maxLag).ReachBy HandledAlone s := by
  refine h.upgrade ?_
  intro s a hreach hG
  obtain ⟨E, shape, hc⟩ := Controlled.of_reach hreach
  cases a with
  | client c fails wake =>
      by_cases hzero : c = 0
      · subst hzero
        have halone : s.Alone 0 := by
          intro c' hc'
          have hsettles := hc.others c' hc'
          cases hpc : s.clientPc c' with
          | out | set => rfl
          | _ =>
              rw [hpc] at hsettles
              cases hsettles
        have hstaged := hc.staged
        have hquits : ∀ c', c' ≠ 0 → (s.clientPc c').quits = false := by
          intro c' hc'
          have hsettles := hc.others c' hc'
          cases hpc : s.clientPc c' with
          | out | set | start | fault => rfl
          | stop =>
              rw [hpc] at hsettles
              cases hsettles
        simp only [HandledAlone]
        split
        · exact .inr halone
        · exact hquits
        · rename_i hpc
          rw [hpc] at hstaged
          obtain rfl : shape = .idle := hstaged.stage
          exact ⟨⟨fun j => (hstaged.idle j).1, hstaged.sem⟩, halone⟩
        · trivial
      · have hsettles := hc.others c hzero
        simp only [HandledAlone]
        split
        iterate 3
          · rename_i hpc
            rw [hpc] at hsettles
            cases hsettles
        · trivial
  | _ => trivial

end PeriodicWork
