import CcmakeTemplate.PeriodicWork.Callers

/-!
# Ticks and rounds

A round of the worker begins once it has passed the `threadQuit` test after
`acquire`. `acquire` does not say whether it took a tick or found the semaphore
stopped, but a semaphore is stopped only after `threadQuit` is set, so a round that
begins has taken a tick of its own. `Paced` states this for each program point of
the worker, together with the part of the current round that its log shows.
-/

namespace PeriodicWork

open Concurrency Semaphore

variable {F : Type}

/-! ## Rounds -/

/-- The events of one whole round. -/
def round (localTask : Option F) : List (Event F) :=
  .began :: localTask.toList.map .called ++ [.distributed]

def Event.begins : Event F → Bool
  | .began => true
  | _ => false

/-- The number of rounds begun. -/
def rounds (log : List (Event F)) : ℕ := log.countP Event.begins

theorem rounds_append (log : List (Event F)) (event : Event F) :
    rounds (log ++ [event]) = rounds log + if event.begins then 1 else 0 := by
  unfold rounds
  rw [List.countP_append, List.countP_singleton]

/-- The ticks taken against the rounds begun. -/
def WorkerPc.Pace (taken rounds : ℕ) (quit : Bool) : WorkerPc F → Prop
  | .acquire _ .out | .quitTest => taken = rounds + 1 ∨ taken = rounds ∧ quit = true
  | .ended => rounds ≤ taken ∧ taken ≤ rounds + 1
  | _ => taken = rounds

/-- What the log shows of the round in progress. -/
def WorkerPc.Shows (part : List (Event F)) : WorkerPc F → Prop
  | .lockTask | .copyTask | .unlockTask _ | .callTask _ => part = [.began]
  | .inTask f _ => part = [.began, .called f]
  | .distribute => part = [.began] ∨ ∃ f, part = [.began, .called f]
  | _ => part = []

structure Paced (taken : ℕ) (quit : Bool) (log : List (Event F)) (pc : WorkerPc F) : Prop where
  pace : pc.Pace taken (rounds log) quit
  shows : ∃ (whole : List (Option F)) (part : List (Event F)),
    log = whole.flatMap round ++ part ∧ pc.Shows part

theorem Paced.mono {taken : ℕ} {quit quit' : Bool} {log : List (Event F)} {pc : WorkerPc F}
    (h : Paced taken quit log pc) (hquit : quit = true → quit' = true) :
    Paced taken quit' log pc := by
  refine ⟨?_, h.shows⟩
  have hpace := h.pace
  cases pc with
  | acquire k pc =>
      cases pc with
      | out => exact hpace.imp id fun hstop => ⟨hstop.1, hquit hstop.2⟩
      | _ => exact hpace
  | quitTest => exact hpace.imp id fun hstop => ⟨hstop.1, hquit hstop.2⟩
  | _ => exact hpace

theorem Paced.bounds {taken : ℕ} {quit : Bool} {log : List (Event F)} {pc : WorkerPc F}
    (h : Paced taken quit log pc) : rounds log ≤ taken ∧ taken ≤ rounds log + 1 := by
  have hpace := h.pace
  cases pc with
  | acquire k pc =>
      cases pc with
      | out => rcases hpace with hpace | ⟨hpace, -⟩ <;> omega
      | _ =>
          have heq : taken = rounds log := hpace
          omega
  | quitTest => rcases hpace with hpace | ⟨hpace, -⟩ <;> omega
  | ended => exact hpace
  | _ =>
      have heq : taken = rounds log := hpace
      omega

/-- The log is a row of rounds, the last of which may be unfinished. -/
theorem Paced.row {taken : ℕ} {quit : Bool} {log : List (Event F)} {pc : WorkerPc F}
    (h : Paced taken quit log pc) : ∃ whole : List (Option F), log <+: whole.flatMap round := by
  obtain ⟨whole, part, rfl, hpart⟩ := h.shows
  have hround : ∃ localTask, part <+: round localTask := by
    cases pc with
    | lockTask | copyTask | unlockTask | callTask =>
        exact ⟨none, [.distributed], by rw [hpart]; rfl⟩
    | inTask f call => exact ⟨some f, [.distributed], by rw [hpart]; rfl⟩
    | distribute =>
        rcases hpart with rfl | ⟨f, rfl⟩
        · exact ⟨none, [.distributed], rfl⟩
        · exact ⟨some f, [.distributed], rfl⟩
    | _ => exact ⟨none, by rw [hpart]; exact List.nil_prefix⟩
  obtain ⟨localTask, hstart⟩ := hround
  refine ⟨whole ++ [localTask], ?_⟩
  rw [List.flatMap_append, List.flatMap_singleton]
  exact (List.prefix_append_right_inj _).mpr hstart

/-! ## One step of the worker -/

theorem Paced.go {s : State F} {taken : ℕ} {log : List (Event F)} {pc pc' : WorkerPc F}
    (hs : Paced taken s.threadQuit log pc) (h : WorkerGo s pc pc') :
    Paced taken s.threadQuit log pc' := by
  obtain ⟨hpace, whole, part, hlog, hpart⟩ := hs
  cases h with
  | stops | absent =>
      have heq : taken = rounds log := hpace
      exact ⟨⟨heq.ge, by omega⟩, whole, part, hlog, hpart⟩
  | breaks hquit =>
      refine ⟨?_, whole, part, hlog, hpart⟩
      rcases hpace with hpace | ⟨hpace, -⟩ <;> exact ⟨by omega, by omega⟩
  | noTask => exact ⟨hpace, whole, part, hlog, .inl hpart⟩
  | returns f => exact ⟨hpace, whole, part, hlog, .inr ⟨f, hpart⟩⟩
  | _ => exact ⟨hpace, whole, part, hlog, hpart⟩

theorem Paced.does {s : State F} {taken : ℕ} {log : List (Event F)} {event : Event F}
    {pc pc' : WorkerPc F} (hs : Paced taken s.threadQuit log pc) (h : WorkerDoes s pc event pc') :
    Paced taken s.threadQuit (log ++ [event]) pc' := by
  obtain ⟨hpace, whole, part, rfl, hpart⟩ := hs
  cases h with
  | begins hquit =>
      obtain rfl : part = [] := hpart
      refine ⟨?_, whole, _, by rw [List.append_nil], rfl⟩
      show taken = rounds _
      rw [rounds_append]
      -- with `threadQuit` unset, `acquire` has returned with a tick
      rcases hpace with hpace | ⟨-, hno⟩
      · exact hpace
      · rw [hquit] at hno
        cases hno
  | calls f =>
      obtain rfl : part = [.began] := hpart
      refine ⟨?_, whole, _, by rw [List.append_assoc]; rfl, rfl⟩
      show taken = rounds _
      rw [rounds_append]
      exact hpace
  | distributes =>
      have hpace' : taken = rounds (whole.flatMap round ++ part ++ [.distributed]) := by
        rw [rounds_append]
        exact hpace
      have hround : ∃ localTask, part ++ [.distributed] = round localTask := by
        rcases hpart with rfl | ⟨f, rfl⟩
        · exact ⟨none, rfl⟩
        · exact ⟨some f, rfl⟩
      obtain ⟨localTask, hround⟩ := hround
      refine ⟨hpace', whole ++ [localTask], [], ?_, rfl⟩
      rw [List.append_assoc, hround]
      simp

theorem Paced.sem {u : Thread} {quit : Bool} {log : List (Event F)} {k : ℕ} {pc pc' : SemPc}
    {sem sem' : CountingSemaphore Thread} (hs : Paced sem.taken quit log (.acquire k pc))
    (h : SemStep u sem pc sem' pc') (hpc : pc.within .acquire = true)
    (hstop : sem.stopped_ = true → quit = true) :
    Paced sem'.taken quit log (.acquire k pc') := by
  obtain ⟨hpace, whole, part, hlog, hpart⟩ := hs
  refine ⟨?_, whole, part, hlog, hpart⟩
  have hinside : pc ≠ .out := by
    rintro rfl
    cases h with
    | go h | lock h | unlock h => cases h
  have heq : sem.taken = rounds log := by
    cases pc with
    | out => exact absurd rfl hinside
    | _ => exact hpace
  by_cases hout : pc' = .out
  · subst hout
    rcases h.returns hpc with htaken | ⟨htaken, hstopped⟩
    · exact .inl (by omega)
    · exact .inr ⟨by omega, hstop hstopped⟩
  · have htaken : sem'.taken = rounds log := by
      rcases h.taken with htaken | ⟨-, hno, -⟩
      · omega
      · exact absurd hno hout
    cases pc' with
    | out => exact absurd rfl hout
    | _ => exact htaken

/-! ## The other steps -/

theorem TimerStep.quiet {i : ℕ} {s t : State F} (h : TimerStep i s t) (hs : InCall s) (k : ℕ) :
    (t.sems k).taken = (s.sems k).taken ∧
      ((t.sems k).stopped_ = true → (s.sems k).stopped_ = true) := by
  cases h with
  | @sem first k' pc pc' sem hpc h =>
      have hcall := hs.timer i
      rw [hpc] at hcall
      by_cases hk : k = k'
      · subst hk
        simp only [Function.update_self]
        refine ⟨?_, ?_⟩
        · rcases h.taken with htaken | ⟨-, -, c, rfl⟩
          · exact htaken
          · cases hcall.2.2
        · intro hstop
          rcases h.stopped hstop with hold | rfl
          · exact hold
          · cases hcall.2.2
      · simp only [Function.update_of_ne hk]
        exact ⟨trivial, id⟩
  | _ => exact ⟨rfl, id⟩

theorem WorkerStep.quiet {i : ℕ} {s t : State F} (h : WorkerStep i s t) (hs : InCall s) (k : ℕ) :
    (k ≠ i → t.workerPc k = s.workerPc k ∧ t.log k = s.log k ∧ t.sems k = s.sems k) ∧
      ((t.sems k).stopped_ = true → (s.sems k).stopped_ = true) := by
  cases h with
  | go | lock | unlock =>
      refine ⟨fun hk => ?_, id⟩
      simp only [Function.update_of_ne hk]
      exact ⟨trivial, trivial, trivial⟩
  | does =>
      refine ⟨fun hk => ?_, id⟩
      simp only [Function.update_of_ne hk]
      exact ⟨trivial, trivial, trivial⟩
  | @sem k' pc pc' sem hpc h =>
      have hcall := hs.worker i
      rw [hpc] at hcall
      obtain ⟨rfl, -, hwithin⟩ := hcall
      refine ⟨fun hk => ?_, fun hstop => ?_⟩
      · simp only [Function.update_of_ne hk]
        exact ⟨trivial, trivial, trivial⟩
      · by_cases hk : k = k'
        · subst hk
          simp only [Function.update_self] at hstop
          rcases h.stopped hstop with hold | rfl
          · exact hold
          · cases hwithin
        · simpa only [Function.update_of_ne hk] using hstop
  | nested hpc h =>
      obtain ⟨-, hworker, hlog, hsems⟩ := h.frame
      refine ⟨fun hk => ?_, fun hstop => ?_⟩
      · simp only [Function.update_of_ne hk, hworker, hlog, hsems]
        exact ⟨trivial, trivial, trivial⟩
      · rwa [← hsems]

theorem CallStep.quiet {maxLag : ℕ} {u : Thread} {s t : State F} {pc pc' : CallPc F}
    (h : CallStep maxLag u s pc t pc') (hpc : pc.Calls s.semCnt) {k : ℕ} (hk : k < s.semCnt) :
    (t.sems k).taken = (s.sems k).taken ∧
      ((t.sems k).stopped_ = true → (s.sems k).stopped_ = true ∨
        ∃ again, pc = .stop again (.sem k .stopStore)) := by
  cases h with
  | set h | setReturns h =>
      rw [h.frame.2.2.2]
      exact ⟨rfl, .inl⟩
  | @stop again pc s' pc' h =>
      cases h with
      | @sem k' pc pc' sem h =>
          by_cases hk' : k = k'
          · subst hk'
            simp only [Function.update_self]
            refine ⟨?_, fun hstop => ?_⟩
            · rcases h.taken with htaken | ⟨-, -, c, rfl⟩
              · exact htaken
              · cases hpc.2
            · rcases h.stopped hstop with hold | rfl
              · exact .inl hold
              · exact .inr ⟨again, rfl⟩
          · simp only [Function.update_of_ne hk']
            exact ⟨trivial, .inl⟩
      | _ => exact ⟨rfl, .inl⟩
  | start h =>
      cases h with
      | sem h =>
          simp only [Function.update_of_ne (Nat.ne_of_lt hk)]
          exact ⟨trivial, .inl⟩
      | create j => cases j <;> exact ⟨rfl, .inl⟩
      | _ => exact ⟨rfl, .inl⟩

theorem CallStep.log {maxLag : ℕ} {u : Thread} {s t : State F} {pc pc' : CallPc F}
    (h : CallStep maxLag u s pc t pc') : t.log = s.log := by
  cases h with
  | set h | setReturns h => exact h.frame.2.2.1
  | stop h => exact h.frame.2.2.1
  | start h =>
      cases h with
      | create j => exact (startThread_frame _ j _).2.2.2
      | _ => rfl

theorem CallStep.threadQuit {maxLag : ℕ} {u : Thread} {s t : State F} {pc pc' : CallPc F}
    (h : CallStep maxLag u s pc t pc') :
    (s.threadQuit = true → t.threadQuit = true) ∨ pc = .start .quit := by
  cases h with
  | set h | setReturns h =>
      rw [show t.threadQuit = s.threadQuit from congrArg Owned.threadQuit h.owned.1]
      exact .inl id
  | stop h => exact .inl h.threadQuit
  | start h =>
      cases h with
      | quit => exact .inr rfl
      | create j => cases j <;> exact .inl id
      | _ => exact .inl id

theorem CallStep.sem_ {maxLag : ℕ} {u : Thread} {s t : State F} {pc pc' : CallPc F}
    (h : CallStep maxLag u s pc t pc') {k : ℕ} (hk : t.sem_ = some k) :
    s.sem_ = some k ∨ t.sems k = CountingSemaphore.new (ptrdiff maxLag) := by
  cases h with
  | set h | setReturns h =>
      rw [← show t.sem_ = s.sem_ from congrArg Owned.sem_ h.owned.1]
      exact .inl hk
  | stop h =>
      cases h with
      | reset => cases hk
      | _ => exact .inl hk
  | start h =>
      cases h with
      | sem h =>
          obtain rfl := Option.some.inj hk
          exact .inr (Function.update_self ..)
      | create j => cases j <;> exact .inl hk
      | _ => exact .inl hk

/-! ## Every reachable state -/

structure Ticking (s : State F) : Prop where
  /-- A semaphore is stopped only after `threadQuit` is set. -/
  halted : ∀ k, s.sem_ = some k → (s.sems k).stopped_ = true → s.threadQuit = true
  paced : ∀ k, k < s.semCnt →
    Paced (s.sems k).taken s.threadQuit (s.log k) (s.workerPc k)

theorem Ticking.timer {s t : State F} {i : ℕ} (hs : Ticking s) (hcalls : InCall s)
    (h : TimerStep i s t) : Ticking t := by
  have howned := h.owned.1
  have hquit : t.threadQuit = s.threadQuit := congrArg Owned.threadQuit howned
  have hsem : t.sem_ = s.sem_ := congrArg Owned.sem_ howned
  have hcnt : t.semCnt = s.semCnt := congrArg Owned.semCnt howned
  obtain ⟨-, -, hworker, hlog, -⟩ := h.moves
  refine ⟨?_, ?_⟩
  · rw [hquit, hsem]
    exact fun k hk hstop => hs.halted k hk ((h.quiet hcalls k).2 hstop)
  · rw [hquit, hcnt, hworker, hlog]
    intro k hk
    rw [(h.quiet hcalls k).1]
    exact hs.paced k hk

theorem Ticking.worker {s t : State F} {i : ℕ} (hs : Ticking s) (hcalls : InCall s)
    (hsem : s.sem_ = some i) (hcnt : i < s.semCnt) (h : WorkerStep i s t) : Ticking t := by
  have howned := h.owned.1
  have hquit : t.threadQuit = s.threadQuit := congrArg Owned.threadQuit howned
  refine ⟨?_, ?_⟩
  · rw [hquit, show t.sem_ = s.sem_ from congrArg Owned.sem_ howned]
    exact fun k hk hstop => hs.halted k hk ((h.quiet hcalls k).2 hstop)
  · rw [hquit, show t.semCnt = s.semCnt from congrArg Owned.semCnt howned]
    intro k hk
    by_cases hki : k = i
    · subst hki
      have hold := hs.paced k hk
      cases h with
      | go h =>
          simp only [Function.update_self]
          exact hold.go h
      | does h =>
          simp only [Function.update_self]
          exact hold.does h
      | sem hpc h =>
          have hcall := hcalls.worker k
          rw [hpc] at hcall hold
          obtain ⟨rfl, -, hwithin⟩ := hcall
          simp only [Function.update_self]
          exact hold.sem h hwithin (hs.halted _ hsem)
      | lock hpc | unlock hpc =>
          rw [hpc] at hold
          simp only [Function.update_self]
          exact ⟨hold.pace, hold.shows⟩
      | nested hpc h =>
          rw [hpc] at hold
          simp only [Function.update_self, h.frame.2.2.1, h.frame.2.2.2]
          exact ⟨hold.pace, hold.shows⟩
    · obtain ⟨hworker, hlog, hsems⟩ := (h.quiet hcalls k).1 hki
      rw [hworker, hlog, hsems]
      exact hs.paced k hk

/-- The worker of an earlier epoch has returned, so `threadQuit` means nothing to it. -/
theorem Paced.ended {taken : ℕ} {quit quit' : Bool} {log : List (Event F)} {pc : WorkerPc F}
    (h : Paced taken quit log pc) (hpc : pc = .ended) : Paced taken quit' log pc := by
  subst hpc
  exact ⟨h.pace, h.shows⟩

theorem Ticking.client {callback : Option F} {period maxLag c : ℕ} {s t : State F}
    {pc : CallPc F} (hreach : (machine callback period maxLag).ReachBy OneControl s)
    (hs : Ticking s) (h : CallStep maxLag (.client c) s (s.clientPc c) t pc) :
    Ticking (t.goClient c pc) := by
  obtain ⟨E, shape, hc⟩ := Controlled.of_reach hreach
  have hrest := Resting.of_reach hreach
  have hcalls := InCall.of_reach hreach
  -- whoever is inside `start` or `stop` is client 0
  have hstaged : (s.clientPc c).settles = false → Staged s.owned (s.clientPc c) E shape := by
    intro hno
    obtain rfl : c = 0 := by
      by_contra hne
      rw [hc.others c hne] at hno
      cases hno
    exact hc.staged
  have hworker := (h.threads hrest.settled).2
  have hquiet := fun k => h.quiet (hcalls.client c) (k := k)
  generalize s.clientPc c = old at h hstaged hquiet
  refine ⟨?_, ?_⟩
  · intro k hk hstop
    have hstop' : (t.sems k).stopped_ = true := hstop
    rcases h.sem_ hk with hold | hnew
    · have hset : s.threadQuit = true := by
        rcases (hquiet k (hc.staged.sem_lt hold)).2 hstop' with hstopped | ⟨again, rfl⟩
        · exact hs.halted k hold hstopped
        · exact (hstaged rfl).quit true rfl
      rcases h.threadQuit with hkeep | rfl
      · exact hkeep hset
      · obtain rfl : shape = .idle := (hstaged rfl).stage
        cases (hstaged rfl).sem.symm.trans hold
    · rw [hnew] at hstop'
      cases hstop'
  · intro k hk
    show Paced (t.sems k).taken t.threadQuit (t.log k) (t.workerPc k)
    rw [hworker, h.log]
    by_cases hold : k < s.semCnt
    · rw [(hquiet k hold).1]
      rcases h.threadQuit with hkeep | rfl
      · exact (hs.paced k hold).mono hkeep
      · -- when `start` clears `threadQuit`, every worker has returned
        have hstart := hstaged rfl
        obtain rfl : shape = .idle := hstart.stage
        have hborn : s.semCnt = s.created .worker :=
          hstart.semCnt.trans (hstart.idle .worker).2.symm
        have hended := hstart.idle_ended hrest (hborn ▸ hold)
        exact (hs.paced k hold).ended (State.ended_worker.mp hended)
    · -- the semaphore is new, and its worker is not born yet
      have hk' : k < t.semCnt := hk
      rcases h.semCnt with hsame | ⟨hsucc, hnew, rfl, -⟩
      · omega
      · obtain rfl : k = s.semCnt := by omega
        have hstart := hstaged rfl
        obtain rfl : shape = .idle := hstart.stage
        have hborn : s.created .worker ≤ s.semCnt :=
          (hstart.idle .worker).2.trans_le hstart.semCnt.ge
        obtain ⟨hpc, hlog⟩ := (hrest.unborn s.semCnt).2 hborn
        rw [hpc, hlog, hnew]
        exact ⟨rfl, [], [], rfl, rfl⟩

theorem Ticking.of_reach {callback : Option F} {period maxLag : ℕ} {s : State F}
    (h : (machine callback period maxLag).ReachBy OneControl s) : Ticking s := by
  refine h.invariant (P := Ticking) ?_ ?_
  · rintro s rfl
    exact ⟨by rintro k ⟨⟩, fun k hk => absurd hk (Nat.not_lt_zero k)⟩
  · intro s a t hreach hs hG hst
    obtain ⟨E, shape, hc⟩ := Controlled.of_reach hreach
    have hrest := Resting.of_reach hreach
    have hcalls := InCall.of_reach hreach
    cases step_cases hst with
    | timer hi h => exact hs.timer hcalls h
    | worker hi h =>
        obtain ⟨-, rfl, -, hsem⟩ := hrest.mover hc hi h.not_ended
        exact hs.worker hcalls hsem (hc.staged.sem_lt hsem) h
    | client h => exact hs.client hreach h
    | @nest i op f hpc hi =>
        refine ⟨hs.halted, ?_⟩
        intro k hk
        have hold := hs.paced k hk
        by_cases hki : k = i
        · subst hki
          rw [hpc] at hold
          simp only [Function.update_self]
          exact ⟨hold.pace, hold.shows⟩
        · simp only [Function.update_of_ne hki]
          exact hold
    | _ => exact ⟨hs.halted, hs.paced⟩

/-! ## The account -/

theorem ptrdiff_of_le {maxLag : ℕ} (h : maxLag ≤ 2 ^ 63 - 1) : ptrdiff maxLag = maxLag := by
  unfold ptrdiff
  rw [Int.bmod_eq_of_le] <;> omega

theorem Step.semCnt_le {maxLag : ℕ} {s t : State F} {a : Action F} (h : Step maxLag s a t) :
    s.semCnt ≤ t.semCnt := by
  cases h with
  | timer hi h => exact (congrArg Owned.semCnt h.owned.1).ge
  | worker hi h => exact (congrArg Owned.semCnt h.owned.1).ge
  | @client c _ _ u pc h =>
      show s.semCnt ≤ u.semCnt
      rcases h.semCnt with hsame | ⟨hsucc, -⟩ <;> omega
  | _ => exact le_rfl

theorem RunBy.semCnt_le {callback : Option F} {period maxLag : ℕ}
    {G : State F → Action F → Prop} {s t : State F}
    (h : (machine callback period maxLag).RunBy G s t) : s.semCnt ≤ t.semCnt := by
  refine h.relation (R := fun s t => s.semCnt ≤ t.semCnt) (fun _ => le_rfl) ?_
  intro s t a u hle _ hst
  exact hle.trans (step_cases hst).semCnt_le

/-- Under one control thread, in every epoch and at every moment: the count is the
ticks accepted minus the ticks taken and lies between zero and `maxLag`; the rounds
begun are the ticks taken, or one fewer; each round calls the primary callback at most
once and then distributes once; a tick is refused only at `maxLag` buffered ticks or
by a stopped semaphore; and however far a run goes on, the worker catches up by at most
`maxLag + 1` rounds more than there are new ticks. -/
theorem tick_accounting {callback : Option F} {period maxLag : ℕ} (hmax : maxLag ≤ 2 ^ 63 - 1)
    {s : State F} (h : (machine callback period maxLag).ReachBy OneControl s) {k : ℕ}
    (hk : k < s.semCnt) :
    ((s.sems k).count_ = (s.sems k).accepted - (s.sems k).taken ∧
      0 ≤ (s.sems k).count_ ∧ (s.sems k).count_ ≤ maxLag) ∧
    (rounds (s.log k) ≤ (s.sems k).taken ∧ (s.sems k).taken ≤ rounds (s.log k) + 1) ∧
    (∃ whole : List (Option F), s.log k <+: whole.flatMap round) ∧
    (∀ r ∈ (s.sems k).rejected, r.1 = maxLag ∨ r.2 = true) ∧
    ∀ t, (machine callback period maxLag).RunBy OneControl s t →
      rounds (t.log k) + (s.sems k).accepted ≤
        rounds (s.log k) + (t.sems k).accepted + maxLag + 1 := by
  have hlag := ptrdiff_of_le hmax
  have hcounted : ∀ t, (machine callback period maxLag).ReachBy OneControl t → k < t.semCnt →
      Counted (t.sems k) (t.callers k) ∧ (t.sems k).max_count_ = maxLag := by
    intro t ht hkt
    have hsound := Sound.of_reach ht
    exact ⟨hsound.counted k hkt, (hsound.max_count k hkt).trans hlag⟩
  obtain ⟨hs, hsmax⟩ := hcounted s h hk
  have hpaced := (Ticking.of_reach h).paced k hk
  have hbounds := hpaced.bounds
  have hcapacity : max 0 (s.sems k).max_count_ = maxLag := by
    rw [hsmax]
    exact max_eq_right (Int.natCast_nonneg maxLag)
  refine ⟨⟨hs.count, hs.nonneg, hcapacity ▸ hs.le_max⟩, hbounds, hpaced.row, ?_, ?_⟩
  · intro r hr
    exact (hs.rejected r hr).symm.imp_left fun hfull => hfull.trans hcapacity
  · intro t hrun
    have hkt : k < t.semCnt := hk.trans_le (RunBy.semCnt_le hrun)
    obtain ⟨ht, htmax⟩ := hcounted t (h.run hrun) hkt
    have hahead := ((Ticking.of_reach (h.run hrun)).paced k hkt).bounds.1
    -- what was taken since is what was buffered plus what was accepted since
    have hscount := hs.count
    have htcount := ht.count
    have hsroom := hs.le_max
    have htnonneg := ht.nonneg
    omega

/-- A tick accepted and its round begun. -/
theorem tick_accounting_round :
    ∃ s : State ℕ, (machine (some 7) 1000 1).ReachBy OneControl s ∧
      rounds (s.log 0) = 1 ∧ (s.sems 0).taken = 1 ∧
      (s.sems 0).count_ = (s.sems 0).accepted - (s.sems 0).taken ∧
      rounds (s.log 0) ≤ (s.sems 0).taken := by
  obtain ⟨s, hreach, hrounds, htaken, hcnt⟩ := Machine.ReachBy.of_exec
    (M := machine (some 7) 1000 1) (G := OneControl) (State.initial (some 7) 1000 1)
    (runStart ++ runTimer 5 ++ runWorker 7)
    (fun s => rounds (s.log 0) = 1 ∧ (s.sems 0).taken = 1 ∧ 0 < s.semCnt) rfl (by decide)
  have haccount := tick_accounting (by decide) hreach hcnt
  exact ⟨s, hreach, hrounds, htaken, haccount.1.1, haccount.2.1.1⟩

end PeriodicWork
