import CcmakeTemplate.PeriodicWork.Rounds
import CcmakeTemplate.Semaphore.Capacity

/-!
# The capacity for every `maxLag`

`maxLag` is a `std::size_t`, and `start` casts it to `std::ptrdiff_t` for the semaphore.
Up to `2 ^ 63 - 1` the cast keeps the number, and the semaphore buffers up to `maxLag`
ticks. From `2 ^ 63` on it is negative, so the semaphore counts as full before the first
tick and no callback ever runs.
-/

namespace PeriodicWork

open Concurrency Semaphore

variable {F : Type}

/-! ## The cast -/

/-- The value fits into a `std::ptrdiff_t`. -/
def InPtrdiff (x : ℤ) : Prop := -2 ^ 63 ≤ x ∧ x < 2 ^ 63

theorem ptrdiff_neg {maxLag : ℕ} (hle : 2 ^ 63 ≤ maxLag) (hlt : maxLag < 2 ^ 64) :
    ptrdiff maxLag < 0 := by
  have hwrap : ptrdiff maxLag = maxLag - 2 ^ 64 := by
    unfold ptrdiff
    rw [← Int.sub_mul_bmod_self_left (maxLag : ℤ) (2 ^ 64) 1]
    rw [Int.bmod_eq_of_le] <;> omega
  omega

/-! ## The first tick -/

/-- While timer `k` stays where it is, nothing is released on semaphore `k`. -/
theorem Step.unreleased {maxLag : ℕ} {s t : State F} {a : Action F} (h : Step maxLag s a t)
    (hrest : Settled s) (hcalls : InCall s) {k : ℕ} (hk : k < s.semCnt)
    (htimer : t.timerPc k = s.timerPc k) :
    (t.sems k).accepted = (s.sems k).accepted ∧
      ((s.sems k).stopped_ = true → (t.sems k).stopped_ = true) := by
  have hmove := h.semMove hrest hk
  have hsame : t.callers k (.job .timer k) = s.callers k (.job .timer k) :=
    congrArg (TimerPc.semPc k) htimer
  generalize t.callers k = callers at hmove hsame
  generalize t.sems k = sem at hmove
  cases hmove with
  | keep | spurious => exact ⟨rfl, id⟩
  | call => exact ⟨rfl, id⟩
  | @step u s' pc' hstep =>
      obtain ⟨hkept | ⟨c, hpc, hne⟩, hstop⟩ := hstep.keeps
      · exact ⟨hkept, hstop⟩
      · -- only the timer of the epoch releases, and it has not moved
        have hcaller := hcalls.callsSem (k := k) (u := u) (by rw [hpc]; simp)
        cases hcaller with
        | timer _ _ =>
            rw [Function.update_self] at hsame
            exact absurd hsame hne
        | worker _ hwithin | client _ hwithin =>
            rw [hpc] at hwithin
            cases hwithin

/-- The semaphore while its timer has made at most one `try_release`. -/
def TimerPc.First (sem : CountingSemaphore Thread) : TimerPc → Prop
  | .semTest true | .semDeref true => sem.accepted = 0
  | .release true _ pc => pc.First sem
  | _ => True

theorem TimerPc.First.mono {sem sem' : CountingSemaphore Thread} {pc : TimerPc}
    (h : TimerPc.First sem pc) (haccepted : sem'.accepted = sem.accepted)
    (hstop : sem.stopped_ = true → sem'.stopped_ = true) : TimerPc.First sem' pc := by
  cases pc with
  | semTest first | semDeref first =>
      cases first with
      | true => exact haccepted.trans h
      | false => trivial
  | release first k pc =>
      cases first with
      | true => exact SemPc.First.mono h haccepted hstop
      | false => trivial
  | _ => trivial

theorem TimerPc.First.step {maxLag i : ℕ} {s t : State F}
    (hs : TimerPc.First (s.sems i) (s.timerPc i)) (hsound : Sound maxLag s)
    (hlag : 0 < ptrdiff maxLag) (hcalls : InCall s) (hi : i < s.semCnt) (h : TimerStep i s t) :
    TimerPc.First (t.sems i) (t.timerPc i) := by
  cases h with
  | go h =>
      simp only [Function.update_self]
      generalize s.timerPc i = pc at h hs
      cases h with
      | present first =>
          cases first with
          | true => exact hs
          | false => trivial
      | absent first | ticked first => cases first <;> trivial
      | _ => trivial
  | @tries first k hpc hsem =>
      rw [hpc] at hs
      simp only [Function.update_self]
      cases first with
      | true => exact hs
      | false => trivial
  | @sem first k pc pc' sem hpc h =>
      have hcall := hcalls.timer i
      rw [hpc] at hcall
      obtain ⟨rfl, -, hwithin⟩ := hcall
      rw [hpc] at hs
      simp only [Function.update_self]
      cases first with
      | true =>
          have hcounted := hsound.counted k hi
          refine SemPc.First.step hs ?_ ((hsound.max_count k hi).symm ▸ hlag) hwithin h
          intro hnone
          have hcount := hcounted.count
          have hnonneg := hcounted.nonneg
          omega
      | false => trivial
  | _ =>
      simp only [Function.update_self]
      trivial

/-- Under one control thread. -/
theorem first_of_reach {callback : Option F} {period maxLag : ℕ} (hlag : 0 < ptrdiff maxLag)
    {s : State F} (h : (machine callback period maxLag).ReachBy OneControl s) :
    ∀ k, k < s.semCnt → TimerPc.First (s.sems k) (s.timerPc k) := by
  refine h.invariant (P := fun s => ∀ k, k < s.semCnt → TimerPc.First (s.sems k) (s.timerPc k))
    ?_ ?_
  · rintro s rfl k hk
    cases hk
  · intro s a t hreach hs hG hst k hk
    have hstep := step_cases hst
    have hrest := Resting.of_reach hreach
    have hcalls := InCall.of_reach hreach
    have hkeep : k < s.semCnt → t.timerPc k = s.timerPc k →
        TimerPc.First (t.sems k) (t.timerPc k) := by
      intro hold htimer
      obtain ⟨haccepted, hstop⟩ := hstep.unreleased hrest.settled hcalls hold htimer
      rw [htimer]
      exact (hs k hold).mono haccepted hstop
    cases hstep with
    | @timer i _ _ _ _ hi h =>
        have hcnt : t.semCnt = s.semCnt := congrArg Owned.semCnt h.owned.1
        have hold : k < s.semCnt := hcnt ▸ hk
        by_cases hki : k = i
        · subst hki
          exact (hs k hold).step (Sound.of_reach hreach) hlag hcalls hold h
        · refine hkeep hold ?_
          obtain ⟨pc, htimer, -⟩ := h.moves
          rw [htimer, Function.update_of_ne hki]
    | worker hi h =>
        obtain ⟨pc, log, -, -, htimer, -⟩ := h.moves
        have hcnt : t.semCnt = s.semCnt := congrArg Owned.semCnt h.owned.1
        exact hkeep (hcnt ▸ hk) (congrFun htimer k)
    | @client c _ _ u pc h =>
        have htimer : u.timerPc = s.timerPc := (h.threads hrest.settled).1
        by_cases hold : k < s.semCnt
        · exact hkeep hold (congrFun htimer k)
        · -- the semaphore is new, and its timer has not been created yet
          change k < u.semCnt at hk
          obtain ⟨hsucc, hsem, -⟩ : u.semCnt = s.semCnt + 1 ∧
              u.sems s.semCnt = CountingSemaphore.new (ptrdiff maxLag) ∧ _ :=
            h.semCnt.resolve_left (by omega)
          obtain rfl : k = s.semCnt := by omega
          obtain ⟨E, shape, hcontrol⟩ := Controlled.of_reach hreach
          have hunborn := (hrest.unborn s.semCnt).1 (hcontrol.staged.created_le .timer)
          show TimerPc.First (u.sems s.semCnt) (u.timerPc s.semCnt)
          rw [hsem, htimer, hunborn]
          rfl
    | _ => exact hkeep hk rfl

/-! ## The first callback -/

/-- A worker that finds a tick takes it. -/
theorem worker_acquires {maxLag i : ℕ} {s : State F} (callback : Option F) (period : ℕ)
    (hi : i < s.created .worker) (hpc : s.workerPc i = .loop) (hquit : s.threadQuit = false)
    (hsem : s.sem_ = some i) (hcount : 0 < (s.sems i).count_) :
    ∃ t, (machine callback period maxLag).RunBy OneControl s t ∧
      t.workerPc i = .acquire i .out ∧ (t.sems i).stopped_ = (s.sems i).stopped_ ∧
      t.owned = s.owned ∧ t.workLock = s.workLock ∧ t.task = s.task := by
  obtain ⟨t, ht, hfacts⟩ : ∃ t, (machine callback period maxLag).exec OneControl s
      (List.replicate 5 (.worker i false none)) = some t ∧
      t.workerPc i = .acquire i .out ∧ (t.sems i).stopped_ = (s.sems i).stopped_ ∧
      t.owned = s.owned ∧ t.workLock = s.workLock ∧ t.task = s.task := by
    simp [List.replicate, Machine.exec, machine, step, workerJobStep, OneControl, State.semCall,
      semStep, SemOp.entry, State.owned, hi, hpc, hquit, hsem, hcount]
  exact ⟨t, .of_exec ht, hfacts⟩

/-- With a tick it gets to its callback while `workLock` is free. -/
theorem worker_calls {maxLag i k : ℕ} {s : State F} {f : F} (callback : Option F) (period : ℕ)
    (hi : i < s.created .worker) (hpc : s.workerPc i = .acquire k .out)
    (hquit : s.threadQuit = false) (hlock : s.workLock = none) (htask : s.task = some f) :
    ∃ t, (machine callback period maxLag).RunBy OneControl s t ∧
      t.sems = s.sems ∧ .called f ∈ t.log i := by
  obtain ⟨t, ht, hfacts⟩ : ∃ t, (machine callback period maxLag).exec OneControl s
      (List.replicate 6 (.worker i false none)) = some t ∧
      t.sems = s.sems ∧ .called f ∈ t.log i := by
    simp [List.replicate, Machine.exec, machine, step, workerJobStep, OneControl, Mutex.lock,
      hi, hpc, hquit, hlock, htask]
  exact ⟨t, .of_exec ht, hfacts⟩

/-- A first tick on a fresh semaphore with room, up to the exchange. -/
theorem timer_ticks {maxLag i : ℕ} {s : State F} (callback : Option F) (period : ℕ)
    (hi : i < s.created .timer) (hpc : s.timerPc i = .semTest true) (hsem : s.sem_ = some i)
    (hnew : s.sems i = CountingSemaphore.new (ptrdiff maxLag)) (hlag : 0 < ptrdiff maxLag) :
    ∃ t, (machine callback period maxLag).RunBy OneControl s t ∧
      (t.sems i).stopped_ = false ∧ 0 < (t.sems i).count_ ∧ t.workerPc = s.workerPc ∧
      t.owned = s.owned ∧ t.workLock = s.workLock ∧ t.task = s.task := by
  obtain ⟨t, ht, hfacts⟩ : ∃ t, (machine callback period maxLag).exec OneControl s
      (List.replicate 5 (.timer i false none false)) = some t ∧
      (t.sems i).stopped_ = false ∧ 0 < (t.sems i).count_ ∧ t.workerPc = s.workerPc ∧
      t.owned = s.owned ∧ t.workLock = s.workLock ∧ t.task = s.task := by
    simp [List.replicate, Machine.exec, machine, step, timerJobStep, OneControl, State.semCall,
      semStep, SemOp.entry, CountingSemaphore.new, State.owned, hi, hpc, hsem, hnew,
      hlag.not_ge]
  exact ⟨t, .of_exec ht, hfacts⟩

/-- Timer 0 is released once, and worker 0 reaches its callback. -/
theorem callback_runs {maxLag : ℕ} (hlag : 0 < ptrdiff maxLag) (f : F) (period : ℕ) :
    ∃ s : State F, (machine (some f) period maxLag).ReachBy OneControl s ∧
      (s.sems 0).stopped_ = false ∧ .called f ∈ s.log 0 := by
  obtain ⟨s, hs, htimer, hborn, hsem, hnew, hloop, howned, hlock, htask⟩ : ∃ s,
      (machine (some f) period maxLag).exec OneControl (State.initial (some f) period maxLag)
        runStart = some s ∧
      s.timerPc 0 = .semTest true ∧ s.created .timer = 1 ∧ s.sem_ = some 0 ∧
      s.sems 0 = CountingSemaphore.new (ptrdiff maxLag) ∧ s.workerPc 0 = .loop ∧
      (s.created .worker = 1 ∧ s.threadQuit = false) ∧ s.workLock = none ∧ s.task = some f :=
    ⟨_, rfl, rfl, rfl, rfl, rfl, rfl, ⟨rfl, rfl⟩, rfl, rfl⟩
  obtain ⟨t, ht, hstop, hcount, hpc, hsame, htlock, httask⟩ :=
    timer_ticks (some f) period (hborn ▸ Nat.one_pos) htimer hsem hnew hlag
  have hborn₁ : 0 < t.created .worker := by
    rw [show t.created = s.created from congrArg Owned.created hsame, howned.1]
    exact Nat.one_pos
  have hquit : t.threadQuit = false := (congrArg Owned.threadQuit hsame).trans howned.2
  obtain ⟨u, hu, hacquired, hustop, husame, hulock, hutask⟩ :=
    worker_acquires (some f) period hborn₁ ((congrFun hpc 0).trans hloop) hquit
      ((congrArg Owned.sem_ hsame).trans hsem) hcount
  have hborn₂ : 0 < u.created .worker := by
    rwa [show u.created = t.created from congrArg Owned.created husame]
  obtain ⟨v, hv, hsems, hcalled⟩ :=
    worker_calls (some f) period hborn₂ hacquired
      ((congrArg Owned.threadQuit husame).trans hquit) (hulock.trans (htlock.trans hlock))
      (hutask.trans (httask.trans htask))
  refine ⟨v, ⟨_, rfl, (((Machine.RunBy.of_exec hs).trans ht).trans hu).trans hv⟩, ?_, hcalled⟩
  rw [hsems]
  exact hustop.trans hstop

/-! ## Every `maxLag` -/

/-- What `maxLag` promises of the semaphore that `start` builds from it. -/
structure Capacity (maxLag : ℕ) : Prop where
  /-- Until it is stopped, a `try_release` that runs alone can be decided however far it has
  come, and it succeeds exactly when fewer than `maxLag` ticks are buffered. -/
  alone : ∀ s, (Semaphore.machine (ptrdiff maxLag)).Reach s → s.sem.stopped_ = false →
    ∀ t s', Semaphore.step s (.call t .tryRelease) = some s' →
    ∀ u, (Semaphore.machine (ptrdiff maxLag)).RunBy (Alone t) s' u →
      (∃ v, (Semaphore.machine (ptrdiff maxLag)).RunBy (Alone t) u v ∧
        (v.pc t).decided = true) ∧
      ((u.pc t).decided = true →
        (u.sem.accepted = s.sem.accepted + 1 ↔ s.sem.count_.toNat < maxLag))
  /-- The first tick of a timer is accepted, or comes after the `stop`. -/
  first : ∀ (F : Type) (callback : Option F) (period : ℕ) (s : State F),
    (machine callback period maxLag).ReachBy OneControl s →
    ∀ i k, s.timerPc i = .release true k .out →
      (s.sems k).stopped_ = true ∨ (s.sems k).accepted = 1
  /-- The primary callback can run before there is a `stop`. -/
  runs : ∀ (F : Type) (f : F) (period : ℕ), ∃ s : State F,
    (machine (some f) period maxLag).ReachBy OneControl s ∧
      (s.sems 0).stopped_ = false ∧ .called f ∈ s.log 0
  /-- The operands of the exchanges. -/
  fits : ∀ s, (Semaphore.machine (ptrdiff maxLag)).Reach s → ∀ t c,
    (s.pc t = .releaseExchange c → InPtrdiff (c + 1)) ∧
      (s.pc t = .acquireExchange c → InPtrdiff (c - 1))

theorem capacity_of_lt {maxLag : ℕ} (hpos : 1 ≤ maxLag) (hlt : maxLag < 2 ^ 63) :
    Capacity maxLag := by
  have hcast : ptrdiff maxLag = maxLag := ptrdiff_of_le (by omega)
  have hlag : 0 < ptrdiff maxLag := by omega
  refine ⟨?_, ?_, fun F f period => callback_runs hlag f period, ?_⟩
  · intro s hs hstop t s' hcall u hu
    obtain ⟨hdecides, haccepted⟩ := lone_release hstop hcall hu
    refine ⟨hdecides, ?_⟩
    intro hdecided
    obtain ⟨hcounted, hmax⟩ := counted_of_reach hs
    have hroom : s.sem.count_ < s.sem.max_count_ ↔ s.sem.count_.toNat < maxLag := by
      have hnonneg := hcounted.nonneg
      omega
    rw [haccepted hdecided, ← hroom]
    split <;> simp_all
  · intro F callback period s hs i k hpc
    have hcall := (InCall.of_reach hs).timer i
    rw [hpc] at hcall
    obtain ⟨rfl, hk, -⟩ := hcall
    have hfirst := first_of_reach hlag hs k hk
    rw [hpc] at hfirst
    exact hfirst
  · intro s hs t c
    obtain ⟨hcounted, hmax⟩ := counted_of_reach hs
    have hfits := hcounted.fits t
    refine ⟨?_, ?_⟩
    · intro hpc
      rw [hpc] at hfits
      have hroom : 0 ≤ c ∧ c < s.sem.max_count_ := hfits
      unfold InPtrdiff
      omega
    · intro hpc
      rw [hpc] at hfits
      have hpositive : 0 < c := hfits
      have hle := loaded_le hs hpc
      unfold InPtrdiff
      omega

/-- From `2 ^ 63` on a first tick is refused although nothing is buffered. -/
theorem not_capacity {maxLag : ℕ} (hle : 2 ^ 63 ≤ maxLag) (hlt : maxLag < 2 ^ 64) :
    ¬ Capacity maxLag := by
  intro hall
  have hneg := ptrdiff_neg hle hlt
  obtain ⟨s, hs, hstop, hcount, haccept, hout⟩ : ∃ s : Semaphore.State,
      (Semaphore.machine (ptrdiff maxLag)).Reach s ∧ s.sem.stopped_ = false ∧
      s.sem.count_ = 0 ∧ s.sem.accepted = 0 ∧ s.pc 0 = .out :=
    ⟨⟨.new (ptrdiff maxLag), fun _ => .out⟩, .start rfl, rfl, rfl, rfl, rfl⟩
  have hcall : Semaphore.step s (.call 0 .tryRelease) =
      some { s with pc := Function.update s.pc 0 SemOp.tryRelease.entry } := if_pos hout
  have halone := hall.alone s hs hstop 0 _ hcall
  obtain ⟨u, hu, hdecided⟩ := (halone _ .refl).1
  have haccepted := ((halone u hu).2 hdecided).mpr (by omega)
  have hrefused := (lone_release hstop hcall hu).2 hdecided
  have hfull : ¬ s.sem.count_ < s.sem.max_count_ := by
    have hmax := (counted_of_reach hs).2
    omega
  rw [if_neg hfull] at hrefused
  omega

/-- On a 64-bit platform, `maxLag` is the capacity exactly when the cast keeps it. -/
theorem capacity_iff {maxLag : ℕ} (hpos : 1 ≤ maxLag) (hlt : maxLag < 2 ^ 64) :
    Capacity maxLag ↔ maxLag < 2 ^ 63 := by
  constructor
  · intro hall
    by_contra hno
    exact not_capacity (by omega) hlt hall
  · exact capacity_of_lt hpos

/-- The capacity that `periodicWork` has by default. -/
theorem capacity_one : Capacity 1 ↔ 1 < 2 ^ 63 := capacity_iff le_rfl (by decide)

/-- The smallest `maxLag` that the cast makes negative. -/
theorem capacity_wraps :
    ¬ ∀ maxLag, 1 ≤ maxLag → maxLag < 2 ^ 64 → Capacity maxLag := by
  intro hall
  exact not_capacity (le_refl (2 ^ 63)) (by decide) (hall (2 ^ 63) (by decide) (by decide))

end PeriodicWork
