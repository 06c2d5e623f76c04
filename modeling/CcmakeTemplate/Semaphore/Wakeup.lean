import CcmakeTemplate.Semaphore.Invariants
import Mathlib.Data.Set.Subsingleton

/-!
# Lost wake-ups

`try_release` notifies one sleeper, and only when it raises the count from zero. A
unit that is released on top of another one wakes nobody, so the second of two
sleepers stays asleep beside it. With a capacity of one, or with a single acquirer,
there is no second unit or no second sleeper, and no wake-up is lost.
-/

namespace Semaphore

open Concurrency

/-! ## The machine -/

structure State where
  sem : CountingSemaphore ℕ
  pc : Table ℕ

inductive Action where
  | call (t : ℕ) (op : SemOp)
  | step (t : ℕ) (fails : Bool) (wake : Option ℕ)

def step (s : State) : Action → Option State
  | .call t op =>
      if s.pc t = .out then some { s with pc := Function.update s.pc t op.entry } else none
  | .step t fails wake =>
      (semStep t fails wake (s.pc t) s.sem).map fun (sem, pc) =>
        { sem := sem, pc := Function.update s.pc t pc }

def machine (max_count : ℤ) : Machine State Action where
  init := fun s => s = { sem := .new max_count, pc := fun _ => .out }
  step := step

/-- Only the threads in `A` call `acquire`. -/
def OnlyAcquire (A : Set ℕ) (_ : State) (a : Action) : Prop := ∀ t, a = .call t .acquire → t ∈ A

/-- Somebody sleeps in `acquire` although there is a unit or the semaphore is stopped,
and everybody else sleeps there too or is outside. -/
def Stranded (s : State) : Prop :=
  (∃ t, s.pc t = .waiting ∧ t ∈ s.sem.cv_) ∧ (0 < s.sem.count_ ∨ s.sem.stopped_ = true) ∧
    ∀ t, s.pc t = .out ∨ s.pc t = .waiting ∧ t ∈ s.sem.cv_

/-! ## Who will wake a sleeper -/

variable {τ : Type} [DecidableEq τ]

/-- The caller has found no unit and is about to sleep. -/
def SemPc.sleepy : SemPc → Bool
  | .waitStopped | .waitBlock => true
  | _ => false

/-- The caller has raised the count from zero and has not notified yet. -/
def SemPc.notifies : SemPc → Bool
  | .releaseLock | .releaseNotify => true
  | _ => false

/-- The caller has set `stopped_` and has not notified yet. -/
def SemPc.stops : SemPc → Bool
  | .stopLock | .stopNotify => true
  | _ => false

/-- The caller of `acquire` reads the count again before it sleeps. -/
def awake (s : CountingSemaphore τ) (pc : Table τ) (t : τ) : Bool :=
  match pc t with
  | .waiting => !decide (t ∈ s.cv_)
  | .acquireLock | .waitCount | .acquireUnlock | .acquireLoad | .acquireExchange _ => true
  | _ => false

/-- While there is a unit and somebody sleeps or is about to, a notification is to
come, or the only unit there can be is about to be taken. -/
def CountWatched (s : CountingSemaphore τ) (pc : Table τ) : Prop :=
  0 < s.count_ → (s.cv_ ≠ [] ∨ ∃ t, (pc t).sleepy = true) →
    (∃ t, (pc t).notifies = true) ∨ s.max_count_ = 1 ∧ ∃ t, awake s pc t = true

def StopWatched (s : CountingSemaphore τ) (pc : Table τ) : Prop :=
  s.stopped_ = true → (s.cv_ ≠ [] ∨ ∃ t, pc t = .waitBlock) → ∃ t, (pc t).stops = true

/-- A step moves one caller. What some caller was doing, some caller still does, if
the mover goes on doing it. -/
theorem exists_update {P : SemPc → Bool} {pc : Table τ} {t : τ} {pc' : SemPc}
    (ht : P (pc t) = true → P pc' = true) (h : ∃ u, P (pc u) = true) :
    ∃ u, P (Function.update pc t pc' u) = true := by
  obtain ⟨u, hu⟩ := h
  by_cases hut : u = t
  · subst hut
    exact ⟨u, by rw [Function.update_self]; exact ht hu⟩
  · exact ⟨u, by rwa [Function.update_of_ne hut]⟩

theorem exists_of_update {P : SemPc → Bool} {pc : Table τ} {t : τ} {pc' : SemPc}
    (ht : P pc' = true → P (pc t) = true) (h : ∃ u, P (Function.update pc t pc' u) = true) :
    ∃ u, P (pc u) = true := by
  obtain ⟨u, hu⟩ := h
  by_cases hut : u = t
  · subst hut
    rw [Function.update_self] at hu
    exact ⟨u, ht hu⟩
  · rw [Function.update_of_ne hut] at hu
    exact ⟨u, hu⟩

theorem awake_other {s s' : CountingSemaphore τ} {pc : Table τ} {t u : τ} {pc' : SemPc}
    (hut : u ≠ t) (hcv : u ∈ s'.cv_ → u ∈ s.cv_) (h : awake s pc u = true) :
    awake s' (Function.update pc t pc') u = true := by
  unfold awake at h ⊢
  rw [Function.update_of_ne hut]
  generalize pc u = old at h ⊢
  cases old with
  | waiting =>
      simp only [Bool.not_eq_true', decide_eq_false_iff_not] at h ⊢
      exact fun hmem => h (hcv hmem)
  | _ => exact h

omit [DecidableEq τ] in
/-- While somebody is inside the critical section nobody else is about to sleep. -/
theorem Guarded.not_sleepy {s : CountingSemaphore τ} {pc : Table τ} (hs : Guarded s pc) {t : τ}
    (ht : (pc t).inside = true) (hsleepy : (pc t).sleepy = false) :
    ¬ ∃ u, (pc u).sleepy = true := by
  rintro ⟨u, hu⟩
  have hinside : (pc u).inside = true := by
    generalize pc u = old at hu
    cases old with
    | waitStopped | waitBlock => rfl
    | _ => cases hu
  have heq := Mutex.Guards.unique hs ht hinside
  rw [heq, hu] at hsleepy
  cases hsleepy

/-- Steps that put nobody to sleep and wake nobody. -/
theorem CountWatched.keep {s s' : CountingSemaphore τ} {pc : Table τ} {t : τ} {pc' : SemPc}
    (hs : CountWatched s pc) (hmax : s'.max_count_ = s.max_count_)
    (hcount : 0 < s'.count_ → 0 < s.count_) (hcv : s'.cv_ = s.cv_)
    (hsleepy : 0 < s'.count_ → pc'.sleepy = true → (pc t).sleepy = true)
    (hnotifies : (pc t).notifies = true → pc'.notifies = true)
    (hawake : 0 < s'.count_ → s.max_count_ = 1 → awake s pc t = true →
      awake s' (Function.update pc t pc') t = true) :
    CountWatched s' (Function.update pc t pc') := by
  intro hpos hsome
  rw [hcv] at hsome
  rcases hs (hcount hpos) (hsome.imp_right (exists_of_update (hsleepy hpos))) with
    hnot | ⟨hone, u, hu⟩
  · exact .inl (exists_update hnotifies hnot)
  · refine .inr ⟨hmax.trans hone, u, ?_⟩
    by_cases hut : u = t
    · subst hut
      exact hawake hpos hone hu
    · exact awake_other hut (fun hmem => hcv ▸ hmem) hu

theorem CountWatched.go {s : CountingSemaphore τ} {pc : Table τ} {t : τ} {pc' : SemPc}
    (hs : CountWatched s pc) (h : SemGo s (pc t) pc') :
    CountWatched s (Function.update pc t pc') := by
  refine hs.keep rfl id rfl ?_ ?_ ?_
  · intro hpos hno
    generalize pc t = old at h
    cases h with
    | countZero hzero => omega
    | sleep => rfl
    | _ => cases hno
  · intro hno
    generalize pc t = old at h hno
    cases h <;> cases hno
  · intro hpos _ hawake
    unfold awake at hawake ⊢
    rw [Function.update_self]
    generalize pc t = old at h hawake
    cases h with
    | loadZero hzero | countZero hzero => omega
    | loadPositive | acquireAgain | countReady => rfl
    | _ => cases hawake

theorem CountWatched.step {t : τ} {s s' : CountingSemaphore τ} {pc : Table τ} {pc' : SemPc}
    (hs : CountWatched s pc) (hcounted : Counted s pc) (hguarded : Guarded s pc)
    (hasleep : Asleep s pc) (hfew : s.max_count_ = 1 ∨ s.cv_.length ≤ 1)
    (h : SemStep t s (pc t) s' pc') : CountWatched s' (Function.update pc t pc') := by
  have hnonneg := hcounted.nonneg
  generalize hpc : pc t = old at h
  cases h with
  | go h => exact hs.go (hpc ▸ h)
  | lock h hfree =>
      refine hs.keep rfl id rfl ?_ ?_ ?_
      · intro _ hno
        cases h <;> cases hno
      · rw [hpc]
        intro hnot
        cases h with
        | release => rfl
        | _ => cases hnot
      · intro _ _ hawake
        unfold awake at hawake ⊢
        rw [Function.update_self]
        rw [hpc] at hawake
        cases h with
        | acquire | woken => rfl
        | _ => cases hawake
  | unlock h =>
      refine hs.keep rfl id rfl ?_ ?_ ?_
      · intro _ hno
        cases h <;> cases hno
      · rw [hpc]
        intro hnot
        cases h <;> cases hnot
      · intro _ _ hawake
        unfold awake at hawake ⊢
        rw [Function.update_self]
        rw [hpc] at hawake
        cases h with
        | acquire => rfl
        | _ => cases hawake
  | @take c h =>
      have hle := hcounted.le_max
      refine hs.keep rfl ?_ rfl (fun _ hno => by cases hno) (by simp [hpc, SemPc.notifies]) ?_
      · simp only
        omega
      · -- with a capacity of one this was the only unit
        simp only
        intro hpos hone
        omega
  | @accept c h =>
      -- the release that ends a drought is the one that has to notify
      by_cases hzero : c = 0
      · intro _ _
        exact .inl ⟨t, by simp [hzero, SemPc.notifies]⟩
      · refine hs.keep rfl ?_ rfl ?_ (by simp [hpc, SemPc.notifies]) ?_
        · simp only
          omega
        · simp [hzero, SemPc.sleepy]
        · intro _ _ hawake
          simp [awake, hpc] at hawake
  | reject | store =>
      refine hs.keep rfl id rfl (fun _ hno => by cases hno) (by simp [hpc, SemPc.notifies]) ?_
      intro _ _ hawake
      simp [awake, hpc] at hawake
  | block =>
      intro hpos _
      -- it was counted as sleepy before, so somebody is on the way already
      rcases hs hpos (.inr ⟨t, by rw [hpc]; rfl⟩) with hnot | ⟨hone, u, hu⟩
      · exact .inl (exists_update (by simp [hpc, SemPc.notifies]) hnot)
      · have hut : u ≠ t := by
          rintro rfl
          simp [awake, hpc] at hu
        exact .inr ⟨hone, u,
          awake_other hut (fun hmem => (List.mem_cons.mp hmem).resolve_left hut) hu⟩
  | notifyOne h =>
      intro hpos hsome
      have hnone : ¬ ∃ u, (pc u).sleepy = true :=
        hguarded.not_sleepy (t := t) (by rw [hpc]; rfl) (by rw [hpc]; rfl)
      have hleft := hsome.resolve_right fun hno =>
        hnone (exists_of_update (by intro h; cases h) hno)
      -- sleepers are left, so more than one slept: whoever was woken sees to the only unit
      rcases CondVar.notifyOne_eq_some h with ⟨-, rfl⟩ | ⟨v, hv, rfl⟩
      · exact absurd rfl hleft
      · rcases hfew with hone | hlen
        · have hvt : v ≠ t := by
            rintro rfl
            simp [hasleep.waiting v hv] at hpc
          refine .inr ⟨hone, v, ?_⟩
          simp [awake, hvt, hasleep.waiting v hv, hasleep.nodup.not_mem_erase]
        · have hempty : s.cv_.erase v = [] := by
            have hlen' := List.length_erase_of_mem hv
            exact List.eq_nil_of_length_eq_zero (by omega)
          exact absurd hempty hleft
  | notifyAll =>
      intro _ hsome
      have hnone : ¬ ∃ u, (pc u).sleepy = true :=
        hguarded.not_sleepy (t := t) (by rw [hpc]; rfl) (by rw [hpc]; rfl)
      rcases hsome with hnil | hno
      · exact absurd rfl hnil
      · exact absurd (exists_of_update (by intro h; cases h) hno) hnone

theorem StopWatched.step {t : τ} {s s' : CountingSemaphore τ} {pc : Table τ} {pc' : SemPc}
    (hs : StopWatched s pc) (hguarded : Guarded s pc) (h : SemStep t s (pc t) s' pc') :
    StopWatched s' (Function.update pc t pc') := by
  -- a step that puts nobody to sleep leaves the stopper where it is
  have hkeep : (s'.stopped_ = true → s.stopped_ = true) →
      (s'.cv_ ≠ [] → s.cv_ ≠ []) → (pc' = .waitBlock → s'.stopped_ = false) →
      ((pc t).stops = true → pc'.stops = true) → StopWatched s' (Function.update pc t pc') := by
    intro hstopped hcv hblock hstops hstop hsome
    refine exists_update hstops (hs (hstopped hstop) (hsome.imp hcv ?_))
    rintro ⟨u, hu⟩
    by_cases hut : u = t
    · rw [hut, Function.update_self] at hu
      simp [hblock hu] at hstop
    · rw [Function.update_of_ne hut] at hu
      exact ⟨u, hu⟩
  generalize hpc : pc t = old at h
  rw [hpc] at hkeep
  cases h with
  | go h =>
      refine hkeep id id ?_ ?_
      · rintro rfl
        cases h with
        | sleep hstop => exact hstop
      · intro hno
        cases h <;> cases hno
  | lock h =>
      refine hkeep id id ?_ ?_
      · rintro rfl
        cases h
      · intro hno
        cases h with
        | stop => rfl
        | _ => cases hno
  | unlock h =>
      refine hkeep id id ?_ ?_
      · rintro rfl
        cases h
      · intro hno
        cases h <;> cases hno
  | take | reject => exact hkeep id id (fun h => by cases h) id
  | accept =>
      refine hkeep id id (fun h => ?_) (fun h => by cases h)
      split at h <;> cases h
  | block =>
      intro hstop _
      exact exists_update (by simp [hpc, SemPc.stops]) (hs hstop (.inr ⟨t, hpc⟩))
  | notifyOne h =>
      refine hkeep id ?_ (fun h => by cases h) id
      intro hne hnil
      rw [hnil] at h
      exact hne (Option.some.inj h).symm
  | store =>
      intro _ _
      exact ⟨t, by rw [Function.update_self]; rfl⟩
  | notifyAll =>
      intro _ hsome
      rcases hsome with hnil | ⟨u, hu⟩
      · exact absurd rfl hnil
      · have hut : u ≠ t := by
          rintro rfl
          simp at hu
        rw [Function.update_of_ne hut] at hu
        have hnone := hguarded.not_sleepy (t := t) (by rw [hpc]; rfl) (by rw [hpc]; rfl)
        exact absurd ⟨u, by rw [hu]; rfl⟩ hnone

theorem CountWatched.call {s : CountingSemaphore τ} {pc : Table τ} (hs : CountWatched s pc)
    {t : τ} (ht : pc t = .out) (op : SemOp) : CountWatched s (Function.update pc t op.entry) := by
  refine hs.keep rfl id rfl ?_ ?_ ?_
  · intro _ hno
    cases op <;> cases hno
  · simp [ht, SemPc.notifies]
  · intro _ _ hawake
    simp [awake, ht] at hawake

theorem StopWatched.call {s : CountingSemaphore τ} {pc : Table τ} (hs : StopWatched s pc) {t : τ}
    (ht : pc t = .out) (op : SemOp) : StopWatched s (Function.update pc t op.entry) := by
  intro hstop hsome
  refine exists_update (by simp [ht, SemPc.stops]) (hs hstop (hsome.imp_right ?_))
  rintro ⟨u, hu⟩
  by_cases hut : u = t
  · rw [hut, Function.update_self] at hu
    cases op <;> cases hu
  · rw [Function.update_of_ne hut] at hu
    exact ⟨u, hu⟩

/-! ## Every run -/

/-- A thread goes to sleep only where there is one unit at most, or one sleeper. -/
def FewSleepers (s : State) (a : Action) : Prop :=
  ∀ t fails wake, a = .step t fails wake → s.pc t = .waitBlock →
    s.sem.max_count_ = 1 ∨ s.sem.cv_ = []

structure Watched (s : State) : Prop where
  counted : Counted s.sem s.pc
  guarded : Guarded s.sem s.pc
  asleep : Asleep s.sem s.pc
  few : s.sem.max_count_ = 1 ∨ s.sem.cv_.length ≤ 1
  count : CountWatched s.sem s.pc
  stop : StopWatched s.sem s.pc

theorem Watched.not_stranded {s : State} (hs : Watched s) : ¬ Stranded s := by
  rintro ⟨⟨t, -, hmem⟩, hready, hall⟩
  have hne : s.sem.cv_ ≠ [] := List.ne_nil_of_mem hmem
  rcases hready with hpos | hstop
  · rcases hs.count hpos (.inl hne) with ⟨u, hu⟩ | ⟨-, u, hu⟩
    · rcases hall u with hpc | ⟨hpc, -⟩ <;> simp [hpc, SemPc.notifies] at hu
    · rcases hall u with hpc | ⟨hpc, hmem⟩
      · simp [awake, hpc] at hu
      · simp [awake, hpc, hmem] at hu
  · obtain ⟨u, hu⟩ := hs.stop hstop (.inl hne)
    rcases hall u with hpc | ⟨hpc, -⟩ <;> simp [hpc, SemPc.stops] at hu

theorem SemStep.few {t : τ} {s s' : CountingSemaphore τ} {pc pc' : SemPc}
    (h : SemStep t s pc s' pc') (hs : s.max_count_ = 1 ∨ s.cv_.length ≤ 1)
    (hblock : pc = .waitBlock → s.max_count_ = 1 ∨ s.cv_ = []) :
    s'.max_count_ = 1 ∨ s'.cv_.length ≤ 1 := by
  cases h with
  | block =>
      refine (hblock rfl).imp_right fun hnil => ?_
      simp [CondVar.block, hnil]
  | notifyOne h =>
      refine hs.imp_right fun hlen => ?_
      rcases CondVar.notifyOne_eq_some h with ⟨-, rfl⟩ | ⟨v, hv, rfl⟩
      · exact Nat.zero_le _
      · exact (List.erase_sublist.length_le).trans hlen
  | notifyAll => exact .inr (Nat.zero_le _)
  | _ => exact hs

theorem Watched.step {s t : State} {a : Action} (hs : Watched s) (hG : FewSleepers s a)
    (h : Semaphore.step s a = some t) : Watched t := by
  cases a with
  | call u op =>
      simp only [Semaphore.step] at h
      split at h
      · rename_i hout
        cases h
        exact ⟨hs.counted.call u op, hs.guarded.call u op, hs.asleep.call hout op, hs.few,
          hs.count.call hout op, hs.stop.call hout op⟩
      · cases h
  | step u fails wake =>
      obtain ⟨⟨sem, pc⟩, hsem, rfl⟩ := Option.map_eq_some_iff.mp h
      have hstep := semStep_cases hsem
      exact ⟨hs.counted.step hstep, hs.guarded.step hstep, hs.asleep.step hstep,
        hstep.few hs.few (hG u fails wake rfl),
        hs.count.step hs.counted hs.guarded hs.asleep hs.few hstep,
        hs.stop.step hs.guarded hstep⟩

theorem watched {max_count : ℤ} {s : State}
    (h : (machine max_count).ReachBy FewSleepers s) : Watched s := by
  refine h.invariant (P := Watched) ?_ fun s a t _ hs hG hst => hs.step hG hst
  rintro s rfl
  refine ⟨Counted.new _, ?_, ⟨?_, List.nodup_nil⟩, .inr (Nat.zero_le _), ?_, ?_⟩
  · intro t ht
    cases ht
  · intro t ht
    cases ht
  · intro hpos
    cases hpos
  · intro hstop
    cases hstop

/-! ## One acquirer -/

/-- The caller is inside `acquire`. -/
def SemPc.acquires : SemPc → Bool
  | .acquireLoad | .acquireExchange _ | .acquireStopped | .acquireLock | .waitCount | .waitStopped
  | .waitBlock | .waiting | .acquireUnlock => true
  | _ => false

theorem SemStep.acquires {t : τ} {s s' : CountingSemaphore τ} {pc pc' : SemPc}
    (h : SemStep t s pc s' pc') (hpc' : pc'.acquires = true) : pc.acquires = true := by
  cases h with
  | go h | lock h | unlock h => cases h <;> first | rfl | cases hpc'
  | accept => split at hpc' <;> cases hpc'
  | block => rfl
  | _ => cases hpc'

theorem acquirer_mem {max_count : ℤ} {A : Set ℕ} {s : State}
    (h : (machine max_count).ReachBy (OnlyAcquire A) s) :
    ∀ t, (s.pc t).acquires = true → t ∈ A := by
  refine h.invariant (P := fun s => ∀ t, (s.pc t).acquires = true → t ∈ A) ?_ ?_
  · rintro s rfl t ht
    cases ht
  · intro s a s' _ hs hG hst t ht
    cases a with
    | call u op =>
        simp only [machine, step] at hst
        split at hst
        · cases hst
          by_cases htu : t = u
          · subst htu
            cases op with
            | acquire => exact hG t rfl
            | tryRelease | stop => simp [SemOp.entry, SemPc.acquires] at ht
          · exact hs t (by simpa [htu] using ht)
        · cases hst
    | step u fails wake =>
        obtain ⟨⟨sem, pc⟩, hsem, rfl⟩ := Option.map_eq_some_iff.mp hst
        by_cases htu : t = u
        · subst htu
          exact hs t ((semStep_cases hsem).acquires (by simpa using ht))
        · exact hs t (by simpa [htu] using ht)

theorem few_of_subsingleton {max_count : ℤ} {A : Set ℕ}
    (hA : max_count = 1 ∨ A.Subsingleton) {s : State}
    (h : (machine max_count).ReachBy (OnlyAcquire A) s) :
    (machine max_count).ReachBy FewSleepers s := by
  -- the guard of a step needs the sleepers of its state, so both go along the run
  suffices hboth : (machine max_count).ReachBy FewSleepers s ∧ s.sem.max_count_ = max_count from
    hboth.1
  refine h.invariant
    (P := fun s => (machine max_count).ReachBy FewSleepers s ∧ s.sem.max_count_ = max_count) ?_ ?_
  · rintro s rfl
    exact ⟨.start rfl, rfl⟩
  · rintro s a t hreach ⟨hfew, hcap⟩ hG hst
    have hsleep : FewSleepers s a := by
      rintro u fails wake rfl hpc
      rcases hA with hone | hA
      · exact .inl (hcap.trans hone)
      · refine .inr (List.eq_nil_iff_forall_not_mem.mpr fun v hv => ?_)
        have hwaiting := (watched hfew).asleep.waiting v hv
        have hvA := acquirer_mem hreach v (by rw [hwaiting]; rfl)
        have huA := acquirer_mem hreach u (by rw [hpc]; rfl)
        rw [hA huA hvA, hwaiting] at hpc
        cases hpc
    refine ⟨hfew.next hsleep hst, ?_⟩
    cases a with
    | call u op =>
        simp only [machine, step] at hst
        split at hst
        · cases hst
          exact hcap
        · cases hst
    | step u fails wake =>
        obtain ⟨⟨sem, pc⟩, hsem, rfl⟩ := Option.map_eq_some_iff.mp hst
        exact (semStep_cases hsem).max_count.trans hcap

/-! ## Two acquirers and room for two units -/

/-- Steps of one thread under the choices of the scheduler. -/
def semRun (t : τ) : List (Option τ) → SemPc → CountingSemaphore τ →
    Option (CountingSemaphore τ × SemPc)
  | [], pc, s => some (s, pc)
  | wake :: choices, pc, s =>
      (semStep t false wake pc s).bind fun (s', pc') => semRun t choices pc' s'

theorem run_of_semRun {max_count : ℤ} {G : State → Action → Prop} {t : ℕ}
    (hG : ∀ s wake, G s (.step t false wake)) (choices : List (Option ℕ)) :
    ∀ {s : State} {sem : CountingSemaphore ℕ} {pc : SemPc},
      semRun t choices (s.pc t) s.sem = some (sem, pc) →
      (machine max_count).RunBy G s ⟨sem, Function.update s.pc t pc⟩ := by
  induction choices with
  | nil =>
      intro s sem pc h
      cases h
      rw [Function.update_eq_self]
      exact .refl
  | cons wake choices ih =>
      intro s sem pc h
      obtain ⟨⟨sem', pc'⟩, hfirst, hrest⟩ := Option.bind_eq_some_iff.mp h
      have hstep : (machine max_count).step s (.step t false wake) =
          some ⟨sem', Function.update s.pc t pc'⟩ := by
        simp only [machine, step, hfirst, Option.map_some]
      have hrest' : semRun t choices (Function.update s.pc t pc' t) sem' = some (sem, pc) := by
        rwa [Function.update_self]
      have hrun := ih (s := ⟨sem', Function.update s.pc t pc'⟩) hrest'
      rw [Function.update_idem] at hrun
      exact .head ⟨_, hG s wake, hstep⟩ hrun

theorem run_of_call {max_count : ℤ} {G : State → Action → Prop} {t : ℕ} {op : SemOp}
    (choices : List (Option ℕ)) (hcall : ∀ s, G s (.call t op))
    (hG : ∀ s wake, G s (.step t false wake)) {s : State} {sem : CountingSemaphore ℕ} {pc : SemPc}
    (hout : s.pc t = .out) (h : semRun t choices op.entry s.sem = some (sem, pc)) :
    (machine max_count).RunBy G s ⟨sem, Function.update s.pc t pc⟩ := by
  have hstep : (machine max_count).step s (.call t op) =
      some ⟨s.sem, Function.update s.pc t op.entry⟩ := by
    simp only [machine, step, if_pos hout]
  have hrest : semRun t choices (Function.update s.pc t op.entry t) s.sem = some (sem, pc) := by
    rwa [Function.update_self]
  have hrun : (machine max_count).RunBy G ⟨s.sem, Function.update s.pc t op.entry⟩
      ⟨sem, Function.update (Function.update s.pc t op.entry) t pc⟩ :=
    run_of_semRun hG choices hrest
  rw [Function.update_idem] at hrun
  exact .head ⟨_, hcall s, hstep⟩ hrun

/-- An `acquire` that finds nothing falls asleep. -/
theorem semRun_sleeps {t : τ} {sem : CountingSemaphore τ} (hstop : sem.stopped_ = false)
    (hcount : sem.count_ = 0) (hfree : sem.mtx_ = none) :
    semRun t (List.replicate 6 none) SemOp.acquire.entry sem =
      some ({ sem with cv_ := t :: sem.cv_ }, .waiting) := by
  simp [semRun, semStep, SemOp.entry, List.replicate, Mutex.lock, CondVar.block, hstop, hcount,
    hfree]

/-- `a` and `b` fall asleep, two units are released one on top of the other, the only
notification wakes `a`, and `a` takes its unit. -/
theorem stranded_reachable {max_count : ℤ} (hmax : 2 ≤ max_count) {A : Set ℕ} {a b : ℕ}
    (ha : a ∈ A) (hb : b ∈ A) (hab : a ≠ b) :
    ∃ s, (machine max_count).ReachBy (OnlyAcquire A) s ∧ Stranded s := by
  have hsteps : ∀ t s wake, OnlyAcquire A s (.step t false wake) := by
    intro t s wake u h
    cases h
  have hacquire : ∀ t ∈ A, ∀ s, OnlyAcquire A s (.call t .acquire) := by
    intro t ht s u h
    cases h
    exact ht
  have hrelease : ∀ t s, OnlyAcquire A s (.call t .tryRelease) := by
    intro t s u h
    cases h
  -- the releasing thread
  obtain ⟨r, hra, hrb⟩ : ∃ r, r ≠ a ∧ r ≠ b := ⟨a + b + 1, by omega, by omega⟩
  have hroom : ¬ max_count ≤ 0 := by omega
  have hroom' : ¬ max_count ≤ 1 := by omega
  let sem (count : ℤ) (accepted taken : ℕ) (cv : List ℕ) : CountingSemaphore ℕ :=
    { CountingSemaphore.new max_count with
      count_ := count, accepted := accepted, taken := taken, cv_ := cv }
  let pc₁ : Table ℕ := Function.update (fun _ => .out) a .waiting
  let pc₂ : Table ℕ := Function.update pc₁ b .waiting
  let pc₃ : Table ℕ := Function.update pc₂ r .out
  have hsleep : (machine max_count).RunBy (OnlyAcquire A) ⟨.new max_count, fun _ => .out⟩
      ⟨sem 0 0 0 [a], pc₁⟩ := by
    exact run_of_call (List.replicate 6 none) (hacquire a ha) (hsteps a) rfl
      (semRun_sleeps rfl rfl rfl)
  have hsleep' : (machine max_count).RunBy (OnlyAcquire A) ⟨sem 0 0 0 [a], pc₁⟩
      ⟨sem 0 0 0 [b, a], pc₂⟩ := by
    exact run_of_call (List.replicate 6 none) (hacquire b hb) (hsteps b)
      (by simp [pc₁, hab.symm]) (semRun_sleeps rfl rfl rfl)
  have hrelease₁ : (machine max_count).RunBy (OnlyAcquire A) ⟨sem 0 0 0 [b, a], pc₂⟩
      ⟨sem 1 1 0 [b], pc₃⟩ := by
    refine run_of_call [none, none, none, none, some a, none] (hrelease r) (hsteps r)
      (by simp [pc₂, pc₁, hra, hrb]) ?_
    simp [semRun, semStep, sem, CountingSemaphore.new, SemOp.entry, Mutex.lock,
      CondVar.notifyOne, hroom, hab.symm]
  have hrelease₂ : (machine max_count).RunBy (OnlyAcquire A) ⟨sem 1 1 0 [b], pc₃⟩
      ⟨sem 2 2 0 [b], pc₃⟩ := by
    have hrun : (machine max_count).RunBy (OnlyAcquire A) ⟨sem 1 1 0 [b], pc₃⟩
        ⟨sem 2 2 0 [b], Function.update pc₃ r .out⟩ := by
      refine run_of_call [none, none, none] (hrelease r) (hsteps r) (by simp [pc₃]) ?_
      simp [semRun, semStep, sem, CountingSemaphore.new, SemOp.entry, hroom']
    rwa [show Function.update pc₃ r .out = pc₃ from Function.update_idem _ _ _] at hrun
  have htake : (machine max_count).RunBy (OnlyAcquire A) ⟨sem 2 2 0 [b], pc₃⟩
      ⟨sem 1 2 1 [b], Function.update pc₃ a .out⟩ := by
    refine run_of_semRun (hsteps a) (List.replicate 5 none) ?_
    have hpc : pc₃ a = .waiting := by simp [pc₃, pc₂, pc₁, hra.symm, hab]
    simp [semRun, semStep, sem, CountingSemaphore.new, List.replicate, Mutex.lock, hpc, hab]
  refine ⟨_, ⟨_, rfl, hsleep.trans (hsleep'.trans (hrelease₁.trans (hrelease₂.trans htake)))⟩,
    ⟨b, ?_, ?_⟩, .inl ?_, ?_⟩
  · simp [pc₃, pc₂, hrb.symm, hab.symm]
  · simp [sem]
  · simp [sem]
  · intro t
    by_cases htb : t = b
    · exact .inr ⟨by simp [htb, pc₃, pc₂, hrb.symm, hab.symm], by simp [htb, sem]⟩
    · left
      by_cases hta : t = a
      · simp [hta]
      · by_cases htr : t = r
        · simp [htr, pc₃, hra]
        · simp [pc₃, pc₂, pc₁, htb, hta, htr]

/-- No wake-up is lost exactly when the capacity is one or there is a single acquirer. -/
theorem no_lost_wakeup_iff {max_count : ℤ} (hmax : 1 ≤ max_count) (A : Set ℕ) :
    (∀ s, (machine max_count).ReachBy (OnlyAcquire A) s → ¬ Stranded s) ↔
      max_count = 1 ∨ A.Subsingleton := by
  constructor
  · intro hall
    by_contra hno
    rw [not_or, Set.not_subsingleton_iff] at hno
    obtain ⟨a, ha, b, hb, hab⟩ := hno.2
    have htwo : 2 ≤ max_count := by omega
    obtain ⟨s, hs, hstr⟩ := stranded_reachable htwo ha hb hab
    exact hall s hs hstr
  · intro hA s hs
    exact (watched (few_of_subsingleton hA hs)).not_stranded

/-- The capacity that `periodicWork` has by default. -/
theorem no_lost_wakeup_one :
    (∀ s, (machine 1).ReachBy (OnlyAcquire Set.univ) s → ¬ Stranded s) ↔
      (1 : ℤ) = 1 ∨ (Set.univ : Set ℕ).Subsingleton :=
  no_lost_wakeup_iff le_rfl Set.univ

/-- A semaphore for two units and two threads that acquire. -/
theorem second_sleeper_stranded :
    ¬ ∀ max_count : ℤ, 1 ≤ max_count → ∀ s, (machine max_count).Reach s → ¬ Stranded s := by
  intro hall
  obtain ⟨s, hs, hstr⟩ := stranded_reachable (le_refl (2 : ℤ)) (Set.mem_univ 0)
    (Set.mem_univ 1) (by decide)
  exact hall 2 (by decide) s hs.reach hstr

end Semaphore
