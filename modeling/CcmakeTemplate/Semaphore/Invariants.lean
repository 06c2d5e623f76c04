import CcmakeTemplate.Semaphore.Model
import CcmakeTemplate.Concurrency.Threads

/-!
# A semaphore and its callers

Invariants of a semaphore together with the table of its callers' program points.
Each is kept by a step of any caller and by the start of a call, so they hold in
every component that runs its calls through `semStep`.

`Counted` is the accounting of units. `Asleep` and the mutex discipline say who is
where. `CountWatched` and `StopWatched` name the thread that will wake a sleeper.
-/

namespace Semaphore

open Concurrency

variable {τ : Type} [DecidableEq τ]

abbrev Table (τ : Type) := τ → SemPc

/-! ## Accounting -/

/-- What a caller that has loaded the count may rely on. -/
def SemPc.Fits (max_count : ℤ) : SemPc → Prop
  | .acquireExchange c => 0 < c
  | .releaseStopped c => 0 ≤ c ∧ c ≤ max 0 max_count
  | .releaseExchange c => 0 ≤ c ∧ c < max_count
  | _ => True

/-- A semaphore with a negative `max_count_` counts as one of capacity zero. -/
structure Counted (s : CountingSemaphore τ) (pc : Table τ) : Prop where
  nonneg : 0 ≤ s.count_
  le_max : s.count_ ≤ max 0 s.max_count_
  count : s.count_ = s.accepted - s.taken
  fits : ∀ t, (pc t).Fits s.max_count_
  /-- A release is refused only by a semaphore that is full or stopped. -/
  rejected : ∀ r ∈ s.rejected, r.2 = true ∨ r.1 = max 0 s.max_count_

theorem SemStep.max_count {t : τ} {s s' : CountingSemaphore τ} {pc pc' : SemPc}
    (h : SemStep t s pc s' pc') : s'.max_count_ = s.max_count_ := by
  cases h <;> rfl

omit [DecidableEq τ] in
theorem Counted.new (max_count : ℤ) :
    Counted (CountingSemaphore.new max_count : CountingSemaphore τ) fun _ => .out where
  nonneg := le_rfl
  le_max := le_max_left 0 max_count
  count := rfl
  fits := fun _ => trivial
  rejected := by simp [CountingSemaphore.new]

theorem Counted.call {s : CountingSemaphore τ} {pc : Table τ} (hs : Counted s pc) (t : τ)
    (op : SemOp) : Counted s (Function.update pc t op.entry) := by
  refine { hs with
    fits := forall_update (P := fun _ (pc : SemPc) => pc.Fits s.max_count_) hs.fits ?_ }
  cases op <;> trivial

omit [DecidableEq τ] in
theorem SemGo.fits {s : CountingSemaphore τ} {pc pc' : SemPc} (h : SemGo s pc pc')
    (hnonneg : 0 ≤ s.count_) (hmax : s.count_ ≤ max 0 s.max_count_) (hpc : pc.Fits s.max_count_) :
    pc'.Fits s.max_count_ := by
  cases h with
  | loadPositive h => exact h
  | load => exact ⟨hnonneg, hmax⟩
  | room c hstop h => exact ⟨hpc.1, h⟩
  | _ => trivial

theorem Counted.step {t : τ} {s s' : CountingSemaphore τ} {pc : Table τ} {pc' : SemPc}
    (hs : Counted s pc) (h : SemStep t s (pc t) s' pc') :
    Counted s' (Function.update pc t pc') := by
  have hown := hs.fits t
  have hfits : pc'.Fits s'.max_count_ → ∀ u, (Function.update pc t pc' u).Fits s'.max_count_ := by
    intro hpc'
    refine forall_update (P := fun _ (pc : SemPc) => pc.Fits s'.max_count_) ?_ hpc'
    rw [h.max_count]
    exact hs.fits
  generalize pc t = old at h hown
  cases h with
  | go h => exact { hs with fits := hfits (h.fits hs.nonneg hs.le_max hown) }
  | lock h =>
      refine { hs with fits := hfits ?_ }
      cases h <;> trivial
  | unlock h =>
      refine { hs with fits := hfits ?_ }
      cases h <;> trivial
  | @take c h =>
      have hpos : 0 < c := hown
      have hcount := hs.count
      have hmax := hs.le_max
      refine { hs with nonneg := ?_, le_max := ?_, count := ?_, fits := hfits trivial } <;>
        simp only [Nat.cast_add, Nat.cast_one] <;> omega
  | @accept c h =>
      have hroom : 0 ≤ c ∧ c < s.max_count_ := hown
      have hcount := hs.count
      refine { hs with nonneg := ?_, le_max := ?_, count := ?_, fits := hfits ?_ }
      · simp only
        omega
      · simp only
        omega
      · simp only [Nat.cast_add, Nat.cast_one]
        omega
      · split <;> trivial
  | @reject c h =>
      have hc : 0 ≤ c ∧ c ≤ max 0 s.max_count_ := hown
      refine { hs with fits := hfits trivial, rejected := ?_ }
      intro r hr
      rcases List.mem_append.mp hr with hr | hr
      · exact hs.rejected r hr
      · rw [List.mem_singleton.mp hr]
        exact h.imp_right fun hfull => le_antisymm hc.2 (max_le hc.1 hfull)
  | block | notifyOne | store | notifyAll => exact { hs with fits := hfits trivial }

/-! ## Inside one method -/

/-- The program points of a method, and the outside. -/
def SemPc.within : SemOp → SemPc → Bool
  | _, .out => true
  | .acquire, .acquireLoad | .acquire, .acquireExchange _ | .acquire, .acquireStopped
  | .acquire, .acquireLock | .acquire, .waitCount | .acquire, .waitStopped | .acquire, .waitBlock
  | .acquire, .waiting | .acquire, .acquireUnlock => true
  | .tryRelease, .releaseLoad | .tryRelease, .releaseStopped _
  | .tryRelease, .releaseExchange _ | .tryRelease, .releaseLock | .tryRelease, .releaseNotify
  | .tryRelease, .releaseUnlock => true
  | .stop, .stopStore | .stop, .stopLock | .stop, .stopNotify | .stop, .stopUnlock => true
  | _, _ => false

omit [DecidableEq τ] in
theorem SemGo.within {s : CountingSemaphore τ} {pc pc' : SemPc} (h : SemGo s pc pc') {op : SemOp}
    (hpc : pc.within op = true) : pc'.within op = true := by
  cases h <;> cases op <;> first | rfl | cases hpc

/-- A caller stays inside its method until it returns. -/
theorem SemStep.within {t : τ} {s s' : CountingSemaphore τ} {pc pc' : SemPc}
    (h : SemStep t s pc s' pc') {op : SemOp} (hpc : pc.within op = true) :
    pc'.within op = true := by
  cases h with
  | go h => exact h.within hpc
  | lock h | unlock h => cases h <;> cases op <;> first | rfl | cases hpc
  | @accept c h => split <;> cases op <;> first | rfl | cases hpc
  | _ => cases op <;> first | rfl | cases hpc

/-- Only `acquire` takes a unit, and it returns then. -/
theorem SemStep.taken {t : τ} {s s' : CountingSemaphore τ} {pc pc' : SemPc}
    (h : SemStep t s pc s' pc') :
    s'.taken = s.taken ∨ s'.taken = s.taken + 1 ∧ pc' = .out ∧ ∃ c, pc = .acquireExchange c := by
  cases h with
  | take => exact .inr ⟨rfl, rfl, _, rfl⟩
  | _ => exact .inl rfl

/-- An `acquire` that returns without a unit has found the semaphore stopped. -/
theorem SemStep.returns {t : τ} {s s' : CountingSemaphore τ} {pc : SemPc}
    (h : SemStep t s pc s' .out) (hpc : pc.within .acquire = true) :
    s'.taken = s.taken + 1 ∨ s'.taken = s.taken ∧ s.stopped_ = true := by
  generalize hout : SemPc.out = pc' at h
  cases h with
  | go h =>
      subst hout
      cases h with
      | acquireStops hstop => exact .inr ⟨rfl, hstop⟩
  | lock h | unlock h =>
      subst hout
      cases h <;> cases hpc
  | take => exact .inl rfl
  | accept | reject => cases hpc
  | block | notifyOne | store | notifyAll => cases hout

/-- Only `stop` sets `stopped_`. -/
theorem SemStep.stopped {t : τ} {s s' : CountingSemaphore τ} {pc pc' : SemPc}
    (h : SemStep t s pc s' pc') (hstop : s'.stopped_ = true) :
    s.stopped_ = true ∨ pc = .stopStore := by
  cases h with
  | store => exact .inr rfl
  | _ => exact .inl hstop

/-! ## Semaphores inside a component -/

/-- What a step of a component does to one of its semaphores: nothing, a step of one
caller, the start of a call, or a spurious wake-up. -/
inductive SemMove (s : CountingSemaphore τ) (pc : Table τ) :
    CountingSemaphore τ → Table τ → Prop
  | keep : SemMove s pc s pc
  | step {t : τ} {s' : CountingSemaphore τ} {pc' : SemPc} (h : SemStep t s (pc t) s' pc') :
      SemMove s pc s' (Function.update pc t pc')
  | call {t : τ} (h : pc t = .out) (op : SemOp) : SemMove s pc s (Function.update pc t op.entry)
  | spurious (t : τ) : SemMove s pc { s with cv_ := s.cv_.erase t } pc

theorem SemMove.max_count {s s' : CountingSemaphore τ} {pc pc' : Table τ}
    (h : SemMove s pc s' pc') : s'.max_count_ = s.max_count_ := by
  cases h with
  | step h => exact h.max_count
  | _ => rfl

theorem Counted.move {s s' : CountingSemaphore τ} {pc pc' : Table τ} (hs : Counted s pc)
    (h : SemMove s pc s' pc') : Counted s' pc' := by
  cases h with
  | keep => exact hs
  | step h => exact hs.step h
  | call h op => exact hs.call _ op
  | spurious t => exact { hs with }

/-! ## The mutex and the sleepers -/

/-- The caller holds `mtx_`. -/
def SemPc.inside : SemPc → Bool
  | .waitCount | .waitStopped | .waitBlock | .acquireUnlock | .releaseNotify | .releaseUnlock
  | .stopNotify | .stopUnlock => true
  | _ => false

theorem SemStep.handover {t : τ} {s s' : CountingSemaphore τ} {pc pc' : SemPc}
    (h : SemStep t s pc s' pc') :
    Mutex.Handover t s.mtx_ pc.inside s'.mtx_ pc'.inside := by
  cases h with
  | go h => exact .keep rfl (by cases h <;> rfl)
  | lock h hfree => exact .take hfree rfl
  | unlock h => exact .release (by cases h <;> rfl) (by cases h <;> rfl) rfl
  | block => exact .release rfl rfl rfl
  | @accept c h =>
      refine .keep rfl ?_
      split <;> rfl
  | take | reject | notifyOne | store | notifyAll => exact .keep rfl rfl

abbrev Guarded (s : CountingSemaphore τ) (pc : Table τ) : Prop :=
  s.mtx_.Guards fun t => (pc t).inside

theorem Guarded.step {t : τ} {s s' : CountingSemaphore τ} {pc : Table τ} {pc' : SemPc}
    (hs : Guarded s pc) (h : SemStep t s (pc t) s' pc') :
    Guarded s' (Function.update pc t pc') := by
  refine Mutex.Guards.step hs (t := t) ?_ ?_
  · simpa only [Function.update_self] using h.handover
  · intro u hu hheld
    simpa only [Function.update_of_ne hu] using hheld

theorem Guarded.call {s : CountingSemaphore τ} {pc : Table τ} (hs : Guarded s pc) (t : τ)
    (op : SemOp) : Guarded s (Function.update pc t op.entry) := by
  intro u hu
  by_cases hut : u = t
  · subst hut
    simp only [Function.update_self] at hu
    cases op <;> cases hu
  · simp only [Function.update_of_ne hut] at hu
    exact hs u hu

/-- Who is in `cv_` is inside its wait. -/
structure Asleep (s : CountingSemaphore τ) (pc : Table τ) : Prop where
  waiting : ∀ t ∈ s.cv_, pc t = .waiting
  nodup : s.cv_.Nodup

/-- Who takes a step is not in `cv_`. -/
theorem Asleep.not_mem {t : τ} {s s' : CountingSemaphore τ} {pc : Table τ} {pc' : SemPc}
    (hs : Asleep s pc) (h : SemStep t s (pc t) s' pc') : t ∉ s.cv_ := by
  intro hmem
  rw [hs.waiting t hmem] at h
  cases h with
  | go h | unlock h => cases h
  | lock h =>
      cases h with
      | woken hawake => exact hawake hmem

/-- The mover was not asleep, and whoever is asleep afterwards was so before. -/
theorem Asleep.move {t : τ} {s s' : CountingSemaphore τ} {pc : Table τ} {pc' : SemPc}
    (hs : Asleep s pc) (ht : t ∉ s.cv_) (hcv : s'.cv_.Sublist s.cv_) :
    Asleep s' (Function.update pc t pc') := by
  refine ⟨?_, hs.nodup.sublist hcv⟩
  intro u hu
  have hold := hcv.subset hu
  have hut : u ≠ t := fun heq => ht (heq ▸ hold)
  rw [Function.update_of_ne hut]
  exact hs.waiting u hold

theorem Asleep.step {t : τ} {s s' : CountingSemaphore τ} {pc : Table τ} {pc' : SemPc}
    (hs : Asleep s pc) (h : SemStep t s (pc t) s' pc') :
    Asleep s' (Function.update pc t pc') := by
  have ht := hs.not_mem h
  generalize pc t = old at h
  cases h with
  | block =>
      refine ⟨?_, List.nodup_cons.mpr ⟨ht, hs.nodup⟩⟩
      intro u hu
      by_cases hut : u = t
      · rw [hut, Function.update_self]
      · rw [Function.update_of_ne hut]
        exact hs.waiting u ((List.mem_cons.mp hu).resolve_left hut)
  | notifyOne h =>
      refine hs.move ht ?_
      rcases CondVar.notifyOne_eq_some h with ⟨-, rfl⟩ | ⟨v, -, rfl⟩
      · exact List.nil_sublist _
      · exact List.erase_sublist
  | notifyAll => exact hs.move ht (List.nil_sublist _)
  | _ => exact hs.move ht (List.Sublist.refl _)

theorem Asleep.call {s : CountingSemaphore τ} {pc : Table τ} (hs : Asleep s pc) {t : τ}
    (ht : pc t = .out) (op : SemOp) : Asleep s (Function.update pc t op.entry) := by
  refine hs.move ?_ (List.Sublist.refl _)
  intro hmem
  rw [hs.waiting t hmem] at ht
  cases ht

end Semaphore
