import CcmakeTemplate.Semaphore.Wakeup

/-!
# A `try_release` that runs alone

Nobody interferes, so only spurious failures of its exchange send it round its loop. What
it decides can be read off the count that it found.
-/

namespace Semaphore

open Concurrency

/-- Only thread `t` goes on. -/
def Alone (t : ℕ) (_ : State) : Action → Prop
  | .step u _ _ => u = t
  | .call _ _ => False

/-- The call of `try_release` has returned, or all that is left of it is the notification. -/
def SemPc.decided : SemPc → Bool
  | .out | .releaseLock | .releaseNotify | .releaseUnlock => true
  | _ => false

variable {τ : Type} [DecidableEq τ]

/-- What a lone `try_release` that found the semaphore as `sem` has made of it. -/
def Verdict (sem s : CountingSemaphore τ) : SemPc → Prop
  | .releaseLoad => s = sem
  | .releaseStopped c => s = sem ∧ c = sem.count_
  | .releaseExchange c => s = sem ∧ c = sem.count_ ∧ c < sem.max_count_
  | .out | .releaseLock | .releaseNotify | .releaseUnlock =>
      s.accepted = sem.accepted + (if sem.count_ < sem.max_count_ then 1 else 0)
  | _ => False

theorem Verdict.step {t : τ} {sem s s' : CountingSemaphore τ} {pc pc' : SemPc}
    (hs : Verdict sem s pc) (hstop : sem.stopped_ = false) (h : SemStep t s pc s' pc') :
    Verdict sem s' pc' := by
  cases h with
  | go h =>
      cases h with
      | load => exact ⟨hs, congrArg CountingSemaphore.count_ hs⟩
      | room c hstop h =>
          obtain ⟨rfl, hc⟩ := hs
          exact ⟨rfl, hc, h⟩
      | releaseAgain c => exact hs.1
      | _ => exact hs.elim
  | lock h =>
      cases h with
      | release => exact hs
      | _ => exact hs.elim
  | unlock h =>
      cases h with
      | release => exact hs
      | _ => exact hs.elim
  | accept h =>
      obtain ⟨rfl, rfl, hroom⟩ := hs
      split <;> simp only [Verdict, if_pos hroom]
  | reject h =>
      obtain ⟨rfl, rfl⟩ := hs
      have hfull := h.resolve_left (by simp [hstop])
      simp only [Verdict, if_neg (not_lt.mpr hfull), Nat.add_zero]
  | notifyOne => exact hs
  | _ => exact hs.elim

/-! ## The first `try_release` -/

/-- A step outside of `try_release` accepts nothing, and a semaphore stays stopped. -/
theorem SemStep.keeps {u : τ} {s s' : CountingSemaphore τ} {pc pc' : SemPc}
    (h : SemStep u s pc s' pc') :
    (s'.accepted = s.accepted ∨ ∃ c, pc = .releaseExchange c ∧ pc' ≠ pc) ∧
      (s.stopped_ = true → s'.stopped_ = true) := by
  cases h with
  | @accept c h =>
      refine ⟨.inr ⟨c, rfl, ?_⟩, id⟩
      split <;> simp
  | store => exact ⟨.inl rfl, fun _ => rfl⟩
  | _ => exact ⟨.inl rfl, id⟩

/-- How far the first `try_release` of a timer is, while no other is made. -/
def SemPc.First (sem : CountingSemaphore τ) : SemPc → Prop
  | .releaseLoad => sem.accepted = 0
  | .releaseStopped c | .releaseExchange c => sem.accepted = 0 ∧ c = 0
  | .releaseLock | .releaseNotify | .releaseUnlock => sem.accepted = 1
  | _ => sem.stopped_ = true ∨ sem.accepted = 1

omit [DecidableEq τ] in
theorem SemPc.First.mono {sem sem' : CountingSemaphore τ} {pc : SemPc}
    (h : pc.First sem) (haccepted : sem'.accepted = sem.accepted)
    (hstop : sem.stopped_ = true → sem'.stopped_ = true) : pc.First sem' := by
  cases pc with
  | releaseLoad | releaseLock | releaseNotify | releaseUnlock => exact haccepted.trans h
  | releaseStopped c | releaseExchange c => exact ⟨haccepted.trans h.1, h.2⟩
  | _ => exact h.imp hstop haccepted.trans

/-- A semaphore that has accepted nothing is empty, so a first tick finds room. -/
theorem SemPc.First.step {u : τ} {s s' : CountingSemaphore τ} {pc pc' : SemPc}
    (hs : pc.First s) (hempty : s.accepted = 0 → s.count_ = 0) (hroom : 0 < s.max_count_)
    (hwithin : pc.within .tryRelease = true) (h : SemStep u s pc s' pc') :
    pc'.First s' := by
  cases h with
  | go h =>
      cases h with
      | load => exact ⟨hs, hempty hs⟩
      | room c => exact hs
      | releaseAgain c => exact hs.1
      | _ => cases hwithin
  | lock h =>
      cases h with
      | release => exact hs
      | _ => cases hwithin
  | unlock h =>
      cases h with
      | release => exact .inr hs
      | _ => cases hwithin
  | accept h =>
      have hone : s.accepted + 1 = 1 := congrArg (· + 1) hs.1
      split
      · exact hone
      · exact .inr hone
  | reject h =>
      obtain ⟨-, rfl⟩ := hs
      exact .inl (h.resolve_right (not_le.mpr hroom))
  | notifyOne => exact hs
  | _ => cases hwithin

/-! ## Runs of one thread -/

section

variable {max_count : ℤ} {t : ℕ}

theorem Verdict.run {sem : CountingSemaphore ℕ} {s u : State} (hstop : sem.stopped_ = false)
    (hs : Verdict sem s.sem (s.pc t)) (h : (machine max_count).RunBy (Alone t) s u) :
    Verdict sem u.sem (u.pc t) := by
  refine h.invariant (P := fun u => Verdict sem u.sem (u.pc t)) hs ?_
  intro u a v hu hG hst
  cases a with
  | call => exact hG.elim
  | step w fails wake =>
      obtain rfl : w = t := hG
      obtain ⟨⟨sem', pc'⟩, hsem, rfl⟩ := Option.map_eq_some_iff.mp hst
      simpa only [Function.update_self] using hu.step hstop (semStep_cases hsem)

theorem lone_step {s : State} {sem : CountingSemaphore ℕ} {pc : SemPc}
    (h : semStep t false none (s.pc t) s.sem = some (sem, pc)) :
    (machine max_count).RunBy (Alone t) s ⟨sem, Function.update s.pc t pc⟩ :=
  .single ⟨.step t false none, rfl, by simp only [machine, step, h, Option.map_some]⟩

/-- Without a spurious failure the call is decided after three steps at most. -/
theorem Verdict.decides {sem : CountingSemaphore ℕ} {s : State} (hstop : sem.stopped_ = false)
    (hs : Verdict sem s.sem (s.pc t)) :
    ∃ u, (machine max_count).RunBy (Alone t) s u ∧ (u.pc t).decided = true := by
  -- from each point of the loop, nearest to its end first
  have hexchange : ∀ {s : State}, s.pc t = .releaseExchange s.sem.count_ →
      ∃ u, (machine max_count).RunBy (Alone t) s u ∧ (u.pc t).decided = true := by
    intro s hpc
    refine ⟨_, lone_step (by rw [hpc]; exact if_pos ⟨rfl, rfl⟩), ?_⟩
    simp only [Function.update_self]
    split <;> rfl
  have hstopped : ∀ {s : State}, s.sem.stopped_ = false → s.pc t = .releaseStopped s.sem.count_ →
      ∃ u, (machine max_count).RunBy (Alone t) s u ∧ (u.pc t).decided = true := by
    intro s hstop hpc
    by_cases hfull : s.sem.count_ ≥ s.sem.max_count_
    · refine ⟨_, lone_step (by rw [hpc]; exact if_pos (.inr hfull)), ?_⟩
      simp only [Function.update_self]
      rfl
    · have hroom : ¬ (s.sem.stopped_ = true ∨ s.sem.count_ ≥ s.sem.max_count_) := by
        simpa [hstop] using hfull
      obtain ⟨u, hu, hdecided⟩ := hexchange
        (s := ⟨s.sem, Function.update s.pc t (.releaseExchange s.sem.count_)⟩)
        (Function.update_self ..)
      exact ⟨u, (lone_step (by rw [hpc]; exact if_neg hroom)).trans hu, hdecided⟩
  generalize hpc : s.pc t = pc at hs
  cases pc with
  | out | releaseLock | releaseNotify | releaseUnlock => exact ⟨s, .refl, by rw [hpc]; rfl⟩
  | releaseLoad =>
      obtain rfl := hs
      obtain ⟨u, hu, hdecided⟩ := hstopped
        (s := ⟨s.sem, Function.update s.pc t (.releaseStopped s.sem.count_)⟩) hstop
        (Function.update_self ..)
      exact ⟨u, (lone_step (by rw [hpc]; rfl)).trans hu, hdecided⟩
  | releaseStopped c =>
      obtain ⟨rfl, rfl⟩ := hs
      exact hstopped hstop hpc
  | releaseExchange c =>
      obtain ⟨rfl, rfl, -⟩ := hs
      exact hexchange hpc
  | _ => exact hs.elim

/-- A lone `try_release` can be decided however far it has come, and it has accepted its
unit exactly when it found room. -/
theorem lone_release {s s' u : State} (hstop : s.sem.stopped_ = false)
    (hcall : step s (.call t .tryRelease) = some s')
    (h : (machine max_count).RunBy (Alone t) s' u) :
    (∃ v, (machine max_count).RunBy (Alone t) u v ∧ (v.pc t).decided = true) ∧
      ((u.pc t).decided = true → u.sem.accepted =
        s.sem.accepted + if s.sem.count_ < s.sem.max_count_ then 1 else 0) := by
  have hentry : Verdict s.sem s'.sem (s'.pc t) := by
    simp only [step] at hcall
    split at hcall
    · cases hcall
      simp only [Function.update_self]
      rfl
    · cases hcall
  have hverdict := hentry.run hstop h
  refine ⟨hverdict.decides hstop, ?_⟩
  intro hdecided
  generalize u.pc t = pc at hverdict hdecided
  cases pc with
  | out | releaseLock | releaseNotify | releaseUnlock => exact hverdict
  | _ => cases hdecided

/-! ## Every history -/

theorem counted_of_reach {s : State} (h : (machine max_count).Reach s) :
    Counted s.sem s.pc ∧ s.sem.max_count_ = max_count := by
  refine h.invariant (P := fun s => Counted s.sem s.pc ∧ s.sem.max_count_ = max_count) ?_ ?_
  · rintro s rfl
    exact ⟨Counted.new _, rfl⟩
  · rintro s a u - ⟨hs, hmax⟩ - hst
    cases a with
    | call w op =>
        simp only [machine, step] at hst
        split at hst
        · cases hst
          exact ⟨hs.call w op, hmax⟩
        · cases hst
    | step w fails wake =>
        obtain ⟨⟨sem, pc⟩, hsem, rfl⟩ := Option.map_eq_some_iff.mp hst
        have hstep := semStep_cases hsem
        exact ⟨hs.step hstep, hstep.max_count.trans hmax⟩

omit max_count t in
theorem SemStep.loads {u : τ} {s s' : CountingSemaphore τ} {pc : SemPc} {c : ℤ}
    (h : SemStep u s pc s' (.acquireExchange c)) : c = s.count_ := by
  generalize hpc : SemPc.acquireExchange c = pc' at h
  cases h with
  | go h =>
      cases h with
      | loadPositive => exact SemPc.acquireExchange.inj hpc
      | _ => cases hpc
  | lock h | unlock h => cases h <;> cases hpc
  | accept => split at hpc <;> cases hpc
  | _ => cases hpc

theorem loaded_le {s : State} (h : (machine max_count).Reach s) {u : ℕ} {c : ℤ}
    (hpc : s.pc u = .acquireExchange c) : c ≤ max 0 max_count := by
  refine h.invariant (P := fun s => ∀ u c, s.pc u = .acquireExchange c → c ≤ max 0 max_count)
    ?_ ?_ u c hpc
  · rintro s rfl u c hpc
    cases hpc
  · intro s a s' hreach hs hG hst u c hpc
    obtain ⟨hcounted, hmax⟩ := counted_of_reach hreach
    cases a with
    | call w op =>
        simp only [machine, step] at hst
        split at hst
        · cases hst
          by_cases huw : u = w
          · subst huw
            simp only [Function.update_self] at hpc
            cases op <;> cases hpc
          · exact hs u c (by simpa [huw] using hpc)
        · cases hst
    | step w fails wake =>
        obtain ⟨⟨sem, pc⟩, hsem, rfl⟩ := Option.map_eq_some_iff.mp hst
        by_cases huw : u = w
        · subst huw
          simp only [Function.update_self] at hpc
          subst hpc
          rw [(semStep_cases hsem).loads, ← hmax]
          exact hcounted.le_max
        · exact hs u c (by simpa [huw] using hpc)

end

end Semaphore
