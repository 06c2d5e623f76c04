import CcmakeTemplate.Semaphore.Wakeup

/-!
# A semaphore with one acquirer

A component may give one thread alone the right to `acquire`. Then that thread sleeps
only while there is nothing to acquire or a notification for it is to come, and once
`stop` has returned it sleeps no more. `Served` holds of such a semaphore at every
step of the component.
-/

namespace Semaphore

open Concurrency

variable {τ : Type} [DecidableEq τ]

/-! ## One method at a time -/

theorem SemPc.within_unique {pc : SemPc} {op op' : SemOp} (h : pc.within op = true)
    (h' : pc.within op' = true) (hout : pc ≠ .out) : op = op' := by
  cases op <;> cases op' <;> first | rfl | (cases pc <;> simp_all [SemPc.within])

theorem SemPc.acquires_within {pc : SemPc} (h : pc.acquires = true) :
    pc.within .acquire = true ∧ pc ≠ .out := by
  cases pc <;> simp_all [SemPc.within, SemPc.acquires]

theorem SemPc.notifies_within {pc : SemPc} (h : pc.notifies = true) :
    pc.within .tryRelease = true ∧ pc ≠ .out := by
  cases pc <;> simp_all [SemPc.within, SemPc.notifies]

theorem SemPc.stops_within {pc : SemPc} (h : pc.stops = true) :
    pc.within .stop = true ∧ pc ≠ .out := by
  cases pc <;> simp_all [SemPc.within, SemPc.stops]

/-! ## The owner of the mutex -/

abbrev Held (s : CountingSemaphore τ) (pc : Table τ) : Prop :=
  s.mtx_.Owned fun t => (pc t).inside

theorem SemStep.enters {t : τ} {s s' : CountingSemaphore τ} {pc pc' : SemPc}
    (h : SemStep t s pc s' pc') (hfree : s.mtx_ = none) (htake : s'.mtx_ = some t) :
    pc'.inside = true := by
  cases h with
  | lock h => cases h <;> rfl
  | unlock | block => cases htake
  | _ => cases hfree.symm.trans htake

theorem Held.step {t : τ} {s s' : CountingSemaphore τ} {pc : Table τ} {pc' : SemPc}
    (hs : Held s pc) (h : SemStep t s (pc t) s' pc') : Held s' (Function.update pc t pc') := by
  refine Mutex.Owned.step hs (t := t) ?_ ?_ ?_
  · simpa only [Function.update_self] using h.handover
  · intro hfree htake
    simpa only [Function.update_self] using h.enters hfree htake
  · intro u hu hheld
    simpa only [Function.update_of_ne hu] using hheld

theorem Held.call {s : CountingSemaphore τ} {pc : Table τ} (hs : Held s pc) {t : τ}
    (ht : pc t = .out) (pc' : SemPc) : Held s (Function.update pc t pc') := by
  intro u hu
  have hold : (pc u).inside = true := hs u hu
  by_cases hut : u = t
  · subst hut
    rw [ht] at hold
    cases hold
  · simpa only [Function.update_of_ne hut] using hold

/-! ## Spurious wake-ups -/

theorem Asleep.spurious {s : CountingSemaphore τ} {pc : Table τ} (hs : Asleep s pc) (t : τ) :
    Asleep { s with cv_ := s.cv_.erase t } pc :=
  ⟨fun u hu => hs.waiting u (List.mem_of_mem_erase hu), hs.nodup.erase t⟩

theorem erase_ne_nil {cv : CondVar τ} {t : τ} (h : cv.erase t ≠ []) : cv ≠ [] := by
  rintro rfl
  exact h rfl

theorem CountWatched.spurious {s : CountingSemaphore τ} {pc : Table τ} (hs : CountWatched s pc)
    (t : τ) : CountWatched { s with cv_ := s.cv_.erase t } pc := by
  intro hpos hsome
  refine (hs hpos (hsome.imp_left erase_ne_nil)).imp_right (And.imp_right ?_)
  rintro ⟨u, hu⟩
  refine ⟨u, ?_⟩
  unfold awake at hu ⊢
  generalize pc u = old at hu ⊢
  cases old with
  | waiting =>
      simp only [Bool.not_eq_true', decide_eq_false_iff_not] at hu ⊢
      exact fun hmem => hu (List.mem_of_mem_erase hmem)
  | _ => exact hu

theorem StopWatched.spurious {s : CountingSemaphore τ} {pc : Table τ} (hs : StopWatched s pc)
    (t : τ) : StopWatched { s with cv_ := s.cv_.erase t } pc :=
  fun hstop hsome => hs hstop (hsome.imp_left erase_ne_nil)

/-! ## `stop` -/

theorem SemStep.stopped_kept {t : τ} {s s' : CountingSemaphore τ} {pc pc' : SemPc}
    (h : SemStep t s pc s' pc') (hstop : s.stopped_ = true) : s'.stopped_ = true := by
  cases h with
  | store => rfl
  | _ => exact hstop

theorem SemMove.stopped_kept {s s' : CountingSemaphore τ} {pc pc' : Table τ}
    (h : SemMove s pc s' pc') (hstop : s.stopped_ = true) : s'.stopped_ = true := by
  cases h with
  | step h => exact h.stopped_kept hstop
  | _ => exact hstop

theorem SemStep.stores {t : τ} {s s' : CountingSemaphore τ} {pc' : SemPc}
    (h : SemStep t s .stopStore s' pc') : s'.stopped_ = true := by
  cases h with
  | store => rfl
  | go h | lock h | unlock h => cases h

/-! ## Every step of a component -/

/-- Only `a` acquires. -/
structure Served (a : τ) (s : CountingSemaphore τ) (pc : Table τ) : Prop where
  counted : Counted s pc
  guarded : Guarded s pc
  held : Held s pc
  asleep : Asleep s pc
  acquirer : ∀ t, (pc t).acquires = true → t = a
  count : CountWatched s pc
  stop : StopWatched s pc

variable {a : τ} {s s' : CountingSemaphore τ} {pc pc' : Table τ}

theorem Served.new (a : τ) (max_count : ℤ) :
    Served a (CountingSemaphore.new max_count) (fun _ => .out) where
  counted := .new max_count
  guarded := nofun
  held := nofun
  asleep := ⟨nofun, List.nodup_nil⟩
  acquirer := nofun
  count := nofun
  stop := nofun

theorem Served.sleeper (hs : Served a s pc) {t : τ} (ht : t ∈ s.cv_) : t = a :=
  hs.acquirer t (by rw [hs.asleep.waiting t ht]; rfl)

theorem Served.few (hs : Served a s pc) : s.cv_.length ≤ 1 := by
  have hsub : s.cv_ ⊆ [a] := fun t ht => List.mem_singleton.mpr (hs.sleeper ht)
  exact (hs.asleep.nodup.subperm hsub).length_le

theorem Served.move (hs : Served a s pc) (h : SemMove s pc s' pc')
    (hacquirer : ∀ t, (pc' t).acquires = true → t = a) : Served a s' pc' where
  counted := hs.counted.move h
  guarded := by
    cases h with
    | keep | spurious => exact hs.guarded
    | step h => exact hs.guarded.step h
    | call h op => exact hs.guarded.call _ op
  held := by
    cases h with
    | keep | spurious => exact hs.held
    | step h => exact hs.held.step h
    | call h op => exact hs.held.call h _
  asleep := by
    cases h with
    | keep => exact hs.asleep
    | spurious t => exact hs.asleep.spurious t
    | step h => exact hs.asleep.step h
    | call h op => exact hs.asleep.call h op
  acquirer := hacquirer
  count := by
    cases h with
    | keep => exact hs.count
    | spurious t => exact hs.count.spurious t
    | step h => exact hs.count.step hs.counted hs.guarded hs.asleep (.inr hs.few) h
    | call h op => exact hs.count.call h op
  stop := by
    cases h with
    | keep => exact hs.stop
    | spurious t => exact hs.stop.spurious t
    | step h => exact hs.stop.step hs.guarded h
    | call h op => exact hs.stop.call h op

/-- While the acquirer sleeps beside a unit, a notification is to come. -/
theorem Served.notified (hs : Served a s pc) (ha : a ∈ s.cv_) (hpos : 0 < s.count_) :
    ∃ t, (pc t).notifies = true := by
  rcases hs.count hpos (.inl (List.ne_nil_of_mem ha)) with hnotifies | ⟨-, t, ht⟩
  · exact hnotifies
  · have hacquires : (pc t).acquires = true := by
      unfold awake at ht
      split at ht <;> simp_all [SemPc.acquires]
    obtain rfl := hs.acquirer t hacquires
    simp [awake, hs.asleep.waiting t ha, ha] at ht

/-- Once `stopped_` is set and nobody has still to notify, nobody sleeps. -/
theorem Served.awake_after_stop (hs : Served a s pc) (hstop : s.stopped_ = true)
    (hnobody : ∀ t, (pc t).stops = false) : s.cv_ = [] := by
  by_contra hne
  obtain ⟨t, ht⟩ := hs.stop hstop (.inl hne)
  rw [hnobody t] at ht
  cases ht

end Semaphore
