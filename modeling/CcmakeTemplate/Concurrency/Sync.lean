import Mathlib.Data.List.Nodup

/-!
# Mutexes, reader/writer locks and condition variables

A lock stores its owner. Taking it is a step that is enabled only while it is
free, so a thread that has to wait is a thread whose step is not enabled. A
condition variable stores the threads blocked in it: a notification with nobody
blocked has no effect, and a notified thread still has to take the mutex again.
-/

namespace Concurrency

variable {τ : Type*}

/-- A mutex: the thread that owns it, if any. -/
abbrev Mutex (τ : Type*) := Option τ

namespace Mutex

def lock (m : Mutex τ) (t : τ) : Option (Mutex τ) :=
  match m with
  | none => some (some t)
  | some _ => none

theorem lock_eq_some {m m' : Mutex τ} {t : τ} :
    m.lock t = some m' ↔ m = none ∧ m' = some t := by
  cases m with
  | none => simp [lock, eq_comm]
  | some u => simp [lock]

/-- The threads that `holds` finds inside the critical section own the mutex. -/
def Guards (m : Mutex τ) (holds : τ → Bool) : Prop := ∀ t, holds t = true → m = some t

/-- What one thread's step can do to the mutex, `held` and `held'` telling whether
the thread is inside the critical section before and after. -/
inductive Handover (t : τ) (m : Mutex τ) (held : Bool) (m' : Mutex τ) (held' : Bool) : Prop
  | keep (hm : m' = m) (hheld : held' = held)
  | take (hfree : m = none) (hm : m' = some t)
  | release (hheld : held = true) (hheld' : held' = false) (hm : m' = none)

variable {m m' : Mutex τ} {holds holds' : τ → Bool}

/-- Inside the critical section one is alone. -/
theorem Guards.unique (h : m.Guards holds) {t u : τ} (ht : holds t = true)
    (hu : holds u = true) : t = u :=
  Option.some.inj ((h t ht).symm.trans (h u hu))

theorem Guards.step (h : m.Guards holds) {t : τ}
    (hstep : Handover t m (holds t) m' (holds' t))
    (hothers : ∀ u, u ≠ t → holds' u = true → holds u = true) : m'.Guards holds' := by
  intro u hu
  by_cases hut : u = t
  · subst hut
    cases hstep with
    | keep hm hheld => exact hm.trans (h u (hheld ▸ hu))
    | take hfree hm => exact hm
    | release hheld hheld' hm => simp [hu] at hheld'
  · have hold := hothers u hut hu
    cases hstep with
    | keep hm hheld => exact hm.trans (h u hold)
    | take hfree hm => simp [h u hold] at hfree
    | release hheld hheld' hm => exact absurd (h.unique hold hheld) hut

/-- The thread that owns the mutex is inside the critical section. -/
def Owned (m : Mutex τ) (holds : τ → Bool) : Prop := ∀ t, m = some t → holds t = true

theorem Owned.step (h : m.Owned holds) {t : τ}
    (hstep : Handover t m (holds t) m' (holds' t))
    (htake : m = none → m' = some t → holds' t = true)
    (hothers : ∀ u, u ≠ t → holds u = true → holds' u = true) : m'.Owned holds' := by
  intro u hu
  cases hstep with
  | keep hm hheld =>
      have hold := h u (hm ▸ hu)
      by_cases hut : u = t
      · subst hut
        exact hheld.trans hold
      · exact hothers u hut hold
  | take hfree hm =>
      obtain rfl : t = u := Option.some.inj (hm.symm.trans hu)
      exact htake hfree hm
  | release hheld hheld' hm => cases hm.symm.trans hu

/-- The owner of the mutex is the thread inside the critical section, and there is no
other thread inside. -/
def Exact (m : Mutex τ) (holds : τ → Bool) : Prop := ∀ t, m = some t ↔ holds t = true

theorem Exact.step (h : m.Exact holds) {t : τ} (hstep : Handover t m (holds t) m' (holds' t))
    (htake : m = none → m' = some t → holds' t = true)
    (hothers : ∀ u, u ≠ t → holds' u = holds u) : m'.Exact holds' := by
  have hguards : m.Guards holds := fun u => (h u).mpr
  have howned : m.Owned holds := fun u => (h u).mp
  intro u
  refine ⟨howned.step hstep htake (fun v hv hheld => (hothers v hv).trans hheld) u, ?_⟩
  exact hguards.step hstep (fun v hv hheld => (hothers v hv).symm.trans hheld) u

theorem Exact.unique (h : m.Exact holds) {t u : τ} (ht : holds t = true) (hu : holds u = true) :
    t = u :=
  Option.some.inj (((h t).mpr ht).symm.trans ((h u).mpr hu))

end Mutex

/-- A reader/writer lock: the exclusive owner and the shared owners. -/
structure SharedMutex (τ : Type*) where
  writer : Option τ := none
  readers : List τ := []
deriving DecidableEq

namespace SharedMutex

/-- Exclusive lock: nobody else may hold the lock in either mode. -/
def lock (m : SharedMutex τ) (t : τ) : Option (SharedMutex τ) :=
  match m.writer, m.readers with
  | none, [] => some { m with writer := some t }
  | _, _ => none

def unlock (m : SharedMutex τ) : SharedMutex τ := { m with writer := none }

/-- Shared lock: only an exclusive owner stands in the way. -/
def lockShared (m : SharedMutex τ) (t : τ) : Option (SharedMutex τ) :=
  match m.writer with
  | none => some { m with readers := t :: m.readers }
  | some _ => none

def unlockShared [DecidableEq τ] (m : SharedMutex τ) (t : τ) : SharedMutex τ :=
  { m with readers := m.readers.erase t }

theorem lock_cases {m m' : SharedMutex τ} {t : τ} (h : m.lock t = some m') :
    m.writer = none ∧ m.readers = [] ∧ m' = { m with writer := some t } := by
  unfold lock at h
  split at h
  · rename_i hw hr
    exact ⟨hw, hr, (Option.some.inj h).symm⟩
  · cases h

theorem lockShared_cases {m m' : SharedMutex τ} {t : τ} (h : m.lockShared t = some m') :
    m.writer = none ∧ m' = { m with readers := t :: m.readers } := by
  unfold lockShared at h
  split at h
  · rename_i hw
    exact ⟨hw, (Option.some.inj h).symm⟩
  · cases h

theorem lockShared_eq_none {m : SharedMutex τ} {t : τ} :
    m.lockShared t = none ↔ m.writer ≠ none := by
  unfold lockShared
  split <;> simp_all

end SharedMutex

/-- A condition variable: the threads blocked in it. -/
abbrev CondVar (τ : Type*) := List τ

namespace CondVar

def block (cv : CondVar τ) (t : τ) : CondVar τ := t :: cv

/-- `notify_one` unblocks the sleeper that the scheduler picks; with nobody
blocked it is lost. -/
def notifyOne [DecidableEq τ] (cv : CondVar τ) (wake : Option τ) : Option (CondVar τ) :=
  match cv, wake with
  | [], _ => some []
  | cv, some t => if t ∈ cv then some (cv.erase t) else none
  | _, none => none

variable [DecidableEq τ]

theorem notifyOne_eq_some {cv cv' : CondVar τ} {wake : Option τ}
    (h : cv.notifyOne wake = some cv') :
    (cv = [] ∧ cv' = []) ∨ ∃ t ∈ cv, cv' = cv.erase t := by
  cases cv with
  | nil =>
      cases h
      exact .inl ⟨rfl, rfl⟩
  | cons u us =>
      cases wake with
      | none => cases h
      | some t =>
          simp only [notifyOne] at h
          split at h
          · rename_i hmem
            exact .inr ⟨t, hmem, (Option.some.inj h).symm⟩
          · cases h

end CondVar

end Concurrency
