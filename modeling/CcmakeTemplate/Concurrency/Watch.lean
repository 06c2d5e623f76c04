import CcmakeTemplate.Concurrency.Sync
import Mathlib.Data.List.Basic

/-!
# Sleepers that are watched over

Threads sleep in a condition variable until there is something for them, and `n` things are
there. No sleeper is forgotten as long as at least `n` threads attend to them: each of these
will take one of the `n` things, or will notify one sleeper.
-/

namespace Concurrency

variable {τ : Type*}

/-- At least `n` threads satisfy `P`. -/
def AtLeast (n : ℕ) (P : τ → Prop) : Prop := ∃ l : List τ, l.Nodup ∧ (∀ t ∈ l, P t) ∧ n ≤ l.length

section

variable {n m : ℕ} {P Q : τ → Prop} {t u : τ}

theorem AtLeast.zero (P : τ → Prop) : AtLeast 0 P :=
  ⟨[], List.nodup_nil, by simp, Nat.zero_le _⟩

theorem AtLeast.mono (h : AtLeast n P) (hle : m ≤ n) (hPQ : ∀ t, P t → Q t) : AtLeast m Q := by
  obtain ⟨l, hnodup, hl, hn⟩ := h
  exact ⟨l, hnodup, fun t ht => hPQ t (hl t ht), Nat.le_trans hle hn⟩

/-- One more thread. -/
theorem AtLeast.gain (h : AtLeast n P) (ht : ¬ P t) (ht' : Q t) (hPQ : ∀ u, P u → Q u) :
    AtLeast (n + 1) Q := by
  obtain ⟨l, hnodup, hl, hn⟩ := h
  refine ⟨t :: l, List.nodup_cons.mpr ⟨fun hmem => ht (hl t hmem), hnodup⟩, ?_, ?_⟩
  · intro u hu
    rcases List.mem_cons.mp hu with rfl | hu
    · exact ht'
    · exact hPQ u (hl u hu)
  · rw [List.length_cons]
    omega

/-- All but one thread. -/
theorem AtLeast.lose (h : AtLeast n P) (t : τ) : AtLeast (n - 1) fun u => P u ∧ u ≠ t := by
  classical
  obtain ⟨l, hnodup, hl, hn⟩ := h
  refine ⟨l.erase t, hnodup.erase t, ?_, ?_⟩
  · intro u hu
    have hmem := hnodup.mem_erase_iff.mp hu
    exact ⟨hl u hmem.2, hmem.1⟩
  · have hlen := List.le_length_erase (l := l) (a := t)
    omega

theorem AtLeast.exists (h : AtLeast n P) (hn : n ≠ 0) : ∃ t, P t := by
  obtain ⟨l, -, hl, hle⟩ := h
  cases l with
  | nil =>
      rw [List.length_nil] at hle
      omega
  | cons t l => exact ⟨t, hl t List.mem_cons_self⟩

end

/-- Nobody sleeps in `cv`, or at least `n` threads attend to the sleepers. -/
def Watched (cv : CondVar τ) (n : ℕ) (attends : τ → Prop) : Prop := cv = [] ∨ AtLeast n attends

section

variable {cv cv' : CondVar τ} {n n' : ℕ} {P P' : τ → Prop} {t : τ}

theorem Watched.nothing (cv : CondVar τ) (P : τ → Prop) : Watched cv 0 P := .inr (.zero P)

theorem Watched.keep (h : Watched cv n P) (hcv : cv = [] → cv' = []) (hle : n' ≤ n)
    (hP : ∀ u, P u → P' u) : Watched cv' n' P' :=
  h.imp hcv fun hat => hat.mono hle hP

/-- There is one thing more, and one thread more that will notify. -/
theorem Watched.gain (h : Watched cv n P) (hcv : cv = [] → cv' = []) (hle : n' ≤ n + 1)
    (ht : ¬ P t) (ht' : P' t) (hP : ∀ u, P u → P' u) : Watched cv' n' P' :=
  h.imp hcv fun hat => (hat.gain ht ht' hP).mono hle fun _ hu => hu

/-- The thread has taken one thing. -/
theorem Watched.take (h : Watched cv n P) (hcv : cv = [] → cv' = []) (hle : n' ≤ n - 1)
    (hP : ∀ u, u ≠ t → P u → P' u) : Watched cv' n' P' :=
  h.imp hcv fun hat => (hat.lose t).mono hle fun u hu => hP u hu.2 hu.1

/-- The thread notifies, and the sleeper who wakes up attends in its place. -/
theorem Watched.notify [DecidableEq τ] (h : Watched cv n P) {wake : Option τ}
    (hcv : cv.notifyOne wake = some cv') (hnodup : cv.Nodup) (hasleep : ∀ u ∈ cv, ¬ P u)
    (hawake : ∀ u ∈ cv, u ∉ cv' → P' u) (hP : ∀ u, u ≠ t → P u → P' u) :
    Watched cv' n P' := by
  rcases CondVar.notifyOne_eq_some hcv with ⟨rfl, rfl⟩ | ⟨u, hu, rfl⟩
  · exact .inl rfl
  · rcases h with rfl | hat
    · cases hu
    · refine .inr (((hat.lose t).gain (t := u) (Q := P') ?_ ?_ ?_).mono (by omega) fun _ hv => hv)
      · exact fun hPu => hasleep u hu hPu.1
      · exact hawake u hu hnodup.not_mem_erase
      · exact fun v hv => hP v hv.2 hv.1

end

end Concurrency
