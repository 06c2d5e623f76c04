import Mathlib.Logic.Relation
import Mathlib.Order.Basic

/-!
# Threads that wait for each other

A thread asks for resources, and a thread stands in the way of those who ask for
what it has. A resource need not be a lock: a reader/writer lock is one resource
for its readers and one for its writers, and the end of a thread is a resource
that stands in the way of whoever joins it.

When every thread stands in the way only of resources of a lower level than those
it asks for, no threads wait for each other in a cycle.
-/

namespace Concurrency

variable {τ : Type*} {ρ : Type*} {ℓ : Type*}

/-- `t` asks for something that `u` stands in the way of. -/
def WaitsFor (asks blocks : τ → ρ → Prop) (t u : τ) : Prop := ∃ r, asks t r ∧ blocks u r

/-- No thread waits, through any number of others, for itself. -/
def Acyclic (waits : τ → τ → Prop) : Prop := ∀ t, ¬ Relation.TransGen waits t t

section

variable [Preorder ℓ] {asks blocks : τ → ρ → Prop} {level : ρ → ℓ}

/-- Along a chain of waiting threads the levels of what they ask for rise. -/
theorem levels_rise (h : ∀ t r r', asks t r → blocks t r' → level r' < level r) {t u : τ}
    (hchain : Relation.TransGen (WaitsFor asks blocks) t u) :
    ∃ r r', asks t r ∧ blocks u r' ∧ level r ≤ level r' := by
  induction hchain with
  | single hlast =>
      obtain ⟨r, hask, hblock⟩ := hlast
      exact ⟨r, r, hask, hblock, le_rfl⟩
  | tail hchain hlast ih =>
      obtain ⟨r, r', hask, hblock, hle⟩ := ih
      obtain ⟨r'', hask', hblock'⟩ := hlast
      exact ⟨r, r'', hask, hblock', hle.trans (h _ _ _ hask' hblock).le⟩

theorem Acyclic.of_levels (level : ρ → ℓ)
    (h : ∀ t r r', asks t r → blocks t r' → level r' < level r) :
    Acyclic (WaitsFor asks blocks) := by
  intro t hcycle
  obtain ⟨r, r', hask, hblock, hle⟩ := levels_rise h hcycle
  exact (h t r r' hask hblock).not_ge hle

end

end Concurrency
