import Mathlib.Algebra.BigOperators.Group.Finset.Piecewise
import Mathlib.Algebra.Order.Group.Multiset
import Mathlib.Tactic.Abel

/-!
# Tables of threads

A table assigns each thread its program point, and a step updates one entry.

For threads that hold at most one item each, `inHands n hand` is the multiset of
the items held by the first `n` threads. Taking an item adds it, letting go of
it removes it, and a new thread with empty hands changes nothing.
-/

namespace Concurrency

variable {ρ : Type*}

/-- What holds of every entry still does when the updated entry satisfies it. -/
theorem forall_update {ι : Type*} [DecidableEq ι] {P : ι → ρ → Prop} {table : ι → ρ} {i : ι}
    {x : ρ} (h : ∀ j, P j (table j)) (hx : P i x) : ∀ j, P j (Function.update table i x j) :=
  (Function.forall_update_iff table P).2 ⟨hx, fun j _ => h j⟩

def inHands (n : ℕ) (hand : ℕ → Option ρ) : Multiset ρ :=
  ∑ i ∈ Finset.range n, ((hand i).toList : Multiset ρ)

theorem inHands_update {n i : ℕ} (hi : i < n) (hand : ℕ → Option ρ) (x : Option ρ) :
    inHands n (Function.update hand i x) + ((hand i).toList : Multiset ρ) =
      inHands n hand + (x.toList : Multiset ρ) := by
  have hmem : i ∈ Finset.range n := Finset.mem_range.mpr hi
  have hrest : ∑ j ∈ (Finset.range n).erase i,
      ((Function.update hand i x j).toList : Multiset ρ) =
      ∑ j ∈ (Finset.range n).erase i, ((hand j).toList : Multiset ρ) := by
    refine Finset.sum_congr rfl fun j hj => ?_
    rw [Function.update_of_ne (Finset.ne_of_mem_erase hj)]
  unfold inHands
  rw [← Finset.add_sum_erase _ _ hmem, ← Finset.add_sum_erase _ _ hmem, hrest,
    Function.update_self]
  abel

theorem inHands_take {n i : ℕ} (hi : i < n) {hand : ℕ → Option ρ} (hfree : hand i = none)
    (x : ρ) : inHands n (Function.update hand i (some x)) = {x} + inHands n hand := by
  have h := inHands_update hi hand (some x)
  rw [hfree] at h
  simpa [add_comm] using h

theorem inHands_release {n i : ℕ} (hi : i < n) {hand : ℕ → Option ρ} {x : ρ}
    (hheld : hand i = some x) :
    {x} + inHands n (Function.update hand i none) = inHands n hand := by
  have h := inHands_update hi hand none
  rw [hheld] at h
  simpa [add_comm] using h

/-- A thread that joins with empty hands. -/
theorem inHands_join (n : ℕ) (hand : ℕ → Option ρ) :
    inHands (n + 1) (Function.update hand n none) = inHands n hand := by
  unfold inHands
  rw [Finset.sum_range_succ, Function.update_self]
  have hrest : ∑ j ∈ Finset.range n, ((Function.update hand n none j).toList : Multiset ρ) =
      ∑ j ∈ Finset.range n, ((hand j).toList : Multiset ρ) := by
    refine Finset.sum_congr rfl fun j hj => ?_
    rw [Function.update_of_ne (Finset.mem_range.mp hj).ne]
  rw [hrest]
  simp

theorem card_inHands (n : ℕ) (hand : ℕ → Option ρ) :
    (inHands n hand).card = ((Finset.range n).filter fun i => (hand i).isSome = true).card := by
  unfold inHands
  rw [Multiset.card_sum, Finset.card_filter]
  refine Finset.sum_congr rfl fun i _ => ?_
  cases hand i <;> rfl

theorem inHands_nobody (hand : ℕ → Option ρ) : inHands 0 hand = 0 := by
  simp [inHands]

/-! ## Hands read off the program points -/

section ProgramPoints

variable {π : Type*} {hand : π → Option ρ} {pcs : ℕ → π} {i : ℕ} {pc : π}

theorem inHands_go (n : ℕ) (hsame : hand pc = hand (pcs i)) :
    inHands n (fun j => hand (Function.update pcs i pc j)) = inHands n fun j => hand (pcs j) := by
  congr 1
  funext j
  by_cases hj : j = i
  · rw [hj, Function.update_self, hsame]
  · rw [Function.update_of_ne hj]

theorem inHands_go_take {n : ℕ} (hi : i < n) {x : ρ} (hfree : hand (pcs i) = none)
    (hheld : hand pc = some x) :
    inHands n (fun j => hand (Function.update pcs i pc j)) =
      {x} + inHands n fun j => hand (pcs j) := by
  have h : inHands n (Function.update (hand ∘ pcs) i (some x)) = {x} + inHands n (hand ∘ pcs) :=
    inHands_take hi hfree x
  rw [← hheld, ← Function.comp_update] at h
  exact h

theorem inHands_go_release {n : ℕ} (hi : i < n) {x : ρ} (hheld : hand (pcs i) = some x)
    (hfree : hand pc = none) :
    {x} + inHands n (fun j => hand (Function.update pcs i pc j)) =
      inHands n fun j => hand (pcs j) := by
  have h : {x} + inHands n (Function.update (hand ∘ pcs) i none) = inHands n (hand ∘ pcs) :=
    inHands_release hi hheld
  rw [← hfree, ← Function.comp_update] at h
  exact h

theorem inHands_go_join (n : ℕ) (hfree : hand pc = none) :
    inHands (n + 1) (fun j => hand (Function.update pcs n pc j)) =
      inHands n fun j => hand (pcs j) := by
  have h := inHands_join n (hand ∘ pcs)
  rw [← hfree, ← Function.comp_update] at h
  exact h

end ProgramPoints

/-- From thread `n` on, nobody holds anything. -/
def IdleFrom (n : ℕ) (hand : ℕ → Option ρ) : Prop := ∀ i, n ≤ i → hand i = none

theorem IdleFrom.update {n i : ℕ} {hand : ℕ → Option ρ} (h : IdleFrom n hand) (hi : i < n)
    (x : Option ρ) : IdleFrom n (Function.update hand i x) := by
  intro j hj
  rw [Function.update_of_ne (by omega)]
  exact h j hj

theorem IdleFrom.join {n : ℕ} {hand : ℕ → Option ρ} (h : IdleFrom n hand) :
    IdleFrom (n + 1) (Function.update hand n none) := by
  intro j hj
  rw [Function.update_of_ne (by omega)]
  exact h j (by omega)

/-- Nobody else's hands matter while there is at most one thread. -/
theorem IdleFrom.join_first {n : ℕ} {hand : ℕ → Option ρ} (h : IdleFrom n hand) :
    Function.update hand n none 0 = hand 0 := by
  by_cases h0 : n = 0
  · subst h0
    rw [Function.update_self, h 0 le_rfl]
  · rw [Function.update_of_ne (Ne.symm h0)]

end Concurrency
