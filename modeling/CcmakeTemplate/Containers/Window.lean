import Mathlib.Data.List.DropRight

/-!
# Bounded first-in first-out queues

A window has room for `cap` items. What is pushed into a full window takes the place of
the oldest item, which is lost, so a window to which items are only pushed holds the last
`cap` of them. `lost` counts the items that went this way.
-/

namespace Containers

universe u

structure Window (α : Type u) (cap : ℕ) where
  items : List α
  lost : ℕ
  bound : items.length ≤ cap
deriving DecidableEq

namespace Window

variable {α : Type u} {cap : ℕ}

theorem length_rtake_le (l : List α) (n : ℕ) : (l.rtake n).length ≤ n := by
  rw [List.rtake, List.length_drop]
  omega

@[ext]
theorem ext {w w' : Window α cap} (hitems : w.items = w'.items) (hlost : w.lost = w'.lost) :
    w = w' := by
  cases w
  cases w'
  subst hitems hlost
  rfl

def empty : Window α cap := ⟨[], 0, Nat.zero_le _⟩

/-- `true` when the next item that is pushed makes one item get lost. -/
def full (w : Window α cap) : Bool := decide (w.items.length = cap)

def push (w : Window α cap) (x : α) : Window α cap where
  items := (w.items ++ [x]).rtake cap
  lost := if w.full then w.lost + 1 else w.lost
  bound := length_rtake_le _ _

def pop (w : Window α cap) : Window α cap where
  items := w.items.tail
  lost := w.lost
  bound := by
    have h := w.bound
    rw [List.length_tail]
    omega

def resetLost (w : Window α cap) : Window α cap := { w with lost := 0 }

@[simp] theorem empty_items : (empty : Window α cap).items = [] := rfl

@[simp] theorem empty_lost : (empty : Window α cap).lost = 0 := rfl

@[simp] theorem pop_items (w : Window α cap) : w.pop.items = w.items.tail := rfl

@[simp] theorem pop_lost (w : Window α cap) : w.pop.lost = w.lost := rfl

@[simp] theorem resetLost_items (w : Window α cap) : w.resetLost.items = w.items := rfl

@[simp] theorem resetLost_lost (w : Window α cap) : w.resetLost.lost = 0 := rfl

theorem full_iff {w : Window α cap} : w.full = true ↔ w.items.length = cap := decide_eq_true_iff

theorem not_full_iff {w : Window α cap} : w.full = false ↔ w.items.length < cap := by
  have h := w.bound
  rw [full, decide_eq_false_iff_not]
  omega

theorem rtake_of_length_le {l : List α} {n : ℕ} (h : l.length ≤ n) : l.rtake n = l := by
  rw [List.rtake, Nat.sub_eq_zero_of_le h, List.drop_zero]

theorem push_items_of_room {w : Window α cap} (h : w.full = false) (x : α) :
    (w.push x).items = w.items ++ [x] := by
  refine rtake_of_length_le ?_
  rw [List.length_append]
  exact not_full_iff.mp h

theorem push_items_of_full {w : Window α cap} (h : w.full = true) (x : α) :
    (w.push x).items = (w.items ++ [x]).tail := by
  have hlen := full_iff.mp h
  have hdrop : (w.items ++ [x]).length - cap = 1 := by
    rw [List.length_append, hlen, List.length_singleton]
    omega
  change (w.items ++ [x]).rtake cap = _
  rw [List.rtake, hdrop, List.drop_one]

theorem push_lost_of_room {w : Window α cap} (h : w.full = false) (x : α) :
    (w.push x).lost = w.lost := by
  simp [push, h]

theorem push_lost_of_full {w : Window α cap} (h : w.full = true) (x : α) :
    (w.push x).lost = w.lost + 1 := by
  simp [push, h]

/-! ## Many items in a row -/

theorem rtake_append_rtake (l xs : List α) (n : ℕ) :
    (l.rtake n ++ xs).rtake n = (l ++ xs).rtake n := by
  rw [List.rtake, List.rtake, List.rtake, List.length_append, List.length_append, List.length_drop,
    ← List.drop_append_of_le_length (by omega), List.drop_drop]
  congr 1
  omega

end Window

end Containers
