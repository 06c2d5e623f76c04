import CcmakeTemplate.Containers.Window
import Mathlib.Data.List.Rotate

/-!
# `circular_q`

The ring of `details/circular_q.h`: one slot of the vector stays free, so that a full ring
and an empty one differ. Reading outside the vector and a remainder by zero are undefined;
they are `none` here. A slot that an item was moved out of keeps its value. The ring itself is
not moved.

A ring for `max_items` items is a `Window` with room for `max_items`.
-/

namespace Spdlog

open Containers

universe u

/-- The number of values of `size_t`. -/
def sizeTRange : ℕ := 18446744073709551616

structure CircularQ (α : Type u) where
  max_items_ : ℕ
  head_ : ℕ
  tail_ : ℕ
  overrun_counter_ : ℕ
  v_ : List α
  length_v : v_.length = max_items_
  head_lt : head_ < max max_items_ 1
  tail_lt : tail_ < max max_items_ 1

namespace CircularQ

variable {α : Type u}

/-! ## The methods -/

/-- `circular_q()`: a disabled queue. -/
def disabled : CircularQ α where
  max_items_ := 0
  head_ := 0
  tail_ := 0
  overrun_counter_ := 0
  v_ := []
  length_v := rfl
  head_lt := Nat.zero_lt_one
  tail_lt := Nat.zero_lt_one

/-- `circular_q(max_items)`. -/
def new [Inhabited α] (max_items : ℕ) : CircularQ α where
  max_items_ := (max_items + 1) % sizeTRange
  head_ := 0
  tail_ := 0
  overrun_counter_ := 0
  v_ := List.replicate ((max_items + 1) % sizeTRange) default
  length_v := List.length_replicate
  head_lt := by omega
  tail_lt := by omega

theorem mod_lt_max (n m : ℕ) (h : m ≠ 0) : n % m < max m 1 :=
  (Nat.mod_lt n (Nat.pos_of_ne_zero h)).trans_le (Nat.le_max_left m 1)

def pushBack (q : CircularQ α) (item : α) : CircularQ α :=
  if h : q.max_items_ = 0 then q
  else
    if (q.tail_ + 1) % q.max_items_ = q.head_ then
      { q with
        v_ := q.v_.set q.tail_ item
        tail_ := (q.tail_ + 1) % q.max_items_
        head_ := (q.head_ + 1) % q.max_items_
        overrun_counter_ := (q.overrun_counter_ + 1) % sizeTRange
        length_v := (List.length_set ..).trans q.length_v
        head_lt := mod_lt_max _ _ h
        tail_lt := mod_lt_max _ _ h }
    else
      { q with
        v_ := q.v_.set q.tail_ item
        tail_ := (q.tail_ + 1) % q.max_items_
        length_v := (List.length_set ..).trans q.length_v
        tail_lt := mod_lt_max _ _ h }

def front (q : CircularQ α) : Option α := q.v_[q.head_]?

def size (q : CircularQ α) : ℕ :=
  if q.head_ ≤ q.tail_ then q.tail_ - q.head_ else q.max_items_ - (q.head_ - q.tail_)

/-- The assertion of `at` is the bound. -/
def «at» (q : CircularQ α) (i : ℕ) : Option α :=
  if i < q.size then q.v_[(q.head_ + i) % q.max_items_]? else none

def popFront (q : CircularQ α) : Option (CircularQ α) :=
  if h : q.max_items_ = 0 then none
  else some { q with head_ := (q.head_ + 1) % q.max_items_, head_lt := mod_lt_max _ _ h }

def empty (q : CircularQ α) : Bool := q.tail_ == q.head_

def full (q : CircularQ α) : Bool :=
  if 0 < q.max_items_ then (q.tail_ + 1) % q.max_items_ == q.head_ else false

def overrunCounter (q : CircularQ α) : ℕ := q.overrun_counter_

def resetOverrunCounter (q : CircularQ α) : CircularQ α := { q with overrun_counter_ := 0 }

/-! ## The items, oldest first -/

def items (q : CircularQ α) : List α := (q.v_.rotate q.head_).take q.size

theorem wrap {m h i : ℕ} (hh : h < m) (hi : i ≤ m) :
    (h + i) % m = if h + i < m then h + i else h + i - m := by
  split
  · rename_i hlt
    exact Nat.mod_eq_of_lt hlt
  · rw [Nat.mod_eq_sub_mod (by omega), Nat.mod_eq_of_lt (by omega)]

/-- A ring with at least one slot has an index into it at each end. -/
theorem indices_lt {q : CircularQ α} (h : q.max_items_ ≠ 0) :
    q.head_ < q.max_items_ ∧ q.tail_ < q.max_items_ := by
  have hhead := q.head_lt
  have htail := q.tail_lt
  omega

theorem size_lt {q : CircularQ α} (h : q.max_items_ ≠ 0) : q.size < q.max_items_ := by
  obtain ⟨hhead, htail⟩ := indices_lt h
  unfold size
  split <;> omega

theorem size_disabled {q : CircularQ α} (h : q.max_items_ = 0) : q.size = 0 := by
  have hhead := q.head_lt
  have htail := q.tail_lt
  unfold size
  split <;> omega

theorem size_le (q : CircularQ α) : q.size ≤ q.max_items_ := by
  by_cases h : q.max_items_ = 0
  · rw [size_disabled h]
    exact Nat.zero_le _
  · exact (size_lt h).le

@[simp] theorem length_items (q : CircularQ α) : q.items.length = q.size := by
  rw [items, List.length_take, List.length_rotate, q.length_v]
  exact Nat.min_eq_left q.size_le

theorem getElem?_items {q : CircularQ α} {i : ℕ} (hi : i < q.size) :
    q.items[i]? = q.v_[(q.head_ + i) % q.max_items_]? := by
  have hlt : i < q.v_.length := by
    rw [q.length_v]
    exact hi.trans_le q.size_le
  rw [items, List.getElem?_take_of_lt hi, List.getElem?_rotate hlt, q.length_v, Nat.add_comm]

theorem at_eq (q : CircularQ α) (i : ℕ) : q.at i = q.items[i]? := by
  unfold «at»
  split
  · rename_i hi
    exact (getElem?_items hi).symm
  · rename_i hi
    rw [List.getElem?_eq_none (by rw [length_items]; omega)]

theorem empty_iff (q : CircularQ α) : q.empty = true ↔ q.items = [] := by
  rw [← List.length_eq_zero_iff, length_items, empty, beq_iff_eq]
  have hhead := q.head_lt
  have htail := q.tail_lt
  unfold size
  split <;> omega

theorem full_iff (q : CircularQ α) :
    q.full = true ↔ 0 < q.max_items_ ∧ q.items.length + 1 = q.max_items_ := by
  rw [length_items]
  unfold full
  split
  · rename_i hpos
    obtain ⟨hhead, htail⟩ := indices_lt (Nat.pos_iff_ne_zero.mp hpos)
    rw [beq_iff_eq, wrap htail hpos]
    unfold size
    split <;> split <;> omega
  · rename_i hzero
    simp [hzero]

theorem front_eq {q : CircularQ α} (h : q.empty = false) : q.front = q.items.head? := by
  have hne : q.items ≠ [] := fun hnil => by simp [(empty_iff q).mpr hnil] at h
  have hpos : 0 < q.size := by
    rw [← length_items]
    exact List.length_pos_iff.mpr hne
  have hmax : q.max_items_ ≠ 0 := fun hzero => by simp [size_disabled hzero] at hpos
  rw [List.head?_eq_getElem?, getElem?_items hpos, Nat.add_zero,
    Nat.mod_eq_of_lt (indices_lt hmax).1]
  rfl

/-! ## Pushing and popping -/

/-- Writing behind the first `n` items of a ring puts a new item at their end. -/
theorem take_rotate_set {v : List α} {h n t : ℕ} (hh : h < v.length) (hn : n < v.length)
    (ht : (h + n) % v.length = t) (x : α) :
    ((v.set t x).rotate h).take (n + 1) = (v.rotate h).take n ++ [x] := by
  have htlt : t < v.length := ht ▸ Nat.mod_lt _ (by omega)
  apply List.ext_getElem?
  intro i
  rcases Nat.lt_trichotomy i n with hi | hi | hi
  · -- an old item is in another slot
    have hne : t ≠ (i + h) % v.length := by
      rw [← ht, Nat.add_comm i h, wrap hh hn.le, wrap hh (by omega)]
      split <;> split <;> omega
    rw [List.getElem?_take_of_lt (by omega),
      List.getElem?_rotate (by rw [List.length_set]; omega),
      List.getElem?_append_left (by rw [List.length_take, List.length_rotate]; omega),
      List.getElem?_take_of_lt hi, List.getElem?_rotate (by omega), List.length_set,
      List.getElem?_set_ne hne]
  · subst hi
    rw [List.getElem?_take_of_lt (by omega),
      List.getElem?_rotate (by rw [List.length_set]; omega), List.length_set, Nat.add_comm i h, ht,
      List.getElem?_set_self htlt,
      List.getElem?_append_right (by rw [List.length_take, List.length_rotate]; omega),
      List.length_take, List.length_rotate, Nat.min_eq_left hn.le, Nat.sub_self]
    rfl
  · rw [List.getElem?_eq_none (by rw [List.length_take]; omega),
      List.getElem?_eq_none (by
        rw [List.length_append, List.length_take, List.length_singleton]
        omega)]

/-- Moving the head leaves out the first item. -/
theorem take_rotate_succ {v : List α} {h n : ℕ} (hn : n < v.length) :
    (v.rotate ((h + 1) % v.length)).take n = ((v.rotate h).take (n + 1)).tail := by
  rw [List.rotate_mod, ← List.rotate_rotate]
  have hlen : (v.rotate h).length = v.length := List.length_rotate ..
  cases hv : v.rotate h with
  | nil => simp [hv] at hlen; omega
  | cons x rest =>
      rw [hv, List.length_cons] at hlen
      rw [List.rotate_cons_succ, List.rotate_zero, List.take_append_of_le_length (by omega)]
      rfl

/-- The tail is the slot behind the items. -/
theorem head_add_size {q : CircularQ α} (h : q.max_items_ ≠ 0) :
    (q.head_ + q.size) % q.max_items_ = q.tail_ := by
  obtain ⟨hhead, htail⟩ := indices_lt h
  rw [wrap hhead q.size_le]
  unfold size
  split <;> split <;> omega

theorem pushBack_max_items (q : CircularQ α) (x : α) :
    (q.pushBack x).max_items_ = q.max_items_ := by
  unfold pushBack
  split
  · rfl
  · split <;> rfl

/-- The writing of the slot, before the ring looks whether it was full. -/
theorem items_set {q : CircularQ α} (h : q.max_items_ ≠ 0) (x : α) :
    ((q.v_.set q.tail_ x).rotate q.head_).take (q.size + 1) = q.items ++ [x] := by
  have hlen := q.length_v
  have hhead : q.head_ < q.v_.length := by
    rw [hlen]
    exact (indices_lt h).1
  have hsize : q.size < q.v_.length := by
    rw [hlen]
    exact size_lt h
  refine take_rotate_set hhead hsize ?_ x
  rw [hlen]
  exact head_add_size h

theorem items_pushBack_of_room {q : CircularQ α} (h : q.max_items_ ≠ 0) (hfull : q.full = false)
    (x : α) :
    (q.pushBack x).items = q.items ++ [x] ∧
      (q.pushBack x).overrun_counter_ = q.overrun_counter_ := by
  have hne : (q.tail_ + 1) % q.max_items_ ≠ q.head_ := by
    simpa [full, Nat.pos_iff_ne_zero, h] using hfull
  rw [pushBack, dif_neg h, if_neg hne]
  refine ⟨?_, rfl⟩
  rw [← items_set h x]
  unfold items
  congr 1
  obtain ⟨hhead, htail⟩ := indices_lt h
  rw [wrap htail (by omega)] at hne
  simp only [size]
  rw [wrap htail (by omega)]
  by_cases hwrap : q.tail_ + 1 < q.max_items_
  · rw [if_pos hwrap] at hne ⊢
    split <;> split <;> omega
  · rw [if_neg hwrap] at hne ⊢
    split <;> split <;> omega

theorem items_pushBack_of_full {q : CircularQ α} (hfull : q.full = true) (x : α) :
    (q.pushBack x).items = (q.items ++ [x]).tail ∧
      (q.pushBack x).overrun_counter_ = (q.overrun_counter_ + 1) % sizeTRange := by
  obtain ⟨hpos, hsize⟩ := (full_iff q).mp hfull
  have h : q.max_items_ ≠ 0 := by omega
  have heq : (q.tail_ + 1) % q.max_items_ = q.head_ := by
    simpa [full, hpos] using hfull
  rw [pushBack, dif_neg h, if_pos heq]
  refine ⟨?_, rfl⟩
  rw [length_items] at hsize
  have hsize' : q.size = q.max_items_ - 1 := by omega
  have hlen : (q.v_.set q.tail_ x).length = q.max_items_ := (List.length_set ..).trans q.length_v
  have hhead := (indices_lt h).1
  rw [← items_set h x, ← take_rotate_succ (by omega), hlen]
  unfold items
  congr 1
  rw [hsize']
  simp only [size, heq]
  rw [wrap hhead hpos]
  split <;> split <;> omega

theorem items_popFront {q : CircularQ α} (h : q.empty = false) :
    ∃ q', q.popFront = some q' ∧ q'.items = q.items.tail ∧ q'.max_items_ = q.max_items_ ∧
      q'.overrun_counter_ = q.overrun_counter_ := by
  have hpos : 0 < q.size := by
    rw [← length_items]
    refine List.length_pos_iff.mpr fun hnil => ?_
    simp [(empty_iff q).mpr hnil] at h
  have hmax : q.max_items_ ≠ 0 := fun hzero => by simp [size_disabled hzero] at hpos
  refine ⟨_, dif_neg hmax, ?_, rfl, rfl⟩
  have hlen := q.length_v
  obtain ⟨hhead, htail⟩ := indices_lt hmax
  have hlt := size_lt hmax
  obtain ⟨n, hn⟩ : ∃ n, q.size = n + 1 := ⟨q.size - 1, by omega⟩
  rw [items, items, hn, ← take_rotate_succ (by omega), hlen]
  congr 1
  have hsize := hn
  unfold size at hsize ⊢
  simp only
  rw [wrap hhead (by omega)]
  split <;> split at hsize <;> split <;> omega

/-! ## The ring and the window -/

/-- The ring holds what the window holds. -/
structure Represents {cap : ℕ} (q : CircularQ α) (w : Window α cap) : Prop where
  max_items : q.max_items_ = cap + 1
  items : q.items = w.items
  counter : q.overrun_counter_ = w.lost % sizeTRange

namespace Represents

variable {cap : ℕ} {q : CircularQ α} {w : Window α cap}

theorem new [Inhabited α] (h : cap + 1 < sizeTRange) :
    Represents (CircularQ.new cap : CircularQ α) (Window.empty : Window α cap) where
  max_items := Nat.mod_eq_of_lt h
  items := List.length_eq_zero_iff.mp (length_items _)
  counter := rfl

theorem size (h : Represents q w) : q.size = w.items.length := by
  rw [← h.items, length_items]

theorem empty (h : Represents q w) : q.empty = w.items.isEmpty := by
  rw [Bool.eq_iff_iff, empty_iff, List.isEmpty_iff, h.items]

theorem full (h : Represents q w) : q.full = w.full := by
  rw [Bool.eq_iff_iff, full_iff, Window.full_iff, h.items, h.max_items]
  omega

theorem at_eq (h : Represents q w) (i : ℕ) : q.at i = w.items[i]? := by
  rw [CircularQ.at_eq, h.items]

theorem front (h : Represents q w) (hne : w.items ≠ []) : q.front = w.items.head? := by
  rw [front_eq, h.items]
  rw [h.empty]
  exact List.isEmpty_eq_false_iff.mpr hne

theorem pushBack (h : Represents q w) (x : α) : Represents (q.pushBack x) (w.push x) := by
  have hmax : q.max_items_ ≠ 0 := by
    rw [h.max_items]
    exact Nat.succ_ne_zero cap
  cases hfull : w.full with
  | false =>
      obtain ⟨hitems, hcounter⟩ := items_pushBack_of_room hmax (h.full.trans hfull) x
      refine ⟨(pushBack_max_items q x).trans h.max_items, ?_, ?_⟩
      · rw [hitems, h.items, Window.push_items_of_room hfull]
      · rw [hcounter, h.counter, Window.push_lost_of_room hfull]
  | true =>
      obtain ⟨hitems, hcounter⟩ := items_pushBack_of_full (h.full.trans hfull) x
      refine ⟨(pushBack_max_items q x).trans h.max_items, ?_, ?_⟩
      · rw [hitems, h.items, Window.push_items_of_full hfull]
      · rw [hcounter, h.counter, Window.push_lost_of_full hfull, Nat.mod_add_mod]

theorem popFront (h : Represents q w) (hne : w.items ≠ []) :
    ∃ q', q.popFront = some q' ∧ Represents q' w.pop := by
  have hempty : q.empty = false := by
    rw [h.empty]
    exact List.isEmpty_eq_false_iff.mpr hne
  obtain ⟨q', hpop, hitems, hmax, hcounter⟩ := items_popFront hempty
  refine ⟨q', hpop, hmax.trans h.max_items, ?_, hcounter.trans h.counter⟩
  rw [hitems, h.items, Window.pop_items]

theorem reset (h : Represents q w) : Represents q.resetOverrunCounter w.resetLost :=
  ⟨h.max_items, h.items, rfl⟩

end Represents

/-! ## Every sequence of calls -/

inductive Call (α : Type u) where
  | pushBack (item : α)
  | popFront
  | resetOverrunCounter

/-- `none` when a call has no defined behaviour. -/
def run (q : CircularQ α) : List (Call α) → Option (CircularQ α)
  | [] => some q
  | .pushBack item :: calls => (q.pushBack item).run calls
  | .popFront :: calls => q.popFront.bind fun q' => q'.run calls
  | .resetOverrunCounter :: calls => q.resetOverrunCounter.run calls

/-- The same calls on the window; `none` when an item is popped that is not there. -/
def runWindow {cap : ℕ} (w : Window α cap) : List (Call α) → Option (Window α cap)
  | [] => some w
  | .pushBack item :: calls => runWindow (w.push item) calls
  | .popFront :: calls => if w.items = [] then none else runWindow w.pop calls
  | .resetOverrunCounter :: calls => runWindow w.resetLost calls

theorem Represents.run {cap : ℕ} {q : CircularQ α} {w w' : Window α cap} (h : Represents q w)
    {calls : List (Call α)} (hrun : runWindow w calls = some w') :
    ∃ q', q.run calls = some q' ∧ Represents q' w' := by
  induction calls generalizing q w with
  | nil =>
      cases hrun
      exact ⟨q, rfl, h⟩
  | cons call calls ih =>
      cases call with
      | pushBack item => exact ih (h.pushBack item) hrun
      | popFront =>
          simp only [runWindow] at hrun
          split at hrun
          · cases hrun
          · rename_i hne
            obtain ⟨q', hpop, h'⟩ := h.popFront hne
            obtain ⟨q'', hq'', h''⟩ := ih h' hrun
            exact ⟨q'', by rw [CircularQ.run, hpop]; exact hq'', h''⟩
      | resetOverrunCounter => exact ih h.reset hrun

/-- A ring that is popped only while it has items answers every call like a bounded queue
that loses its oldest items. -/
theorem new_refines_window [Inhabited α] {cap : ℕ} (hcap : cap + 1 < sizeTRange)
    {calls : List (Call α)} {w : Window α cap} (hrun : runWindow Window.empty calls = some w) :
    ∃ q, (CircularQ.new cap : CircularQ α).run calls = some q ∧
      q.size = w.items.length ∧ q.empty = w.items.isEmpty ∧ q.full = w.full ∧
      (∀ i, q.at i = w.items[i]?) ∧ (w.items ≠ [] → q.front = w.items.head?) ∧
      q.overrunCounter = w.lost % sizeTRange := by
  obtain ⟨q, hq, h⟩ := (Represents.new hcap).run hrun
  exact ⟨q, hq, h.size, h.empty, h.full, h.at_eq, h.front, h.counter⟩

/-- Three pushes into a ring with room for two items. -/
theorem new_refines_window_three :
    3 < sizeTRange ∧
    ∃ w : Window ℕ 2, runWindow Window.empty [.pushBack 5, .pushBack 6, .pushBack 7] = some w ∧
      ∃ q, (CircularQ.new 2 : CircularQ ℕ).run [.pushBack 5, .pushBack 6, .pushBack 7] = some q ∧
        q.size = w.items.length ∧ q.empty = w.items.isEmpty ∧ q.full = w.full ∧
        (∀ i, q.at i = w.items[i]?) ∧ (w.items ≠ [] → q.front = w.items.head?) ∧
        q.overrunCounter = w.lost % sizeTRange :=
  ⟨by decide, _, rfl, new_refines_window (by decide) rfl⟩

end CircularQ

end Spdlog
