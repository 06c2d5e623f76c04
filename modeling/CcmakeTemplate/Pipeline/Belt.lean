import CcmakeTemplate.Concurrency.Machine
import CcmakeTemplate.Concurrency.Threads

/-!
# What a pipeline is for: a belt of stations

The abstract pipeline has no threads, locks or program points. A job waits, a
worker makes its product, the product is finished, a handler holds it, and it
leaves through a callback or through a fetch. A handler may also put it back.

`Belt.Conserved` says that nothing is lost or duplicated on the way.
`Belt.InOrder` says that products leave in the order in which jobs came. The
first holds on every run. The second needs one worker, one handler, no fetches,
and that a product is put back only while nothing finished is waiting, because
putting back is a push at the far end.
-/

namespace Pipeline

open Concurrency

structure Belt (I O F : Type) where
  added : List I
  waiting : List I
  making : ℕ → Option O
  finished : List O
  holding : ℕ → Option O
  fetched : List O
  invoked : List (F × O)
  workers : ℕ
  handlers : ℕ

inductive Move (I F : Type) where
  | add (job : I)
  | take (i : ℕ)
  | push (i : ℕ)
  | fetch
  | pick (i : ℕ)
  | invoke (i : ℕ) (f : F)
  | putBack (i : ℕ)
  | hireWorker
  | hireHandler

namespace Belt

variable {I O F : Type}

def step (process : I → O) (b : Belt I O F) : Move I F → Option (Belt I O F)
  | .add job => some { b with added := b.added ++ [job], waiting := b.waiting ++ [job] }
  | .take i =>
      match b.waiting, b.making i with
      | job :: rest, none =>
          if i < b.workers then
            some { b with
              waiting := rest
              making := Function.update b.making i (some (process job)) }
          else none
      | _, _ => none
  | .push i =>
      match b.making i with
      | some product =>
          if i < b.workers then
            some { b with
              making := Function.update b.making i none
              finished := b.finished ++ [product] }
          else none
      | none => none
  | .fetch =>
      match b.finished with
      | product :: rest =>
          some { b with finished := rest, fetched := b.fetched ++ [product] }
      | [] => none
  | .pick i =>
      match b.finished, b.holding i with
      | product :: rest, none =>
          if i < b.handlers then
            some { b with
              finished := rest
              holding := Function.update b.holding i (some product) }
          else none
      | _, _ => none
  | .invoke i f =>
      match b.holding i with
      | some product =>
          if i < b.handlers then
            some { b with
              holding := Function.update b.holding i none
              invoked := b.invoked ++ [(f, product)] }
          else none
      | none => none
  | .putBack i =>
      match b.holding i with
      | some product =>
          if i < b.handlers then
            some { b with
              holding := Function.update b.holding i none
              finished := b.finished ++ [product] }
          else none
      | none => none
  | .hireWorker =>
      some { b with
        making := Function.update b.making b.workers none
        workers := b.workers + 1 }
  | .hireHandler =>
      some { b with
        holding := Function.update b.holding b.handlers none
        handlers := b.handlers + 1 }

def empty : Belt I O F where
  added := []
  waiting := []
  making := fun _ => none
  finished := []
  holding := fun _ => none
  fetched := []
  invoked := []
  workers := 0
  handlers := 0

def machine (process : I → O) : Machine (Belt I O F) (Move I F) where
  init := fun b => b = empty
  step := step process

/-! ## What a move did -/

variable {process : I → O} {b b' : Belt I O F}

theorem step_take {i : ℕ} (h : b.step process (.take i) = some b') :
    ∃ job rest, b.waiting = job :: rest ∧ b.making i = none ∧ i < b.workers ∧
      b' = { b with
        waiting := rest
        making := Function.update b.making i (some (process job)) } := by
  simp only [step] at h
  split at h
  · rename_i job rest hwait hfree
    split at h
    · rename_i hi
      exact ⟨job, rest, hwait, hfree, hi, (Option.some.inj h).symm⟩
    · cases h
  · cases h

theorem step_push {i : ℕ} (h : b.step process (.push i) = some b') :
    ∃ product, b.making i = some product ∧ i < b.workers ∧
      b' = { b with
        making := Function.update b.making i none
        finished := b.finished ++ [product] } := by
  simp only [step] at h
  split at h
  · rename_i product hmade
    split at h
    · rename_i hi
      exact ⟨product, hmade, hi, (Option.some.inj h).symm⟩
    · cases h
  · cases h

theorem step_fetch (h : b.step process .fetch = some b') :
    ∃ product rest, b.finished = product :: rest ∧
      b' = { b with finished := rest, fetched := b.fetched ++ [product] } := by
  simp only [step] at h
  split at h
  · rename_i product rest hfin
    exact ⟨product, rest, hfin, (Option.some.inj h).symm⟩
  · cases h

theorem step_pick {i : ℕ} (h : b.step process (.pick i) = some b') :
    ∃ product rest, b.finished = product :: rest ∧ b.holding i = none ∧ i < b.handlers ∧
      b' = { b with
        finished := rest
        holding := Function.update b.holding i (some product) } := by
  simp only [step] at h
  split at h
  · rename_i product rest hfin hfree
    split at h
    · rename_i hi
      exact ⟨product, rest, hfin, hfree, hi, (Option.some.inj h).symm⟩
    · cases h
  · cases h

theorem step_invoke {i : ℕ} {f : F} (h : b.step process (.invoke i f) = some b') :
    ∃ product, b.holding i = some product ∧ i < b.handlers ∧
      b' = { b with
        holding := Function.update b.holding i none
        invoked := b.invoked ++ [(f, product)] } := by
  simp only [step] at h
  split at h
  · rename_i product hheld
    split at h
    · rename_i hi
      exact ⟨product, hheld, hi, (Option.some.inj h).symm⟩
    · cases h
  · cases h

theorem step_putBack {i : ℕ} (h : b.step process (.putBack i) = some b') :
    ∃ product, b.holding i = some product ∧ i < b.handlers ∧
      b' = { b with
        holding := Function.update b.holding i none
        finished := b.finished ++ [product] } := by
  simp only [step] at h
  split at h
  · rename_i product hheld
    split at h
    · rename_i hi
      exact ⟨product, hheld, hi, (Option.some.inj h).symm⟩
    · cases h
  · cases h

/-! ## Conservation -/

/-- Each added job is in exactly one station, as its product. -/
def Conserved (process : I → O) (b : Belt I O F) : Prop :=
  (b.added.map process : Multiset O) =
    (b.waiting.map process : Multiset O) + inHands b.workers b.making +
      (b.finished : Multiset O) + inHands b.handlers b.holding +
      (b.fetched : Multiset O) + (b.invoked.map Prod.snd : Multiset O)

theorem Conserved.step {m : Move I F} (hb : Conserved process b)
    (h : b.step process m = some b') : Conserved process b' := by
  unfold Conserved at hb ⊢
  cases m with
  | add job =>
      cases h
      simp only [List.map_append, ← Multiset.coe_add, hb]
      abel
  | take i =>
      obtain ⟨job, rest, hwait, hfree, hi, rfl⟩ := step_take h
      simp only [inHands_take hi hfree, hb, hwait, List.map_cons, ← Multiset.cons_coe,
        ← Multiset.singleton_add]
      abel
  | push i =>
      obtain ⟨product, hmade, hi, rfl⟩ := step_push h
      simp only [hb, ← inHands_release hi hmade, ← Multiset.coe_add, Multiset.coe_singleton]
      abel
  | fetch =>
      obtain ⟨product, rest, hfin, rfl⟩ := step_fetch h
      simp only [hb, hfin, ← Multiset.coe_add, ← Multiset.cons_coe, ← Multiset.singleton_add]
      abel
  | pick i =>
      obtain ⟨product, rest, hfin, hfree, hi, rfl⟩ := step_pick h
      simp only [inHands_take hi hfree, hb, hfin, ← Multiset.cons_coe,
        ← Multiset.singleton_add]
      abel
  | invoke i f =>
      obtain ⟨product, hheld, hi, rfl⟩ := step_invoke h
      simp only [hb, ← inHands_release hi hheld, List.map_append, ← Multiset.coe_add,
        List.map_cons, List.map_nil, Multiset.coe_singleton]
      abel
  | putBack i =>
      obtain ⟨product, hheld, hi, rfl⟩ := step_putBack h
      simp only [hb, ← inHands_release hi hheld, ← Multiset.coe_add, Multiset.coe_singleton]
      abel
  | hireWorker =>
      cases h
      simp only [inHands_join, hb]
  | hireHandler =>
      cases h
      simp only [inHands_join, hb]

theorem conserved {H : Belt I O F → Move I F → Prop} (h : (machine process).ReachBy H b) :
    Conserved process b := by
  refine Machine.ReachBy.invariant ?_ ?_ h
  · rintro b rfl
    simp [Conserved, empty, inHands_nobody]
  · intro b m b' _ hb _ hstep
    exact hb.step hstep

/-! ## Order -/

/-- One worker, one handler, no fetches, and nothing finished is waiting when a
product is put back. -/
structure Orderly (b : Belt I O F) (m : Move I F) : Prop where
  workers : b.workers ≤ 1
  handlers : b.handlers ≤ 1
  fetch : m ≠ .fetch
  putBack : ∀ i, m = .putBack i → b.finished = []

/-- The stations, read from the exit to the entrance, hold the products of the
jobs in the order in which the jobs were added. -/
structure InOrder (process : I → O) (b : Belt I O F) : Prop where
  line : b.invoked.map Prod.snd ++ ((b.holding 0).toList ++ (b.finished ++
    ((b.making 0).toList ++ b.waiting.map process))) = b.added.map process
  making : IdleFrom b.workers b.making
  holding : IdleFrom b.handlers b.holding

theorem InOrder.step {m : Move I F} (hb : InOrder process b) (hH : Orderly b m)
    (h : b.step process m = some b') : InOrder process b' := by
  obtain ⟨hline, hmaking, hholding⟩ := hb
  have hworkers := hH.workers
  have hhandlers := hH.handlers
  cases m with
  | add job =>
      cases h
      refine ⟨?_, hmaking, hholding⟩
      simp only [List.map_append, ← hline, List.append_assoc]
  | take i =>
      obtain ⟨job, rest, hwait, hfree, hi, rfl⟩ := step_take h
      obtain rfl : i = 0 := by omega
      refine ⟨?_, hmaking.update hi _, hholding⟩
      rw [← hline, hwait, hfree]
      simp
  | push i =>
      obtain ⟨product, hmade, hi, rfl⟩ := step_push h
      obtain rfl : i = 0 := by omega
      refine ⟨?_, hmaking.update hi _, hholding⟩
      rw [← hline, hmade]
      simp
  | fetch => exact absurd rfl hH.fetch
  | pick i =>
      obtain ⟨product, rest, hfin, hfree, hi, rfl⟩ := step_pick h
      obtain rfl : i = 0 := by omega
      refine ⟨?_, hmaking, hholding.update hi _⟩
      rw [← hline, hfin, hfree]
      simp
  | invoke i f =>
      obtain ⟨product, hheld, hi, rfl⟩ := step_invoke h
      obtain rfl : i = 0 := by omega
      refine ⟨?_, hmaking, hholding.update hi _⟩
      rw [← hline, hheld]
      simp
  | putBack i =>
      obtain ⟨product, hheld, hi, rfl⟩ := step_putBack h
      obtain rfl : i = 0 := by omega
      refine ⟨?_, hmaking, hholding.update hi _⟩
      -- the far end is the near end: nothing else is finished
      rw [← hline, hheld, hH.putBack 0 rfl]
      simp
  | hireWorker =>
      cases h
      refine ⟨?_, hmaking.join, hholding⟩
      simpa only [hmaking.join_first] using hline
  | hireHandler =>
      cases h
      refine ⟨?_, hmaking, hholding.join⟩
      simpa only [hholding.join_first] using hline

theorem inOrder (h : (machine process).ReachBy Orderly b) : InOrder process b := by
  refine Machine.ReachBy.invariant ?_ ?_ h
  · rintro b rfl
    exact ⟨rfl, fun _ _ => rfl, fun _ _ => rfl⟩
  · intro b m b' _ hb hH hstep
    exact hb.step hH hstep

/-- Products leave in the order of their jobs. -/
theorem invoked_prefix (h : (machine process).ReachBy Orderly b) :
    b.invoked.map Prod.snd <+: b.added.map process := by
  rw [← (inOrder h).line]
  exact List.prefix_append _ _

end Belt

end Pipeline
