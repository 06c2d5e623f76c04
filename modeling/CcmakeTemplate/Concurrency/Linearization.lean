import Mathlib.Logic.Function.Basic
import Mathlib.Data.List.Basic

/-!
# Atomic objects

An atomic object carries out each call at one instant between the call and its return.
`legal op q r q'` says what an operation may do when it runs alone: `op` answers `r` and
turns `q` into `q'`.

A history records the calls, the returns and the changes of the object, each with its
thread. `AtomicRun` generates the histories of the atomic object. An implementation
follows it when each of its steps is an `Advance`. Every call that has returned then took
effect once, at an instant that lies inside it.
-/

namespace Concurrency

universe u v w x

variable {τ : Type u} {Op : Type v} {R : Type w} {Q : Type x}

inductive Seen (τ : Type u) (Op : Type v) (R : Type w) (Q : Type x) where
  | called (t : τ) (op : Op)
  | changed (t : τ) (q q' : Q)
  | returned (t : τ) (op : Op) (r : R)
deriving DecidableEq

def Seen.thread : Seen τ Op R Q → τ
  | .called t _ | .changed t _ _ | .returned t _ _ => t

/-- A call is pending until it takes effect, and done until it returns. -/
inductive Phase (Op : Type v) (R : Type w) where
  | idle
  | pending (op : Op)
  | done (op : Op) (r : R)

section

variable [DecidableEq Q]

/-- What can be seen of an effect: nothing where it leaves the object as it is. -/
def effect (t : τ) (q q' : Q) : List (Seen τ Op R Q) :=
  if q = q' then [] else [.changed t q q']

/-- The object at the end of a history. -/
def valueAfter (q : Q) : List (Seen τ Op R Q) → Q
  | [] => q
  | .changed _ _ q' :: history => valueAfter q' history
  | .called _ _ :: history | .returned _ _ _ :: history => valueAfter q history

variable [DecidableEq τ]

/-- The histories of the atomic object that begins as `q₀`, each with the object and the
phases of the threads at its end. -/
inductive AtomicRun (legal : Op → Q → R → Q → Prop) (q₀ : Q) :
    List (Seen τ Op R Q) → Q → (τ → Phase Op R) → Prop
  | start : AtomicRun legal q₀ [] q₀ fun _ => .idle
  | call {history : List (Seen τ Op R Q)} {q : Q} {phase : τ → Phase Op R}
      (h : AtomicRun legal q₀ history q phase) {t : τ} (ht : phase t = .idle) (op : Op) :
      AtomicRun legal q₀ (history ++ [.called t op]) q (Function.update phase t (.pending op))
  | commit {history : List (Seen τ Op R Q)} {q q' : Q} {phase : τ → Phase Op R}
      (h : AtomicRun legal q₀ history q phase) {t : τ} {op : Op} {r : R}
      (ht : phase t = .pending op) (hlegal : legal op q r q') :
      AtomicRun legal q₀ (history ++ effect t q q') q' (Function.update phase t (.done op r))
  | ret {history : List (Seen τ Op R Q)} {q : Q} {phase : τ → Phase Op R}
      (h : AtomicRun legal q₀ history q phase) {t : τ} {op : Op} {r : R}
      (ht : phase t = .done op r) :
      AtomicRun legal q₀ (history ++ [.returned t op r]) q (Function.update phase t .idle)

/-- What one step of an implementation does to the object and to the phase of the thread
that takes it, and what can be seen of it. -/
inductive Advance (legal : Op → Q → R → Q → Prop) (t : τ) (q : Q) :
    Phase Op R → Q → Phase Op R → List (Seen τ Op R Q) → Prop
  | stay (phase : Phase Op R) : Advance legal t q phase q phase []
  | commit {op : Op} {r : R} {q' : Q} (h : legal op q r q') :
      Advance legal t q (.pending op) q' (.done op r) (effect t q q')
  | ret (op : Op) (r : R) : Advance legal t q (.done op r) q .idle [.returned t op r]
  | commitRet {op : Op} {r : R} {q' : Q} (h : legal op q r q') :
      Advance legal t q (.pending op) q' .idle (effect t q q' ++ [.returned t op r])

theorem AtomicRun.advance {legal : Op → Q → R → Q → Prop} {q₀ q q' : Q}
    {history seen : List (Seen τ Op R Q)} {phase : τ → Phase Op R} {phase' : Phase Op R} {t : τ}
    (h : AtomicRun legal q₀ history q phase)
    (hstep : Advance legal t q (phase t) q' phase' seen) :
    AtomicRun legal q₀ (history ++ seen) q' (Function.update phase t phase') := by
  generalize hpc : phase t = old at hstep
  cases hstep with
  | stay =>
      rw [List.append_nil, ← hpc, Function.update_eq_self]
      exact h
  | commit hlegal => exact h.commit hpc hlegal
  | ret => exact h.ret hpc
  | commitRet hlegal =>
      have hrun := (h.commit hpc hlegal).ret (Function.update_self ..)
      rwa [Function.update_idem, List.append_assoc] at hrun

/-! ## The instant of a call -/

/-- What is known of the last call of `t`. -/
def Progress (legal : Op → Q → R → Q → Prop) (q₀ : Q) (history : List (Seen τ Op R Q)) (t : τ) :
    Phase Op R → Prop
  | .idle => True
  | .pending op => ∃ before during, history = before ++ .called t op :: during ∧
      ∀ e ∈ during, e.thread ≠ t
  | .done op r => ∃ before during after q q',
      history = before ++ .called t op :: (during ++ effect t q q' ++ after) ∧
      legal op q r q' ∧ valueAfter q₀ (before ++ .called t op :: during) = q ∧
      ∀ e ∈ during ++ after, e.thread ≠ t

/-- Every call that has returned took effect once: as the sequential object allows it, on
the object as it was at an instant between the call and the return. -/
def TakesEffectOnce (legal : Op → Q → R → Q → Prop) (q₀ : Q) (history : List (Seen τ Op R Q)) :
    Prop :=
  ∀ earlier later t op r, history = earlier ++ .returned t op r :: later →
    ∃ before during after q q',
      earlier = before ++ .called t op :: (during ++ effect t q q' ++ after) ∧
      legal op q r q' ∧ valueAfter q₀ (before ++ .called t op :: during) = q ∧
      ∀ e ∈ during ++ after, e.thread ≠ t

section

omit [DecidableEq Q] [DecidableEq τ]

theorem valueAfter_append (q : Q) (history more : List (Seen τ Op R Q)) :
    valueAfter q (history ++ more) = valueAfter (valueAfter q history) more := by
  induction history generalizing q with
  | nil => rfl
  | cons e history ih => cases e <;> exact ih _

end

omit [DecidableEq τ] in
theorem valueAfter_effect (t : τ) (q q' : Q) :
    valueAfter q (effect t q q' : List (Seen τ Op R Q)) = q' := by
  unfold effect
  split
  · rename_i heq
    exact heq
  · rfl

theorem AtomicRun.value {legal : Op → Q → R → Q → Prop} {q₀ q : Q}
    {history : List (Seen τ Op R Q)} {phase : τ → Phase Op R}
    (h : AtomicRun legal q₀ history q phase) : valueAfter q₀ history = q := by
  induction h with
  | start => rfl
  | call _ _ _ ih | ret _ _ ih =>
      rw [valueAfter_append, ih]
      rfl
  | commit _ _ _ ih => rw [valueAfter_append, ih, valueAfter_effect]

omit [DecidableEq τ] in
theorem mem_effect {t : τ} {q q' : Q} {e : Seen τ Op R Q} (h : e ∈ effect t q q') :
    e.thread = t := by
  unfold effect at h
  split at h
  · cases h
  · rw [List.mem_singleton.mp h]
    rfl

omit [DecidableEq τ] in
/-- What the other threads do. -/
theorem Progress.append {legal : Op → Q → R → Q → Prop} {q₀ : Q} {t : τ}
    {history more : List (Seen τ Op R Q)} {phase : Phase Op R}
    (h : Progress legal q₀ history t phase) (hmore : ∀ e ∈ more, e.thread ≠ t) :
    Progress legal q₀ (history ++ more) t phase := by
  cases phase with
  | idle => trivial
  | pending op =>
      obtain ⟨before, during, rfl, hother⟩ := h
      refine ⟨before, during ++ more, by simp, ?_⟩
      intro e he
      exact (List.mem_append.mp he).elim (hother e) (hmore e)
  | done op r =>
      obtain ⟨before, during, after, q, q', rfl, hlegal, hvalue, hother⟩ := h
      refine ⟨before, during, after ++ more, q, q', by simp, hlegal, hvalue, ?_⟩
      intro e he
      rw [← List.append_assoc] at he
      exact (List.mem_append.mp he).elim (hother e) (hmore e)

/-- The thread of the step, and everybody else. -/
theorem progress_update {legal : Op → Q → R → Q → Prop} {q₀ : Q} {t : τ}
    {history more : List (Seen τ Op R Q)} {phase : τ → Phase Op R} {phase' : Phase Op R}
    (h : ∀ u, Progress legal q₀ history u (phase u)) (hmore : ∀ e ∈ more, e.thread = t)
    (ht : Progress legal q₀ (history ++ more) t phase') (u : τ) :
    Progress legal q₀ (history ++ more) u (Function.update phase t phase' u) := by
  by_cases hut : u = t
  · subst hut
    rwa [Function.update_self]
  · rw [Function.update_of_ne hut]
    exact (h u).append fun e he heq => hut (heq.symm.trans (hmore e he))

theorem AtomicRun.progress {legal : Op → Q → R → Q → Prop} {q₀ q : Q}
    {history : List (Seen τ Op R Q)} {phase : τ → Phase Op R}
    (h : AtomicRun legal q₀ history q phase) (u : τ) :
    Progress legal q₀ history u (phase u) := by
  induction h generalizing u with
  | start => trivial
  | @call history q phase h t ht op ih =>
      have hown : Progress legal q₀ (history ++ [.called t op]) t (.pending op) :=
        ⟨history, [], rfl, by simp⟩
      exact progress_update ih (by simp [Seen.thread]) hown u
  | @commit history q q' phase h t op r ht hlegal ih =>
      have hpending := ih t
      rw [ht] at hpending
      obtain ⟨before, during, rfl, hother⟩ := hpending
      have hown : Progress legal q₀ (before ++ .called t op :: during ++ effect t q q') t
          (.done op r) :=
        ⟨before, during, [], q, q', by simp, hlegal, h.value, by simpa using hother⟩
      exact progress_update ih (fun e he => mem_effect he) hown u
  | @ret history q phase h t op r ht ih =>
      have hown : Progress legal q₀ (history ++ [.returned t op r]) t .idle := trivial
      exact progress_update ih (by simp [Seen.thread]) hown u

section

omit [DecidableEq Q] [DecidableEq τ]

theorem split_append {history more earlier later : List (Seen τ Op R Q)} {e : Seen τ Op R Q}
    (heq : history ++ more = earlier ++ e :: later) (he : e ∉ more) :
    ∃ later', history = earlier ++ e :: later' := by
  rcases List.append_eq_append_iff.mp heq with ⟨rest, -, hmore⟩ | ⟨rest, hhistory, hrest⟩
  · exact absurd (by simp [hmore]) he
  · cases rest with
    | nil => exact absurd (by simp [← show e :: later = more from hrest]) he
    | cons first rest =>
        obtain ⟨rfl, -⟩ := List.cons.inj hrest
        exact ⟨rest, hhistory⟩

end

omit [DecidableEq τ] in
/-- What is seen of a step by which no call returns. -/
theorem TakesEffectOnce.append {legal : Op → Q → R → Q → Prop} {q₀ : Q}
    {history more : List (Seen τ Op R Q)} (h : TakesEffectOnce legal q₀ history)
    (hmore : ∀ t op r, .returned t op r ∉ more) : TakesEffectOnce legal q₀ (history ++ more) := by
  intro earlier later t op r heq
  obtain ⟨later', heq'⟩ := split_append heq (hmore t op r)
  exact h earlier later' t op r heq'

theorem AtomicRun.takesEffectOnce {legal : Op → Q → R → Q → Prop} {q₀ q : Q}
    {history : List (Seen τ Op R Q)} {phase : τ → Phase Op R}
    (h : AtomicRun legal q₀ history q phase) : TakesEffectOnce legal q₀ history := by
  induction h with
  | start =>
      intro earlier later t op r heq
      simp at heq
  | call h ht op ih => exact ih.append (by simp)
  | @commit history q q' phase h t op r ht hlegal ih =>
      refine ih.append ?_
      intro u op' r' he
      unfold effect at he
      split at he <;> simp at he
  | @ret history q phase h t op r ht ih =>
      intro earlier later u op' r' heq
      rcases List.eq_nil_or_concat later with rfl | ⟨later, last, rfl⟩
      · -- the call that has just returned
        obtain ⟨rfl, hlast⟩ := List.append_inj' heq rfl
        cases hlast
        have hdone := h.progress t
        rw [ht] at hdone
        exact hdone
      · have hinit : history = earlier ++ .returned u op' r' :: later := by
          have heq' : history ++ [.returned t op r] =
              (earlier ++ .returned u op' r' :: later) ++ [last] := by simpa using heq
          exact (List.append_inj' heq' rfl).1
        exact ih earlier later u op' r' hinit

end

end Concurrency
