import Mathlib.Logic.Relation
import Mathlib.Data.Option.Basic

/-!
# Machines stepped by a scheduler

A machine is a set of initial states and a step function. The scheduler picks
the next action: which thread moves and how its open choices (which sleeper a
notification wakes, whether a weak exchange fails) are resolved. An action that
is not enabled steps to `none`. An interleaving is then a list of actions, so a
concrete schedule can be evaluated, and a statement about every interleaving is
a statement about every reachable state.

`ReachBy G` keeps the runs whose steps all satisfy a guard `G`: the calls that a
client promises to make or not to make, a scheduler without spurious wake-ups,
or the condition under which a defect stays away.
-/

namespace Concurrency

universe u v w x

structure Machine (σ : Type u) (α : Type v) where
  init : σ → Prop
  step : σ → α → Option σ

namespace Machine

variable {σ : Type u} {α : Type v} {τ : Type w} {β : Type x}

/-- The state after a list of actions, `none` when one of them is not enabled or
not permitted. -/
def exec (M : Machine σ α) (G : σ → α → Prop) [∀ s a, Decidable (G s a)] :
    σ → List α → Option σ
  | s, [] => some s
  | s, a :: as => if G s a then (M.step s a).bind fun t => M.exec G t as else none

/-- One step that the guard permits. -/
def StepBy (M : Machine σ α) (G : σ → α → Prop) (s t : σ) : Prop :=
  ∃ a, G s a ∧ M.step s a = some t

def RunBy (M : Machine σ α) (G : σ → α → Prop) : σ → σ → Prop :=
  Relation.ReflTransGen (M.StepBy G)

def ReachBy (M : Machine σ α) (G : σ → α → Prop) (t : σ) : Prop :=
  ∃ s, M.init s ∧ M.RunBy G s t

/-- Reachable under every schedule. -/
abbrev Reach (M : Machine σ α) : σ → Prop := M.ReachBy fun _ _ => True

variable {M : Machine σ α} {G : σ → α → Prop}

theorem ReachBy.start {s : σ} (h : M.init s) : M.ReachBy G s :=
  ⟨s, h, .refl⟩

theorem ReachBy.next {s t : σ} {a : α} (h : M.ReachBy G s) (hG : G s a)
    (hstep : M.step s a = some t) : M.ReachBy G t := by
  obtain ⟨s₀, hinit, hrun⟩ := h
  exact ⟨s₀, hinit, hrun.tail ⟨a, hG, hstep⟩⟩

theorem ReachBy.run {s t : σ} (h : M.ReachBy G s) (hrun : M.RunBy G s t) :
    M.ReachBy G t := by
  obtain ⟨s₀, hinit, hpre⟩ := h
  exact ⟨s₀, hinit, hpre.trans hrun⟩

theorem RunBy.mono {G' : σ → α → Prop} (hG : ∀ s a, G s a → G' s a) {s t : σ}
    (h : M.RunBy G s t) : M.RunBy G' s t := by
  have hle : M.StepBy G ≤ M.StepBy G' := fun _ _ ⟨a, ha, hst⟩ => ⟨a, hG _ a ha, hst⟩
  exact Relation.ReflTransGen.mono hle s t h

theorem ReachBy.mono {G' : σ → α → Prop} (hG : ∀ s a, G s a → G' s a) {s : σ}
    (h : M.ReachBy G s) : M.ReachBy G' s := by
  obtain ⟨s₀, hinit, hrun⟩ := h
  exact ⟨s₀, hinit, hrun.mono hG⟩

theorem ReachBy.reach {s : σ} (h : M.ReachBy G s) : M.Reach s :=
  h.mono fun _ _ _ => trivial

theorem RunBy.of_exec [∀ s a, Decidable (G s a)] {as : List α} :
    ∀ {s t : σ}, M.exec G s as = some t → M.RunBy G s t := by
  induction as with
  | nil =>
      intro s t h
      cases h
      exact .refl
  | cons a as ih =>
      intro s t h
      simp only [exec] at h
      split at h
      · rename_i hG
        obtain ⟨u, hu, ht⟩ := Option.bind_eq_some_iff.mp h
        exact .head ⟨a, hG, hu⟩ (ih ht)
      · cases h

/-- A concrete schedule, evaluated: `p` says what is read off its last state. -/
theorem RunBy.of_schedule [∀ s a, Decidable (G s a)] {s : σ} {as : List α} {p : σ → Prop}
    [DecidablePred p] (h : (M.exec G s as).any (fun t => decide (p t)) = true) :
    ∃ t, M.RunBy G s t ∧ p t := by
  obtain ⟨t, ht, hp⟩ := (Option.any_eq_true _ _).mp h
  exact ⟨t, .of_exec ht, of_decide_eq_true hp⟩

theorem ReachBy.of_exec [∀ s a, Decidable (G s a)] (s : σ) (as : List α) (p : σ → Prop)
    [DecidablePred p] (hinit : M.init s)
    (h : (M.exec G s as).any (fun t => decide (p t)) = true) : ∃ t, M.ReachBy G t ∧ p t := by
  obtain ⟨t, ht, hp⟩ := RunBy.of_schedule h
  exact ⟨t, ⟨s, hinit, ht⟩, hp⟩

/-! ## Invariants -/

/-- What a step lemma carries along a run. The step lemma may use that its
state is reachable, so proved invariants are at hand in the next one. -/
theorem ReachBy.invariant {P : σ → Prop} (hinit : ∀ s, M.init s → P s)
    (hstep : ∀ s a t, M.ReachBy G s → P s → G s a → M.step s a = some t → P t)
    {s : σ} (h : M.ReachBy G s) : P s := by
  obtain ⟨s₀, hs₀, hrun⟩ := h
  induction hrun with
  | refl => exact hinit s₀ hs₀
  | @tail s t hpre hlast ih =>
      obtain ⟨a, hG, hst⟩ := hlast
      exact hstep s a t ⟨s₀, hs₀, hpre⟩ ih hG hst

/-- Every step of a run from a reachable state also satisfies `G'`. -/
theorem RunBy.upgrade {G₀ G' : σ → α → Prop} {s t : σ} (h : M.RunBy G s t)
    (hreach : M.ReachBy G₀ s) (hle : ∀ s a, G s a → G₀ s a)
    (hG : ∀ s a, M.ReachBy G₀ s → G s a → G' s a) : M.RunBy G' s t := by
  induction h with
  | refl => exact .refl
  | @tail t u hpre hlast ih =>
      obtain ⟨a, hGa, hst⟩ := hlast
      have ht := hreach.run (RunBy.mono hle hpre)
      exact ih.tail ⟨a, hG t a ht hGa, hst⟩

theorem ReachBy.upgrade {G' : σ → α → Prop} {s : σ} (h : M.ReachBy G s)
    (hG : ∀ s a, M.ReachBy G s → G s a → G' s a) : M.ReachBy G' s := by
  obtain ⟨s₀, hinit, hrun⟩ := h
  exact ⟨s₀, hinit, hrun.upgrade (.start hinit) (fun _ _ h => h) hG⟩

/-- A relation that each step extends holds between the ends of a run. -/
theorem RunBy.relation {R : σ → σ → Prop} (hrefl : ∀ s, R s s)
    (hstep : ∀ s t a u, R s t → G t a → M.step t a = some u → R s u)
    {s t : σ} (h : M.RunBy G s t) : R s t := by
  induction h with
  | refl => exact hrefl s
  | @tail t u hpre hlast ih =>
      obtain ⟨a, hG, hst⟩ := hlast
      exact hstep s t a u ih hG hst

/-- What each step keeps, from any state on. -/
theorem RunBy.invariant {P : σ → Prop} {s t : σ} (h : M.RunBy G s t) (hs : P s)
    (hstep : ∀ s a t, P s → G s a → M.step s a = some t → P t) : P t := by
  induction h with
  | refl => exact hs
  | @tail t u hpre hlast ih =>
      obtain ⟨a, hG, hst⟩ := hlast
      exact hstep t a u ih hG hst

/-- What each step keeps or gives up still holds at the end of a run, or one step of the
run gave it up. -/
theorem RunBy.until {P : σ → Prop} {Q : σ → σ → Prop} {s t : σ} (h : M.RunBy G s t)
    (hreach : M.ReachBy G s) (hs : P s)
    (hstep : ∀ s a t, M.ReachBy G s → P s → G s a → M.step s a = some t → P t ∨ Q s t) :
    P t ∨ ∃ u v, M.RunBy G s u ∧ P u ∧ M.StepBy G u v ∧ Q u v ∧ M.RunBy G v t := by
  induction h with
  | refl => exact .inl hs
  | @tail t u hpre hlast ih =>
      rcases ih with ht | ⟨v, w, hv, hP, hstep', hQ, hw⟩
      · obtain ⟨a, hG, hst⟩ := hlast
        rcases hstep t a u (hreach.run hpre) ht hG hst with hu | hQ
        · exact .inl hu
        · exact .inr ⟨t, u, hpre, ht, ⟨a, hG, hst⟩, hQ, .refl⟩
      · exact .inr ⟨v, w, hv, hP, hstep', hQ, hw.tail hlast⟩

/-! ## Refinement -/

/-- `π` maps each permitted step of `M` to a step of `N` or to no step at all. -/
structure Refines (M : Machine σ α) (G : σ → α → Prop) (N : Machine τ β)
    (H : τ → β → Prop) (π : σ → τ) : Prop where
  init : ∀ s, M.init s → N.init (π s)
  step : ∀ s a t, M.ReachBy G s → G s a → M.step s a = some t →
    π t = π s ∨ ∃ b, H (π s) b ∧ N.step (π s) b = some (π t)

theorem Refines.reach {N : Machine τ β} {H : τ → β → Prop} {π : σ → τ}
    (hr : M.Refines G N H π) {s : σ} (h : M.ReachBy G s) : N.ReachBy H (π s) := by
  refine h.invariant (P := fun s => N.ReachBy H (π s))
    (fun s hs => .start (hr.init s hs)) ?_
  intro s a t hs ih hG hst
  rcases hr.step s a t hs hG hst with heq | ⟨b, hH, hb⟩
  · rw [heq]
    exact ih
  · exact ih.next hH hb

/-- Where each step of `N` is the image of one of `M`, each run of `N` is. -/
theorem RunBy.lift {N : Machine τ β} {H : τ → β → Prop} {π : σ → τ} {P : σ → Prop}
    (hlift : ∀ s b u, P s → H (π s) b → N.step (π s) b = some u →
      ∃ a t, G s a ∧ M.step s a = some t ∧ π t = u ∧ P t)
    {s : σ} (hs : P s) {u : τ} (h : N.RunBy H (π s) u) : ∃ t, M.RunBy G s t ∧ π t = u ∧ P t := by
  induction h with
  | refl => exact ⟨s, .refl, rfl, hs⟩
  | tail hpre hlast ih =>
      obtain ⟨t, hrun, rfl, ht⟩ := ih
      obtain ⟨b, hH, hst⟩ := hlast
      obtain ⟨a, t', hG, hstep, rfl, ht'⟩ := hlift t b _ ht hH hst
      exact ⟨t', hrun.tail ⟨a, hG, hstep⟩, rfl, ht'⟩

end Machine

end Concurrency
