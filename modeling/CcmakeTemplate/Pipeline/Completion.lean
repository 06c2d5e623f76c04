import CcmakeTemplate.Pipeline.Numbered

/-!
# `getQueueCount` as a completion test

Three zeros mean that every job is finished and its product has left `queue_output`. They
do not mean that the callback has returned, or has been called at all: a product that a
callback worker has popped is counted nowhere. So the zeros tell that the jobs added before
the call are done exactly when no callback worker has one of them in hand.

Which job a product belongs to cannot be read off the product, so the jobs are numbered.
-/

namespace Pipeline

open Concurrency

variable {I O F : Type}

/-! ## What is done -/

/-- The jobs whose `addJob` has returned. The owner of `mutex_process` may have pushed its
job and not returned. -/
def State.completed (s : State I O F) : List I :=
  match s.mutex_process with
  | some u =>
      match s.doing u with
      | .addJobNotify | .addJobUnlock => s.added.dropLast
      | _ => s.added
  | none => s.added

/-- The product that the callback is running on. -/
def CallbackPc.delivering : CallbackPc I O F → Option O
  | .inCallback _ product _ => some product
  | _ => none

theorem State.completed_prefix (s : State I O F) : s.completed <+: s.added := by
  unfold State.completed
  split
  · split
    · exact List.dropLast_prefix _
    · exact List.dropLast_prefix _
    · exact List.prefix_rfl
  · exact List.prefix_rfl

theorem State.completed_map {I' O' : Type} (f : I → I') (g : O → O') (s : State I O F) :
    (s.map f g).completed = s.completed.map f := by
  unfold State.completed
  rw [show (s.map f g).mutex_process = s.mutex_process from rfl]
  cases s.mutex_process with
  | none => rfl
  | some u =>
      simp only [State.map_doing]
      cases s.doing u <;> first | rfl | exact (List.map_dropLast ..).symm

theorem Step.added_grows {process : I → O} {s t : State I O F} {a : Action I F}
    (h : Step process s a t) : s.added <+: t.added := by
  rw [h.added]
  exact List.prefix_append _ _

namespace State

variable (s : State (ℕ × I) (ℕ × O) F) (n : ℕ)

/-- The call `addJob` of job `n` has returned. -/
def Completed : Prop := n ∈ s.completed.map Prod.fst

/-- `getProduct` has returned the product of job `n`. -/
def Taken : Prop := n ∈ s.fetched.map Prod.fst

/-- A callback worker has popped the product of job `n`, and the callback has not returned. -/
def InHand : Prop :=
  ∃ i product, (s.callbackPc i).holding = some (n, product) ∨
    (s.callbackPc i).delivering = some (n, product)

/-- The callback was invoked on the product of job `n` and has returned. -/
def Delivered : Prop :=
  (∃ f product, (f, (n, product)) ∈ s.invoked) ∧
    ∀ i f product call, s.callbackPc i ≠ .inCallback f (n, product) call

end State

/-! ## What three zeros tell -/

/-- When `getQueueCount` returns zeros, each product is in the hands of a callback worker, was
fetched, or the callback was invoked on it. -/
theorem zero_count {process : I → O} {workerCnt : ℕ} {s : State I O F} {u : Thread}
    (h : (machine process workerCnt).ReachBy Apart s) (hpc : s.doing u = .countUnlock 0 0 0) :
    (s.added.map process : Multiset O) =
      inHands (s.hired .callback) (fun i => (s.callbackPc i).holding) +
        (s.fetched : Multiset O) + (s.invoked.map Prod.snd : Multiset O) := by
  obtain ⟨⟨hpending, hfinished⟩, hmaking, -⟩ := counted h hpc
  have hmakers : inHands (s.hired .process) (fun i => (s.processPc i).making process) = 0 :=
    Multiset.card_eq_zero.mp (Nat.le_zero.mp hmaking)
  have hconserved := ledger (h.mono fun _ _ h => h.1)
  rw [List.eq_nil_of_length_eq_zero hpending.symm, hmakers,
    List.eq_nil_of_length_eq_zero hfinished.symm] at hconserved
  simpa only [List.map_nil, Multiset.coe_nil, zero_add] using hconserved

/-- The products that the callback workers hold, looked up by number. -/
theorem mem_holding {s : State (ℕ × I) (ℕ × O) F} (hborn : Unborn s) {n : ℕ} :
    n ∈ (inHands (s.hired .callback) fun i => (s.callbackPc i).holding).map Prod.fst ↔
      ∃ i product, (s.callbackPc i).holding = some (n, product) := by
  constructor
  · intro hmem
    obtain ⟨⟨n', product⟩, hheld, rfl⟩ := Multiset.mem_map.mp hmem
    obtain ⟨i, -, hi⟩ := Multiset.mem_sum.mp hheld
    refine ⟨i, product, ?_⟩
    rwa [Multiset.mem_coe, Option.mem_toList] at hi
  · rintro ⟨i, product, hi⟩
    have hired : i < s.hired .callback := by
      by_contra hno
      rw [hborn.callback i (not_lt.mp hno)] at hi
      cases hi
    refine Multiset.mem_map.mpr ⟨(n, product), Multiset.mem_sum.mpr ⟨i, ?_, ?_⟩, rfl⟩
    · exact Finset.mem_range.mpr hired
    · rw [Multiset.mem_coe, Option.mem_toList]
      exact hi

/-- Each job is in one place, so an invoked one is in the hands of a callback worker only while
its callback runs. -/
theorem numbered_zero_count {process : I → O} {workerCnt : ℕ} {s : State (ℕ × I) (ℕ × O) F}
    {u : Thread} (h : (machine (numbered process) workerCnt).ReachBy Apart s)
    (hdistinct : (s.added.map Prod.fst).Nodup) (hpc : s.doing u = .countUnlock 0 0 0) {n : ℕ}
    (hn : n ∈ s.added.map Prod.fst) (htaken : ¬ s.Taken n) :
    s.Delivered n ↔ ¬ s.InHand n := by
  have hplaces := congrArg (Multiset.map Prod.fst) (zero_count h hpc)
  have hadded : (s.added.map (numbered process)).map Prod.fst = s.added.map Prod.fst := by
    rw [List.map_map]
    rfl
  rw [Multiset.map_coe, hadded, Multiset.map_add, Multiset.map_add, Multiset.map_coe,
    Multiset.map_coe, List.map_map] at hplaces
  have hapart := hdistinct
  rw [← Multiset.coe_nodup, hplaces, Multiset.nodup_add] at hapart
  obtain ⟨-, -, hapart⟩ := hapart
  have hinvoked : n ∈ s.invoked.map (Prod.fst ∘ Prod.snd) ↔
      ∃ f product, (f, (n, product)) ∈ s.invoked := by
    simp only [List.mem_map, Function.comp_apply, Prod.exists, exists_and_right,
      exists_eq_right]
  constructor
  · rintro ⟨hcalled, hreturned⟩ ⟨i, product, hheld | hrunning⟩
    · refine Multiset.disjoint_left.mp hapart (Multiset.mem_add.mpr (.inl ?_))
        (Multiset.mem_coe.mpr (hinvoked.mpr hcalled))
      exact (mem_holding (unborn h)).mpr ⟨i, product, hheld⟩
    · cases hpc : s.callbackPc i with
      | inCallback f product' call =>
          rw [hpc] at hrunning
          cases hrunning
          exact hreturned i f product call hpc
      | _ =>
          rw [hpc] at hrunning
          cases hrunning
  · intro hfree
    refine ⟨hinvoked.mp ?_, ?_⟩
    · rw [← Multiset.mem_coe, hplaces, Multiset.mem_add, Multiset.mem_add] at hn
      rcases hn with (hheld | hfetched) | hcalled
      · obtain ⟨i, product, hi⟩ := (mem_holding (unborn h)).mp hheld
        exact absurd ⟨i, product, .inl hi⟩ hfree
      · exact absurd hfetched htaken
      · exact hcalled
    · intro i f product call hpc
      exact hfree ⟨i, product, .inr (by rw [hpc]; rfl)⟩

/-- When `getQueueCount` returns zeros, the callback has returned for every job that was
completed at an earlier moment `s`, such as the start of the call, and not taken with
`getProduct`, exactly when no callback worker has one of these jobs in hand. The jobs are told
apart by numbers; every run has such numbers. -/
theorem zero_count_iff {process : I → O} {workerCnt : ℕ} {s t : State I O F} {u : Thread}
    (h : (machine process workerCnt).ReachBy Apart s)
    (hrun : (machine process workerCnt).RunBy Apart s t)
    (hpc : t.doing u = .countUnlock 0 0 0) :
    (∃ s' t', NumberedRun process workerCnt s t s' t') ∧
      ∀ s' t', NumberedRun process workerCnt s t s' t' → (∀ n, s'.Completed n → ¬ t'.Taken n) →
        ((∀ n, s'.Completed n → t'.Delivered n) ↔ ∀ n, s'.Completed n → ¬ t'.InHand n) := by
  refine ⟨numbered_run h hrun, ?_⟩
  intro s' t' hnumbered htaken
  have hreach := hnumbered.reach.run hnumbered.run
  have hpc' : t'.doing u = .countUnlock 0 0 0 := by
    rw [← hnumbered.after, State.map_doing] at hpc
    cases hcall : t'.doing u <;> rw [hcall] at hpc <;> cases hpc
    rfl
  have hadded : s'.completed <+: t'.added := by
    refine s'.completed_prefix.trans ?_
    exact hnumbered.run.relation (R := fun s t : State (ℕ × I) (ℕ × O) F => s.added <+: t.added)
      (fun _ => List.prefix_rfl) fun _ _ _ _ hsofar _ hst =>
        hsofar.trans (step_cases hst).added_grows
  refine forall₂_congr fun n hn => ?_
  exact numbered_zero_count hreach hnumbered.distinct hpc'
    ((hadded.map Prod.fst).subset hn) (htaken n hn)

/-- The callback of a job has returned before `getQueueCount` is called. -/
theorem zero_count_iff_returned :
    ∃ (s t : State ℕ ℕ Unit) (s' t' : State (ℕ × ℕ) (ℕ × ℕ) Unit),
      (s.clientPc 0 = .countLock ∧ s.completed = [1] ∧ t.clientPc 0 = .countUnlock 0 0 0 ∧
        t.callbackPc 0 = .loop) ∧
      NumberedRun (· + 1) 1 s t s' t' ∧
      ((∀ n, s'.Completed n → t'.Delivered n) ↔ ∀ n, s'.Completed n → ¬ t'.InHand n) := by
  obtain ⟨s, hs, hpc, hdone, hrest⟩ := Machine.ReachBy.of_exec (M := machine (· + 1) 1)
    (G := Steady) (State.initial 1)
    (runConstructor ++ runCall (.setCallback (some ())) 3 ++ runCall (.addJob 1) 4 ++
      runProcess 19 ++ runCallback 14 ++ [.call 0 .getQueueCount])
    (fun s : State ℕ ℕ Unit => s.clientPc 0 = .countLock ∧ s.completed = [1] ∧
      ((machine (· + 1) 1).exec Steady s (List.replicate 4 (.client 0 none))).any
        (fun t : State ℕ ℕ Unit => decide (t.clientPc 0 = .countUnlock 0 0 0 ∧
          t.callbackPc 0 = .loop ∧ t.fetched = [])) = true)
    rfl (by decide)
  obtain ⟨t, hrun, hzero, hloop, hfetched⟩ := Machine.RunBy.of_schedule hrest
  have hrun' := hrun.upgrade hs (fun _ _ h => h) fun _ _ hreach hG => hG.apart hreach
  obtain ⟨⟨s', t', hnumbered⟩, hiff⟩ := zero_count_iff (u := .client 0)
    (hs.upgrade fun _ _ hreach hG => hG.apart hreach) hrun' hzero
  refine ⟨s, t, s', t', ⟨hpc, hdone, hzero, hloop⟩, hnumbered, hiff s' t' hnumbered ?_⟩
  intro n _ htaken
  rw [← hnumbered.after] at hfetched
  rw [State.Taken, List.map_eq_nil_iff.mp hfetched] at htaken
  cases htaken

/-! ## A product that is counted nowhere -/

/-- Thread `u` stays in the call it is in. -/
def SameCall (u : Thread) (_ : State I O F) (a : Action I F) : Prop :=
  a.entry.map Prod.fst ≠ some u

instance (u : Thread) (s : State I O F) (a : Action I F) : Decidable (SameCall u s a) :=
  inferInstanceAs (Decidable (_ ≠ _))

/-- A callback is installed before the first job and never removed. -/
def Served (s : State I O F) (a : Action I F) : Prop :=
  (a.starts = .addJob → s.outputCallback.isSome = true) ∧ s.assigns a ≠ some none

instance (s : State I O F) (a : Action I F) [DecidableEq F] : Decidable (Served s a) :=
  inferInstanceAs (Decidable (_ ∧ _))

/-- The callback worker has popped the only product and not called the callback yet: the
three counters are zero. -/
theorem popped_product_not_counted :
    ¬ ∀ (s t : State ℕ ℕ Unit) (s' t' : State (ℕ × ℕ) (ℕ × ℕ) Unit),
      (machine (· + 1) 1).ReachBy (fun s a => Apart s a ∧ Served s a) s →
      s.clientPc 0 = .countLock →
      (machine (· + 1) 1).RunBy
        (fun s a => (Apart s a ∧ Served s a) ∧ SameCall (.client 0) s a) s t →
      t.clientPc 0 = .countUnlock 0 0 0 →
      NumberedRun (· + 1) 1 s t s' t' → (∀ n, s'.Completed n → ¬ t'.Taken n) →
      ∀ n, s'.Completed n → t'.Delivered n := by
  intro hall
  obtain ⟨s, hs, hpc, hdone, hrest⟩ := Machine.ReachBy.of_exec (M := machine (· + 1) 1)
    (G := fun s a => Steady s a ∧ Served s a) (State.initial 1)
    (runConstructor ++ runCall (.setCallback (some ())) 3 ++ runCall (.addJob 1) 4 ++
      runProcess 19 ++ runCallback 10 ++ [.call 0 .getQueueCount])
    (fun s : State ℕ ℕ Unit => s.clientPc 0 = .countLock ∧ s.completed = [1] ∧
      ((machine (· + 1) 1).exec
        (fun s a => (Steady s a ∧ Served s a) ∧ SameCall (.client 0) s a) s
        (List.replicate 4 (.client 0 none))).any (fun t : State ℕ ℕ Unit =>
          decide (t.clientPc 0 = .countUnlock 0 0 0 ∧ t.invoked = [] ∧ t.fetched = [])) = true)
    rfl (by decide)
  obtain ⟨t, hrun, hzero, hinvoked, hfetched⟩ := Machine.RunBy.of_schedule hrest
  have hsteady : (machine (· + 1) 1).ReachBy Steady s := hs.mono fun _ _ h => h.1
  have hs' : (machine (· + 1) 1).ReachBy (fun s a => Apart s a ∧ Served s a) s := hs.upgrade
    fun _ _ hreach hG => ⟨hG.1.apart (hreach.mono fun _ _ h => h.1), hG.2⟩
  have hrun' : (machine (· + 1) 1).RunBy
      (fun s a => (Apart s a ∧ Served s a) ∧ SameCall (.client 0) s a) s t := hrun.upgrade
    hsteady (fun _ _ h => h.1.1) fun _ _ hreach hG => ⟨⟨hG.1.1.apart hreach, hG.1.2⟩, hG.2⟩
  obtain ⟨s', t', hnumbered⟩ :=
    numbered_run (hs'.mono fun _ _ h => h.1) (hrun'.mono fun _ _ h => h.1.1)
  have hdone' : s'.completed.map Prod.snd = [1] := by
    rw [← State.completed_map Prod.snd Prod.snd, ← hdone]
    exact congrArg State.completed hnumbered.before
  obtain ⟨⟨n, job⟩, hjob⟩ : ∃ job, job ∈ s'.completed := by
    cases hlist : s'.completed with
    | nil =>
        rw [hlist] at hdone'
        cases hdone'
    | cons job rest => exact ⟨job, List.mem_cons_self⟩
  rw [← hnumbered.after] at hinvoked hfetched
  have hdelivered := hall s t s' t' hs' hpc hrun' hzero hnumbered ?_ n
    (List.mem_map.mpr ⟨(n, job), hjob, rfl⟩)
  · obtain ⟨⟨f, product, hcalled⟩, -⟩ := hdelivered
    rw [List.map_eq_nil_iff.mp hinvoked] at hcalled
    cases hcalled
  · intro k _ htaken
    rw [State.Taken, List.map_eq_nil_iff.mp hfetched] at htaken
    cases htaken

end Pipeline
