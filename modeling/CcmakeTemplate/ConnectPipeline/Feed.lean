import CcmakeTemplate.ConnectPipeline.Steps
import Mathlib.Data.List.ReduceOption

/-!
# The jobs of a connection

A connection is to feed its pipeline with what its factory makes, one call after the other.
The observer pool has two workers, and both may run the observer of the same connection, a
late copy from one tick and an early one from the next. As long as a worker calls the factory
only after the other has passed its job on, the calls are those of one thread and the jobs
arrive in their order.
-/

namespace ConnectPipeline

open Concurrency

variable {F G H σ I O : Type} {p : Program F σ I O}

/-! ## The factory alone -/

/-- `n` calls of a factory, one after the other: what they return, and the memory they
leave. -/
def calls (factory : σ → Option I × σ) (memory : σ) : ℕ → List (Option I) × σ
  | 0 => ([], memory)
  | n + 1 =>
      let (results, memory) := calls factory memory n
      (results ++ [(factory memory).1], (factory memory).2)

theorem calls_succ {factory : σ → Option I × σ} {memory left left' : σ} {results : List (Option I)}
    {job : Option I} (h : calls factory memory results.length = (results, left))
    (hcall : factory left = (job, left')) :
    calls factory memory (results ++ [job]).length = (results ++ [job], left') := by
  rw [List.length_append, List.length_singleton, calls, h]
  simp only [hcall]

/-! ## One observer at a time -/

/-- The connection whose factory the worker has called without passing the job on yet. -/
def ObserverPc.serves : ObserverPc σ I → Option ℕ
  | .inFactory k _ | .addJob k _ => some k
  | _ => none

/-- The connection whose factory worker `i` of the pool is about to call. -/
def State.begins (s : State F G H σ I O) (i : ℕ) : Option ℕ :=
  match s.observerPc i with
  | .enter => s.runs i
  | _ => none

/-- A worker calls the factory of a connection only while no other worker is between its
call of that factory and its call of `addJob`. -/
def Serial (s : State F G H σ I O) : Action F G I H → Prop
  | .observer i =>
      ∀ k ∈ s.begins i, ∀ j < TickObservers.poolSize, (s.observerPc j).serves ≠ some k
  | _ => True

instance (s : State F G H σ I O) (a : Action F G I H) : Decidable (Serial s a) :=
  match a with
  | .observer i =>
      inferInstanceAs (Decidable (∀ k ∈ s.begins i, ∀ j < TickObservers.poolSize,
        (s.observerPc j).serves ≠ some k))
  | .ticks _ | .connectPipeline _ | .pipe _ => inferInstanceAs (Decidable True)

structure Fed (p : Program F σ I O) (s : State F G H σ I O) (k : ℕ) : Prop where
  alone : ∀ i j, (s.observerPc i).serves = some k → (s.observerPc j).serves = some k → i = j
  read : ∀ i read, s.observerPc i = .inFactory k read → read = s.memory k
  called : calls (p.factory k) (p.memory k) (s.results k).length = (s.results k, s.memory k)
  waiting : ∀ i job, s.observerPc i = .addJob k job →
    (s.results k).reduceOption = s.passed k ++ [job]
  done : (∀ i job, s.observerPc i ≠ .addJob k job) → (s.results k).reduceOption = s.passed k

variable {s t : State F G H σ I O} {i k : ℕ}

/-- A step of a worker that serves another connection, or none. -/
theorem Fed.go (hs : Fed p s k) {pc : ObserverPc σ I}
    (hpc : t.observerPc = Function.update s.observerPc i pc)
    (hframe : t.memory k = s.memory k ∧ t.results k = s.results k ∧ t.passed k = s.passed k)
    (hold : (s.observerPc i).serves ≠ some k) (hnew : pc.serves ≠ some k) : Fed p t k := by
  obtain ⟨hmemory, hresults, hpassed⟩ := hframe
  have hsame : ∀ j pc', pc'.serves = some k → (t.observerPc j = pc' ↔ s.observerPc j = pc') := by
    intro j pc' hserves
    by_cases hj : j = i
    · subst hj
      rw [hpc, Function.update_self]
      constructor
      · rintro rfl
        exact absurd hserves hnew
      · rintro rfl
        exact absurd hserves hold
    · rw [hpc, Function.update_of_ne hj]
  have hserves : ∀ j, (t.observerPc j).serves = some k → (s.observerPc j).serves = some k := by
    intro j hj
    rw [(hsame j _ hj).mp rfl]
    exact hj
  constructor
  · exact fun j j' hj hj' => hs.alone j j' (hserves j hj) (hserves j' hj')
  · intro j read hj
    rw [hmemory]
    exact hs.read j read ((hsame j _ rfl).mp hj)
  · rw [hresults, hmemory]
    exact hs.called
  · intro j job hj
    rw [hresults, hpassed]
    exact hs.waiting j job ((hsame j _ rfl).mp hj)
  · intro hnobody
    rw [hresults, hpassed]
    exact hs.done fun j job hj => hnobody j job ((hsame j _ rfl).mpr hj)

/-- A worker gets on with the connection, which no other worker serves. -/
theorem Fed.gets_on (hothers : ∀ j, j ≠ i → (s.observerPc j).serves ≠ some k)
    {pc : ObserverPc σ I} (hpc : t.observerPc = Function.update s.observerPc i pc)
    (hread : ∀ read, pc = .inFactory k read → read = t.memory k)
    (hcalled : calls (p.factory k) (p.memory k) (t.results k).length = (t.results k, t.memory k))
    (hwaiting : ∀ job, pc = .addJob k job → (t.results k).reduceOption = t.passed k ++ [job])
    (hdone : (∀ job, pc ≠ .addJob k job) → (t.results k).reduceOption = t.passed k) :
    Fed p t k := by
  have hself : ∀ j pc', t.observerPc j = pc' → pc'.serves = some k → j = i ∧ pc = pc' := by
    rintro j pc' rfl hserves
    by_cases hj : j = i
    · subst hj
      exact ⟨rfl, by rw [hpc, Function.update_self]⟩
    · rw [hpc, Function.update_of_ne hj] at hserves
      exact absurd hserves (hothers j hj)
  constructor
  · intro j j' hj hj'
    exact (hself j _ rfl hj).1.trans (hself j' _ rfl hj').1.symm
  · intro j read hj
    exact hread read (hself j _ hj rfl).2
  · exact hcalled
  · intro j job hj
    exact hwaiting job (hself j _ hj rfl).2
  · intro hnobody
    refine hdone fun job heq => hnobody i job ?_
    rw [hpc, Function.update_self, heq]

theorem Fed.others (hs : Fed p s k) (hi : (s.observerPc i).serves = some k) :
    ∀ j, j ≠ i → (s.observerPc j).serves ≠ some k :=
  fun j hj hserves => hj (hs.alone j i hserves hi)

/-- While a worker is in the factory, every job made so far has been passed on. -/
theorem Fed.passed (hs : Fed p s k) {read : σ} (hpc : s.observerPc i = .inFactory k read) :
    (s.results k).reduceOption = s.passed k := by
  refine hs.done fun j job hj => ?_
  have hij := hs.alone i j (by rw [hpc]; rfl) (by rw [hj]; rfl)
  subst hij
  cases hpc.symm.trans hj

theorem Fed.observer (hs : Fed p s k) (hserial : Serial s (.observer i : Action F G I H))
    (hlt : ∀ j, TickObservers.poolSize ≤ j → s.observerPc j = .enter)
    (h : ObserverStep p i s t) : Fed p t k := by
  cases h with
  | @begins k' hruns hpc =>
      by_cases hk : k' = k
      · subst hk
        -- nobody else serves the connection when the factory is called
        have hfree : ∀ j, (s.observerPc j).serves ≠ some k' := by
          intro j
          by_cases hj : j < TickObservers.poolSize
          · refine hserial k' ?_ j hj
            simp [State.begins, hpc, hruns]
          · rw [hlt j (not_lt.mp hj)]
            nofun
        refine .gets_on (i := i) (fun j _ => hfree j) rfl ?_ hs.called nofun fun _ => ?_
        · rintro read heq
          cases heq
          rfl
        · refine hs.done fun j job hj => hfree j ?_
          rw [hj]
          rfl
      · refine hs.go (i := i) rfl ⟨rfl, rfl, rfl⟩ (by rw [hpc]; nofun) fun heq => hk ?_
        exact Option.some.inj heq
  | @throws k' read memory hpc hcall =>
      by_cases hk : k' = k
      · subst hk
        -- alone in the factory, it has read what the last call left
        have hread := hs.read i read hpc
        subst hread
        refine .gets_on (hs.others (i := i) (by rw [hpc]; rfl)) rfl nofun ?_ nofun fun _ => ?_
        · simp only [Function.update_self]
          exact calls_succ hs.called hcall
        · simp [List.reduceOption_append, hs.passed hpc]
      · refine hs.go (i := i) rfl ?_ ?_ nofun
        · simp only [Function.update_of_ne (Ne.symm hk), and_self]
        · rw [hpc]
          exact fun heq => hk (Option.some.inj heq)
  | @returns k' read memory job hpc hcall =>
      by_cases hk : k' = k
      · subst hk
        have hread := hs.read i read hpc
        subst hread
        refine .gets_on (hs.others (i := i) (by rw [hpc]; rfl)) rfl nofun ?_ ?_ ?_
        · simp only [Function.update_self]
          exact calls_succ hs.called hcall
        · rintro job' heq
          cases heq
          simp [List.reduceOption_append, hs.passed hpc]
        · exact fun hno => absurd rfl (hno job)
      · refine hs.go (i := i) rfl ?_ ?_ ?_
        · simp only [Function.update_of_ne (Ne.symm hk), and_self]
        · rw [hpc]
          exact fun heq => hk (Option.some.inj heq)
        · exact fun heq => hk (Option.some.inj heq)
  | @passes k' job pipe hpc h =>
      by_cases hk : k' = k
      · subst hk
        have hothers := hs.others (i := i) (by rw [hpc]; rfl)
        refine .gets_on hothers rfl nofun hs.called nofun fun _ => ?_
        simp only [Function.update_self]
        exact hs.waiting i job hpc
      · refine hs.go (i := i) rfl ?_ ?_ nofun
        · simp only [Function.update_of_ne (Ne.symm hk), and_self]
        · rw [hpc]
          exact fun heq => hk (Option.some.inj heq)
  | back hpc => exact hs.go (i := i) rfl ⟨rfl, rfl, rfl⟩ (by rw [hpc]; nofun) nofun

theorem Fed.of_reach {s : State F G H σ I O} (h : (machine p).ReachBy Serial s) (k : ℕ) :
    Fed p s k := by
  refine h.invariant (P := fun s => Fed p s k) ?_ ?_
  · rintro s rfl
    exact ⟨nofun, nofun, rfl, nofun, fun _ => rfl⟩
  · intro s a t hreach hs hserial hst
    have hidle := idle_enter hreach.reach
    cases step_cases hst with
    | ticks | connect | pipe => exact ⟨hs.alone, hs.read, hs.called, hs.waiting, hs.done⟩
    | @finish i outcome ticks hends h =>
        refine hs.go (i := i) rfl ⟨rfl, rfl, rfl⟩ ?_ nofun
        cases hruns : s.runs i with
        | none =>
            rw [hidle i hruns]
            nofun
        | some k' =>
            simp only [State.ends, hruns] at hends
            generalize s.observerPc i = pc at hends
            cases pc with
            | leave => nofun
            | _ => cases hends
    | @observer i t hruns h =>
        refine hs.observer hserial (fun j hj => hidle j ?_) h
        cases hj' : s.runs j with
        | none => rfl
        | some k' => exact absurd (runs_lt hreach.reach hj') (not_lt.mpr hj)

/-! ## In the order of the calls -/

theorem inFactory_serves {s : State F G H σ I O} (h : s.inFactory k i = true) :
    (s.observerPc i).serves = some k := by
  simp only [State.inFactory] at h
  generalize s.observerPc i = pc at h
  cases pc with
  | inFactory k' read => exact congrArg some (of_decide_eq_true h)
  | _ => cases h

/-- What was made and not passed on is in the hands of a worker. -/
theorem Fed.held (hs : Fed p s k) : ∃ held : Option I,
    (s.results k).reduceOption = s.passed k ++ held.toList ∧
      ∀ job ∈ held, ∃ i, s.observerPc i = .addJob k job := by
  by_cases hwaiting : ∃ i job, s.observerPc i = .addJob k job
  · obtain ⟨i, job, hpc⟩ := hwaiting
    refine ⟨some job, hs.waiting i job hpc, ?_⟩
    rintro job' ⟨⟩
    exact ⟨i, hpc⟩
  · refine ⟨none, ?_, nofun⟩
    rw [Option.toList_none, List.append_nil]
    exact hs.done fun i job hpc => hwaiting ⟨i, job, hpc⟩

/-- What the jobs of connection `k` are to look like: the factory calls do not overlap, they
return what calls one after the other return, and their jobs are passed to `addJob` in this
order, all but one that is still in the hands of a worker. -/
structure InOrder (p : Program F σ I O) (s : State F G H σ I O) (k : ℕ) : Prop where
  alone : ∀ i j, s.inFactory k i = true → s.inFactory k j = true → i = j
  sequential : s.results k = (calls (p.factory k) (p.memory k) (s.results k).length).1
  passed : ∃ held : Option I, (s.results k).reduceOption = s.passed k ++ held.toList ∧
    ∀ job ∈ held, ∃ i, s.observerPc i = .addJob k job

theorem Fed.inOrder (hs : Fed p s k) : InOrder p s k := by
  refine ⟨fun i j hi hj => ?_, ?_, hs.held⟩
  · exact hs.alone i j (inFactory_serves hi) (inFactory_serves hj)
  · rw [hs.called]

/-- So it is in every run in which a worker calls the factory of a connection only while no
other worker is between its call of that factory and its call of `addJob`. -/
theorem fed_in_order {s : State F G H σ I O} (h : (machine p).ReachBy Serial s) (k : ℕ) :
    InOrder p s k := (Fed.of_reach h k).inOrder

/-- Two ticks whose observers run on different workers, one after the other. -/
theorem fed_in_order_two : ∃ s : State Unit Unit Unit ℕ ℕ ℕ, s.passed 0 = [1, 2] ∧
    InOrder doublePipe s 0 := by
  obtain ⟨s, hs, hread⟩ := Machine.ReachBy.of_exec (M := machine doublePipe) (G := Serial)
    (State.initial doublePipe)
    (runConnected ++ runRound ++ runObserver 0 3 ++ runPeriod ++ runRound ++ runObserver 1 3)
    (fun s : State Unit Unit Unit ℕ ℕ ℕ => s.passed 0 = [1, 2]) rfl (by decide +kernel)
  exact ⟨s, hread, fed_in_order hs 0⟩

/-- The observer of the first tick is slow, and the other worker takes the one of the second
tick: both are inside the factory at once, and job 1 is passed on twice. -/
theorem factory_called_twice : ∃ s t : State Unit Unit Unit ℕ ℕ ℕ,
    (machine doublePipe).ReachBy OneControl s ∧ (machine doublePipe).RunBy OneControl s t ∧
      (s.inFactory 0 0 = true ∧ s.inFactory 0 1 = true) ∧ t.passed 0 = [1, 1] ∧
      ¬ InOrder doublePipe s 0 ∧ ¬ InOrder doublePipe t 0 := by
  -- from there on both workers return and call `addJob`
  let rest : List (Action Unit Unit ℕ Unit) := [.observer 0, .observer 1, .observer 0, .observer 1]
  obtain ⟨s, hs, ⟨hone, hother⟩, hrest⟩ := Machine.ReachBy.of_exec (M := machine doublePipe)
    (G := OneControl) (State.initial doublePipe)
    (runConnected ++ runRound ++ runObserver 0 1 ++ runPeriod ++ runRound ++ runObserver 1 1)
    (fun s : State Unit Unit Unit ℕ ℕ ℕ =>
      (s.inFactory 0 0 = true ∧ s.inFactory 0 1 = true) ∧
        ((machine doublePipe).exec OneControl s rest).any (fun t =>
          decide (t.passed 0 = [1, 1] ∧ t.results 0 = [some 1, some 1])) = true)
    rfl (by decide +kernel)
  obtain ⟨t, hrun, hpassed, hresults⟩ := Machine.RunBy.of_schedule hrest
  refine ⟨s, t, hs, hrun, ⟨hone, hother⟩, hpassed, fun hno => ?_, fun hno => ?_⟩
  · exact absurd (hno.alone 0 1 hone hother) (by decide)
  · have hsequential := hno.sequential
    rw [hresults] at hsequential
    exact absurd hsequential (by decide)

/-! ## The counter of the documentation -/

theorem calls_counter (n : ℕ) : calls counter 1 n = ((List.range' 1 n).map some, n + 1) := by
  induction n with
  | zero => rfl
  | succ n ih =>
      rw [calls, ih, List.range'_concat]
      simp [counter, add_comm]

/-- It yields the jobs 1, 2, 3 and so on in this order, none repeated and none skipped. -/
theorem counter_in_order {p : Program F ℕ ℕ O} {s : State F G H ℕ ℕ O}
    (h : (machine p).ReachBy Serial s) (hfactory : p.factory k = counter)
    (hmemory : p.memory k = 1) : s.passed k = List.range' 1 (s.passed k).length := by
  have hs := Fed.of_reach h k
  obtain ⟨held, hheld, -⟩ := hs.held
  have hresults := hs.called
  rw [hfactory, hmemory, calls_counter] at hresults
  have hjobs : (s.results k).reduceOption = List.range' 1 (s.results k).length := by
    conv_lhs => rw [← (Prod.mk.inj hresults).1]
    simp [List.reduceOption, List.filterMap_map]
  have hprefix : s.passed k <+: List.range' 1 (s.results k).length :=
    ⟨held.toList, hheld.symm.trans hjobs⟩
  have htake := List.prefix_iff_eq_take.mp hprefix
  have hle : (s.passed k).length ≤ (s.results k).length := by simpa using hprefix.length_le
  rwa [List.take_range'_of_length_ge hle] at htake

end ConnectPipeline
