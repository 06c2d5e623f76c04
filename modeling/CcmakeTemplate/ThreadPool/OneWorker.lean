import CcmakeTemplate.ThreadPool.Submissions

/-!
# A pool with one worker

With one worker the ledger is an exact account: the tasks begun, and the one that is taken
and not yet begun, are those taken, in order; and each task ends before the next begins.
-/

namespace ThreadPool

open Concurrency

variable {T : Type} {threads : ℕ}

structure InTurn (s : State T) : Prop where
  begun : s.begun ++ (s.workerPc 0).ready.toList = s.taken.zipIdx
  finished : s.finished ++ (s.workerPc 0).executing.toList = s.begun

/-- A step that leaves the hands of worker 0 and the ledger alone. -/
theorem InTurn.same {s t : State T} (hs : InTurn s)
    (hready : (t.workerPc 0).ready = (s.workerPc 0).ready)
    (hexec : (t.workerPc 0).executing = (s.workerPc 0).executing)
    (hframe : t.begun = s.begun ∧ t.taken = s.taken ∧ t.finished = s.finished) : InTurn t := by
  obtain ⟨hbegun, htaken, hfinished⟩ := hframe
  constructor
  · rw [hbegun, htaken, hready]
    exact hs.begun
  · rw [hbegun, hfinished, hexec]
    exact hs.finished

theorem CallStep.ledger {u : Thread} {s t : State T} {pc : CallPc T} {call : Option (CallPc T)}
    (h : CallStep u s pc t call) :
    t.begun = s.begun ∧ t.taken = s.taken ∧ t.finished = s.finished := by
  cases h <;> exact ⟨rfl, rfl, rfl⟩

theorem InTurn.worker {s t : State T} (hs : InTurn s) (h : WorkerStep 0 s t) : InTurn t := by
  cases h with
  | go h | unlock h =>
      refine hs.same ?_ ?_ ⟨rfl, rfl, rfl⟩
      · rw [State.goWorker_self, h.hands.1]
      · rw [State.goWorker_self, h.hands.2]
  | lock hpc =>
      refine hs.same ?_ ?_ ⟨rfl, rfl, rfl⟩ <;>
      · rw [State.goWorker_self]
        rcases hpc with hpc | ⟨hpc, -⟩ <;> rw [hpc] <;> rfl
  | block hpc =>
      refine hs.same ?_ ?_ ⟨rfl, rfl, rfl⟩ <;>
      · rw [State.goWorker_self, hpc]
        rfl
  | @take task rest hpc htasks =>
      have hbegun := hs.begun
      have hfinished := hs.finished
      rw [hpc] at hbegun hfinished
      constructor
      · rw [State.goWorker_self, List.zipIdx_append, ← hbegun]
        simp [WorkerPc.ready]
      · rw [State.goWorker_self]
        exact hfinished
  | @begins task n hpc =>
      have hbegun := hs.begun
      have hfinished := hs.finished
      rw [hpc] at hbegun hfinished
      constructor
      · rw [State.goWorker_self]
        simpa [WorkerPc.ready] using hbegun
      · rw [State.goWorker_self]
        simpa [WorkerPc.executing] using hfinished
  | @ends task n hpc =>
      have hbegun := hs.begun
      have hfinished := hs.finished
      rw [hpc] at hbegun hfinished
      constructor
      · rw [State.goWorker_self]
        exact hbegun
      · rw [State.goWorker_self]
        simpa [WorkerPc.executing] using hfinished
  | nested hpc h =>
      refine hs.same ?_ ?_ h.ledger <;>
      · rw [State.goWorker_self, hpc]
        rfl

theorem InTurn.client {s t : State T} {c : ℕ} (hs : InTurn s) (hlife : Life threads s)
    (h : ClientStep threads c s t) : InTurn t := by
  have hsame : t.workerPc = s.workerPc := by
    rcases h.workerPc with ⟨hsame, -⟩ | ⟨-, -, hworker⟩
    · exact hsame
    · rw [hworker, ← hlife.idle _ le_rfl, Function.update_eq_self]
  refine hs.same (by rw [hsame]) (by rw [hsame]) ?_
  cases h with
  | call hpc h | returns hpc h => exact h.ledger
  | _ => exact ⟨rfl, rfl, rfl⟩

theorem InTurn.of_reach (hone : threads ≤ 1) {s : State T} (h : (machine threads).Reach s) :
    InTurn s := by
  refine h.invariant (P := InTurn) ?_ ?_
  · rintro s rfl
    exact ⟨rfl, rfl⟩
  · intro s a t hreach hs _ hst
    have hlife := Life.of_reach hreach
    have hstep := step_cases hst
    cases hstep with
    | @worker i wake t hi h =>
        obtain rfl : i = 0 := by
          have hcnt := hlife.upTo
          omega
        exact hs.worker h
    | client h => exact hs.client hlife h
    | @nest i n op task hpc hi =>
        by_cases h0 : i = 0
        · subst h0
          refine hs.same ?_ ?_ ⟨rfl, rfl, rfl⟩ <;>
          · rw [State.goWorker_self, hpc]
            rfl
        · have hother : (s.goWorker i (.running task n (some op.entry))).workerPc 0 =
              s.workerPc 0 := Function.update_of_ne (Ne.symm h0) ..
          exact hs.same (by rw [hother]) (by rw [hother]) ⟨rfl, rfl, rfl⟩
    | call | destroy | spurious => exact hs.same rfl rfl ⟨rfl, rfl, rfl⟩

/-- What has begun begins what was accepted. -/
theorem InTurn.begun_accepted {s : State T} (hs : InTurn s) (hledger : Ledger s) :
    s.begun.map Prod.fst <+: s.accepted := by
  have hbegun : s.begun <+: s.taken.zipIdx := ⟨_, hs.begun⟩
  have htaken := hbegun.map Prod.fst
  rw [List.zipIdx_map_fst] at htaken
  rw [hledger.fifo]
  exact htaken.trans (List.prefix_append _ _)

/-- No other worker ever executes anything. -/
theorem executing_first (hone : threads ≤ 1) {s : State T} (h : (machine threads).Reach s) {i : ℕ}
    (hi : i ≠ 0) : (s.workerPc i).executing = none := by
  have hlife := Life.of_reach h
  have hcnt := hlife.upTo
  rw [hlife.idle i (by omega)]
  rfl

end ThreadPool
