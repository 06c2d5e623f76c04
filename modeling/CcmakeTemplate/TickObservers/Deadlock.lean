import CcmakeTemplate.PeriodicWork.Halting
import CcmakeTemplate.TickObservers.Components

/-!
# `periodicWork` never gets stuck

The wake-ups of `stop` and of the semaphore are those of `periodicWork` alone. For the
mutexes it is enough that their owners ask for nothing: in the component of the mutex by the
order of its steps, and in the other one because the thread is outside it. What is left are
joins, and nobody waits for the thread that joins.
-/

namespace TickObservers

open Concurrency

variable {F G : Type} {callback : Option F} {period maxLag : ℕ}

/-! ## Who waits for whom -/

inductive Request where
  | work (r : PeriodicWork.Request)
  | observers (r : MessageDistribute.Request)
deriving DecidableEq

namespace State

def asks (s : State F G) (u : PeriodicWork.Thread) : Request → Prop
  | .work r => s.work.asks u r
  | .observers r => ∃ v, inObservers u = some v ∧ s.tickObservers_.asks v r

def blocks (s : State F G) (u : PeriodicWork.Thread) : Request → Prop
  | .work r => s.work.blocks u r
  | .observers r => ∃ v, inObservers u = some v ∧ s.tickObservers_.blocks v r

end State

/-- The mutexes come after the ends of threads. -/
def Request.level : Request → ℕ
  | .work (.ended ..) => 0
  | _ => 1

def Request.isMutex : Request → Bool
  | .work (.ended ..) => false
  | _ => true

/-- The owner of a mutex asks for nothing, in neither component. -/
theorem owner_asks {s : State F G} (h : (machine callback period maxLag).ReachBy OneControl s)
    {u : PeriodicWork.Thread} {r' : Request} (hblocks : s.blocks u r')
    (hmutex : r'.isMutex = true) (r : Request) : ¬ s.asks u r := by
  have hseparate := Separate.of_reach h
  cases r' with
  | work r' =>
      have hlock : ∀ j i, r' ≠ .ended j i := by
        rintro j i rfl
        cases hmutex
      obtain ⟨hasks, hinside⟩ := PeriodicWork.owner_asks (refines_work.reach h) hblocks hlock
      cases r with
      | work r => exact hasks r
      | observers r =>
          rintro ⟨v, huv, hv⟩
          rcases hseparate u v huv with hout | hout
          · cases hinside.symm.trans hout
          · exact MessageDistribute.outside_asks hout r hv
  | observers r' =>
      obtain ⟨v, huv, hblocks⟩ := hblocks
      obtain ⟨hasks, hinside⟩ :=
        MessageDistribute.owner_asks (refines_observers.reach h) hblocks
      cases r with
      | work r =>
          rcases hseparate u v huv with hout | hout
          · exact PeriodicWork.outside_asks hout r
          · cases hinside.symm.trans hout
      | observers r =>
          rintro ⟨w, huw, hw⟩
          cases huv.symm.trans huw
          exact hasks r hw

/-- Whoever asks stands in the way only of those who join it, and does not join. -/
theorem asks_above {s : State F G} (h : (machine callback period maxLag).ReachBy OneControl s)
    {u : PeriodicWork.Thread} {r r' : Request} (hasks : s.asks u r) (hblocks : s.blocks u r') :
    r'.level < r.level := by
  by_cases hmutex : r'.isMutex = true
  · exact absurd hasks (owner_asks h hblocks hmutex r)
  · cases r' with
    | observers r' => exact absurd rfl hmutex
    | work r' =>
        cases r' with
        | workLock | semMutex => exact absurd rfl hmutex
        | ended j i =>
            obtain ⟨rfl, -⟩ := hblocks
            cases r with
            | observers r => exact Nat.zero_lt_one
            | work r =>
                cases r with
                | workLock | semMutex => exact Nat.zero_lt_one
                | ended j' i' =>
                    obtain ⟨c, hc⟩ := PeriodicWork.joins_client hasks
                    cases hc

/-- With one control thread, under every schedule: once `stop` has issued both its wake-ups
neither thread is blocked; a worker is blocked beside a unit only while its notification is
to come; and no threads wait for the mutexes and the ends of each other in a cycle. -/
theorem never_stuck {s : State F G}
    (h : (machine callback period maxLag).ReachBy OneControl s) :
    (s.work.stopIssued = true →
      ∀ i, ¬ s.work.timerBlocked i ∧ ∀ k, ¬ s.work.workerBlocked i k) ∧
    (∀ i k, s.work.workerBlocked i k → 0 < (s.work.sems k).count_ →
      ∃ first, s.work.timerPc i = .release first k .releaseLock ∨
        s.work.timerPc i = .release first k .releaseNotify) ∧
    Acyclic (WaitsFor s.asks s.blocks) := by
  have hwork := refines_work.reach h
  refine ⟨fun hissued i => ⟨?_, ?_⟩, fun i k hblocked hpos => ?_, ?_⟩
  · exact PeriodicWork.timer_not_blocked hwork hissued i
  · exact PeriodicWork.worker_not_blocked hwork hissued i
  · exact PeriodicWork.unit_notified hwork hblocked hpos
  · exact Acyclic.of_levels Request.level fun _ _ _ => asks_above h

/-- `stop` joins a worker that waits in `distribute` for a client that owns `listLock`. -/
theorem never_stuck_chain :
    ∃ s : State Unit Unit, (s.work.clientPc 0 = .stop false (.join .worker) ∧
        s.work.workerPc 0 = .distribute ∧ (s.tickObservers_.pc (.client 1)).asks = true ∧
        s.tickObservers_.listLock = some (.client 2)) ∧
      Acyclic (WaitsFor s.asks s.blocks) := by
  obtain ⟨s, hs, hread⟩ := Machine.ReachBy.of_exec (M := machine none 1000 1) (G := OneControl)
    (State.initial none 1000 1)
    (runConstructor ++ runWork (PeriodicWork.runStart ++ PeriodicWork.runTimer 9 ++
        PeriodicWork.runWorker 11) ++
      [.distribute 0, .observers (.start (.client 2) (.addUpdateCallback (some ()))),
        .observers (.own (.client 2)), .observers (.own (.client 2))] ++
      runWork (.stop 0 :: List.replicate 11 (.client 0 false none) ++ PeriodicWork.runTimer 2 ++
        List.replicate 5 (.client 0 false none)))
    (fun s : State Unit Unit => s.work.clientPc 0 = .stop false (.join .worker) ∧
      s.work.workerPc 0 = .distribute ∧ (s.tickObservers_.pc (.client 1)).asks = true ∧
      s.tickObservers_.listLock = some (.client 2))
    rfl (by decide)
  exact ⟨s, hread, (never_stuck hs).2.2⟩

end TickObservers
