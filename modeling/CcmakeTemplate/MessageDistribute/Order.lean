import CcmakeTemplate.MessageDistribute.Delivery
import CcmakeTemplate.ThreadPool.OneWorker

/-!
# One distributing thread, one worker

When one thread makes all the calls of `distribute` and the pool has one worker, the queue is
a detour: what a plain loop over the registry would have called synchronously is called in
the same order, one callback after the other. `replay` is that loop. It knows neither the
copies that the calls have made nor the pool.
-/

namespace MessageDistribute

open Concurrency

open ThreadPool (Thread)

variable {F A : Type} {poolSize : ℕ}

/-! ## The synchronous distributor -/

/-- The registry and the calls made so far, each a callback with its arguments. -/
structure Replay (F A : Type) where
  registry : List (Callback F) := []
  calls : List (F × A) := []

def Replay.after (r : Replay F A) (sec : Section F A) : Replay F A where
  registry := sec.apply r.registry
  calls :=
    match sec with
    | .copy _ args => r.calls ++ r.registry.filterMap fun c => c.fn.map (·, args)
    | _ => r.calls

def replay (sections : List (Section F A)) : Replay F A := sections.foldl Replay.after {}

theorem replay_snoc (sections : List (Section F A)) (sec : Section F A) :
    replay (sections ++ [sec]) = (replay sections).after sec := by
  simp [replay]

theorem replay_registry (sections : List (Section F A)) :
    (replay sections).registry = registry sections := by
  induction sections using List.reverseRecOn with
  | nil => rfl
  | append_singleton sections sec ih =>
      rw [replay_snoc, registry_append, ← ih]
      rfl

/-- The callbacks added, in the order of their registration. -/
def added (sections : List (Section F A)) : List (Callback F) :=
  sections.filterMap fun sec => match sec with | .add h => some h | _ => none

/-- Whatever was removed in between, the registry is in the order of registration. -/
theorem registry_sublist (sections : List (Section F A)) :
    (registry sections).Sublist (added sections) := by
  induction sections using List.reverseRecOn with
  | nil => exact List.Sublist.refl _
  | append_singleton sections sec ih =>
      rw [registry_append, added, List.filterMap_append]
      cases sec with
      | add h => exact ih.append (List.Sublist.refl _)
      | remove token found =>
          rw [List.filterMap_cons_none rfl, List.filterMap_nil, List.append_nil]
          cases found with
          | true => exact List.eraseP_sublist.trans ih
          | false => exact ih
      | clear => exact List.nil_sublist _
      | copy | size =>
          rw [List.filterMap_cons_none rfl, List.filterMap_nil, List.append_nil]
          exact ih

/-! ## What the calls owe -/

/-- The tasks that section `n` makes its call enqueue. -/
def Section.due (n : ℕ) : Section F A → List (Task F A)
  | .copy localList args => deliveries n args localList
  | _ => []

def due (sections : List (Section F A)) : List (Task F A) :=
  sections.zipIdx.flatMap fun (sec, n) => sec.due n

theorem due_snoc (sections : List (Section F A)) (sec : Section F A) :
    due (sections ++ [sec]) = due sections ++ sec.due sections.length := by
  simp [due, List.zipIdx_append]

def Task.execution (task : Task F A) : F × A := (task.fn, task.args)

theorem deliveries_execution (n : ℕ) (args : A) (localList : List (Callback F)) :
    (deliveries n args localList).map Task.execution =
      localList.filterMap fun c => c.fn.map (·, args) := by
  rw [deliveries, List.map_filterMap]
  congr 1
  funext c
  cases c.fn <;> rfl

theorem Legal.of_snoc {sections : List (Section F A)} {sec : Section F A}
    (h : Legal (sections ++ [sec])) : Legal sections ∧ sec.Agrees (registry sections) := by
  constructor
  · intro n sec' hn
    have hlt := (List.getElem?_eq_some_iff.mp hn).1
    have hsec := h n sec' (by rw [List.getElem?_append_left hlt, hn])
    rwa [List.take_append_of_le_length hlt.le] at hsec
  · have hsec := h sections.length sec List.getElem?_concat_length
    rwa [List.take_left] at hsec

/-- The calls owe what the synchronous loop calls: their copies are the registry. -/
theorem due_replay {sections : List (Section F A)} (h : Legal sections) :
    (due sections).map Task.execution = (replay sections).calls := by
  induction sections using List.reverseRecOn with
  | nil => rfl
  | append_singleton sections sec ih =>
      obtain ⟨hlegal, hsec⟩ := h.of_snoc
      rw [due_snoc, List.map_append, ih hlegal, replay_snoc]
      cases sec with
      | copy localList args =>
          obtain rfl : localList = registry sections := hsec
          rw [Section.due, deliveries_execution, Replay.after, replay_registry]
      | _ => exact List.append_nil _

/-! ## One distributing thread -/

/-- The thread is inside `distribute`. -/
def Pc.distributes : Pc F A → Bool
  | .lock (.copy _) | .holding (.copy _) | .unlock _ (.copy ..) | .enqueueing .. => true
  | _ => false

/-- The thread that starts a call of `distribute`. -/
def Action.distributor : Action F A → Option Thread
  | .start u (.distribute _) => some u
  | _ => none

/-- Only `u` calls `distribute`. -/
def OnlyFrom (u : Thread) (_ : State F A) (a : Action F A) : Prop :=
  a.distributor = none ∨ a.distributor = some u

instance (u : Thread) (s : State F A) (a : Action F A) : Decidable (OnlyFrom u s a) :=
  inferInstanceAs (Decidable (_ ∨ _))

/-- The tasks of the callbacks ahead in the loop. -/
def Pc.loop (pc : Pc F A) : List (Task F A) := (pc.ahead.map Prod.snd).getD []

structure InLine (u : Thread) (s : State F A) : Prop where
  others : ∀ v, v ≠ u → (s.pc v).distributes = false
  line : s.pool_.offered ++ ((s.pool_.inHand u).toList ++ (s.pc u).loop) = due s.sections

theorem Pc.loop_nil {pc : Pc F A} (h : pc.ahead = none) : pc.loop = [] := by
  rw [Pc.loop, h]
  rfl

theorem Op.entry_distributes {op : Op F A} (h : op.entry.distributes = true) :
    ∃ args, op = .distribute args := by
  cases op with
  | distribute args => exact ⟨args, rfl⟩
  | _ => cases h

/-- A step of a method does not turn it into another. -/
theorem OwnStep.distributes {s t : State F A} {u : Thread} (h : OwnStep poolSize u s t)
    (hold : (s.pc u).distributes = false) : (t.pc u).distributes = false := by
  cases h with
  | @go pc h =>
      rw [State.go_self]
      generalize s.pc u = old at h hold
      cases h with
      | skip => cases hold
      | _ => rfl
  | make | returns =>
      rw [State.go_self]
      rfl
  | @lock body hpc =>
      rw [hpc] at hold
      rw [State.go_self]
      cases body <;> first | rfl | cases hold
  | record hpc h =>
      rw [hpc] at hold
      rw [MessageDistribute.record, State.go_self]
      cases h <;> first | rfl | cases hold
  | @unlock n sec hpc =>
      rw [hpc] at hold
      rw [State.go_self]
      cases sec <;> first | rfl | cases hold
  | enqueue hpc =>
      rw [hpc] at hold
      cases hold

theorem InLine.pool {u : Thread} {s : State F A} (hs : InLine u s) (hdispatch : Dispatch s)
    {pool : ThreadPool.State (Task F A)} {v : Thread} {gone : List (Task F A)}
    (hoffered : pool.offered = s.pool_.offered ++ gone)
    (hv : (s.pool_.inHand v).toList = gone ++ (pool.inHand v).toList)
    (hothers : ∀ w, w ≠ v → pool.inHand w = s.pool_.inHand w) :
    InLine u { s with pool_ := pool } := by
  refine ⟨hs.others, ?_⟩
  show pool.offered ++ ((pool.inHand u).toList ++ (s.pc u).loop) = due s.sections
  rw [← hs.line, hoffered]
  by_cases huv : u = v
  · subst huv
    rw [hv]
    simp only [List.append_assoc]
  · -- the others have nothing in hand that they could have offered
    have hnone : s.pool_.inHand v = none := by
      by_contra hhand
      obtain ⟨task, hhand⟩ := Option.ne_none_iff_exists'.mp hhand
      obtain ⟨n, localList, args, hpc⟩ := hdispatch.hand v task hhand
      have hfalse := hs.others v (Ne.symm huv)
      rw [hpc] at hfalse
      cases hfalse
    rw [hnone] at hv
    rw [(List.append_eq_nil_iff.mp hv.symm).1, List.append_nil, hothers u huv]

/-- A step of thread `v` that neither offers nor records anything due. -/
theorem InLine.go {u v : Thread} {s t : State F A} (hs : InLine u s) {pc : Pc F A}
    (hpc : t.pc = Function.update s.pc v pc) (hpool : t.pool_ = s.pool_)
    (hdue : due t.sections = due s.sections) (hloop : pc.loop = (s.pc v).loop)
    (hother : v ≠ u → pc.distributes = false) : InLine u t := by
  constructor
  · intro w hw
    by_cases hwv : w = v
    · subst hwv
      rw [hpc, Function.update_self]
      exact hother hw
    · rw [hpc, Function.update_of_ne hwv]
      exact hs.others w hw
  · rw [hpool, hdue, ← hs.line]
    by_cases huv : u = v
    · rw [huv, hpc, Function.update_self, hloop]
    · rw [hpc, Function.update_of_ne huv]

theorem InLine.own {u v : Thread} {s t : State F A} (hs : InLine u s)
    (hfree : s.pool_.inHand v = none) (h : OwnStep poolSize v s t) : InLine u t := by
  have hother : v ≠ u → (t.pc v).distributes = false := fun hv => h.distributes (hs.others v hv)
  cases h with
  | @go pc h =>
      rw [State.go_self] at hother
      refine hs.go rfl rfl rfl ?_ hother
      generalize s.pc v = old at h
      cases h with
      | skip hfn => simp [Pc.loop, Pc.ahead, deliveries, hfn]
      | _ => rfl
  | make hpc | lock hpc =>
      rw [State.go_self] at hother
      refine hs.go rfl rfl rfl ?_ hother
      rw [hpc]
      rfl
  | returns hpc =>
      rw [State.go_self] at hother
      refine hs.go rfl rfl rfl ?_ hother
      rw [hpc]
      rfl
  | @unlock n sec hpc =>
      rw [State.go_self] at hother
      refine hs.go rfl rfl rfl ?_ hother
      rw [hpc, Pc.loop, sec.next_ahead n]
      rfl
  | @record body callbackList sec hpc h =>
      rw [record, State.go_self] at hother
      by_cases hcopy : ∃ args, body = .copy args
      · -- the new copy is due, and the whole of it is ahead
        obtain ⟨args, rfl⟩ := hcopy
        cases h
        have hvu : v = u := by
          by_contra hvu
          cases hother hvu
        subst hvu
        refine ⟨fun w hw => ?_, ?_⟩
        · rw [record, State.go_other hw]
          exact hs.others w hw
        · show s.pool_.offered ++ ((s.pool_.inHand v).toList ++ _) = due (s.sections ++ [_])
          have hline := hs.line
          rw [hfree, hpc] at hline
          rw [record, State.go_self, due_snoc, ← hline, hfree]
          simp [Pc.loop, Pc.ahead, Section.due]
      · refine hs.go rfl rfl ?_ ?_ hother
        · show due (s.sections ++ [sec]) = due s.sections
          rw [due_snoc]
          cases h with
          | copy args => exact absurd ⟨args, rfl⟩ hcopy
          | _ => exact List.append_nil _
        · rw [hpc]
          cases h with
          | copy args => exact absurd ⟨args, rfl⟩ hcopy
          | _ => rfl
  | @enqueue n c fn localList args pool hpc hfn h =>
      obtain ⟨hhand, hothers, hoffered, -⟩ := poolCall_spec h
      have hvu : v = u := by
        by_contra hvu
        have hfalse := hs.others v hvu
        rw [hpc] at hfalse
        cases hfalse
      subst hvu
      refine ⟨fun w hw => ?_, ?_⟩
      · rw [State.go_other hw]
        exact hs.others w hw
      · have hline := hs.line
        rw [hfree, hpc] at hline
        rw [State.go_self]
        show pool.offered ++ ((pool.inHand v).toList ++ _) = due s.sections
        rw [← hline, hoffered, hhand]
        simp [Pc.loop, Pc.ahead, deliveries, hfn]

theorem InLine.of_reach {u : Thread} {s : State F A}
    (h : (machine poolSize).ReachBy (OnlyFrom u) s) : InLine u s := by
  refine h.invariant (P := InLine u) ?_ ?_
  · rintro s rfl
    have hstart : (machine poolSize).Reach (State.initial : State F A) := .start rfl
    have hhand : (State.initial : State F A).pool_.inHand u = none := by
      cases hno : (State.initial : State F A).pool_.inHand u with
      | none => rfl
      | some task =>
          obtain ⟨n, localList, args, hpc⟩ :=
            (Dispatch.of_reach hstart).hand u task hno
          cases hpc
    refine ⟨fun _ _ => rfl, ?_⟩
    rw [hhand]
    rfl
  · intro s a t hreach hs hG hst
    have hdispatch := Dispatch.of_reach hreach.reach
    cases step_move hst with
    | pool hadmits h =>
        obtain ⟨v, gone, hoffered, hv, hothers⟩ :=
          ThreadPool.hands_offer ((refines_pool poolSize).reach hreach.reach) h
            (State.admits_starts hadmits)
        exact hs.pool hdispatch hoffered hv hothers
    | @finish i outcome task n pool hpc hout h =>
        obtain ⟨v, gone, hoffered, hv, hothers⟩ := ThreadPool.hands_offer
          ((refines_pool poolSize).reach hreach.reach) (a := .worker i none) h rfl
        exact hs.pool hdispatch hoffered hv hothers
    | @start v op hfree =>
        refine hs.go rfl rfl rfl ?_ fun hv => ?_
        · rw [State.free_out hfree, Pc.loop_nil op.entry_ahead]
          rfl
        · rw [Bool.eq_false_iff]
          intro hdistributes
          obtain ⟨args, rfl⟩ := Op.entry_distributes hdistributes
          rcases hG with hnone | hsome
          · cases hnone
          · exact hv (Option.some.inj hsome)
    | own hcall h => exact hs.own (by rw [ThreadPool.State.inHand, hcall]; rfl) h

/-! ## One worker -/

namespace State

/-- The executions that have begun, in order, each a callback with its arguments. -/
def executions (s : State F A) : List (F × A) :=
  s.pool_.begun.map fun (task, _) => task.execution

end State

/-- With one worker and one distributing thread the callbacks run one after the other, in the
order of a plain loop over the registry, however the registry changes in between. -/
theorem executes_in_order (hone : poolSize ≤ 1) {u : Thread} {s : State F A}
    (h : (machine poolSize).ReachBy (OnlyFrom u) s) :
    (s.pool_.begun = s.pool_.finished ++ (s.pool_.workerPc 0).executing.toList ∧
      ∀ i, i ≠ 0 → (s.pool_.workerPc i).executing = none) ∧
    s.executions <+: (replay s.sections).calls ∧
    ∀ (n : ℕ) localList args, s.sections[n]? = some (.copy localList args) →
      localList = (replay (s.sections.take n)).registry ∧
        localList.Sublist (added (s.sections.take n)) := by
  have hpool := (refines_pool poolSize).reach h.reach
  have hlegal := (Registered.of_reach h.reach).legal
  have hturn := ThreadPool.InTurn.of_reach hone hpool
  refine ⟨⟨hturn.finished.symm, fun i hi => ThreadPool.executing_first hone hpool hi⟩, ?_, ?_⟩
  · -- begun, accepted, offered, due: each begins the next
    have haccepted := hturn.begun_accepted (.of_reach hpool)
    have hoffered : s.pool_.accepted <+: s.pool_.offered := List.prefix_append _ _
    have hdue : s.pool_.offered <+: due s.sections := ⟨_, (InLine.of_reach h).line⟩
    rw [State.executions, ← due_replay hlegal]
    have hbegins := ((haccepted.trans hoffered).trans hdue).map Task.execution
    rwa [List.map_map] at hbegins
  · intro n localList args hn
    have hsec : localList = registry (s.sections.take n) := hlegal n _ hn
    refine ⟨hsec.trans (replay_registry _).symm, ?_⟩
    rw [hsec]
    exact registry_sublist _

/-- The first callback removes the second while that waits in the queue, and throws. The next
call of `distribute` finds only the first. -/
theorem executes_in_order_removed :
    ∃ s : State ℕ ℕ, (s.executions = [(7, 9), (8, 9)] ∧
        (replay s.sections).calls = [(7, 9), (8, 9), (7, 10)]) ∧
      s.executions <+: (replay s.sections).calls := by
  obtain ⟨s, hs, hread⟩ := Machine.ReachBy.of_exec (M := machine 0)
    (G := OnlyFrom (.client 0)) State.initial
    (runClient 2 ++ runMethod (.client 0) (.addUpdateCallback (some 7)) 4 ++
      runMethod (.client 1) (.addUpdateCallback (some 8)) 4 ++
      runMethod (.client 0) (.distribute 9) 4 ++ runClient 5 ++ [.own (.client 0)] ++
      runClient 5 ++ [.own (.client 0)] ++ runWorker 6 ++
      runMethod (.worker 0) (.removeUpdateCallback (some 1)) 5 ++ .finish 0 .throws ::
      runMethod (.client 0) (.distribute 10) 4 ++ runClient 5 ++ runWorker 6)
    (fun s : State ℕ ℕ => s.executions = [(7, 9), (8, 9)] ∧
      (replay s.sections).calls = [(7, 9), (8, 9), (7, 10)]) rfl (by decide)
  exact ⟨s, hread, (executes_in_order (by decide) hs).2.1⟩

end MessageDistribute
