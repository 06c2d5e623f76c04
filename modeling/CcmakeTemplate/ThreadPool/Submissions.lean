import CcmakeTemplate.ThreadPool.Execution

/-!
# Submissions

What a caller of `enqueue` and `enqueue_future` can rely on: the task that it has in hand is
pushed or refused, once, and no other thread's step touches it. A pool refuses nothing
before `stop_` is set.
-/

namespace ThreadPool

open Concurrency

variable {T : Type}

/-- The task that a call has yet to push or to refuse. -/
def CallPc.task : CallPc T → Option T
  | .lock _ task | .test _ task | .refuse _ task | .emplace task => some task
  | _ => none

def State.inHand (s : State T) (u : Thread) : Option T := (s.call u).bind CallPc.task

/-- The tasks pushed, then those refused. -/
def State.offered (s : State T) : List T := s.accepted ++ s.refused.map Prod.fst

theorem Step.refused {threads : ℕ} {s t : State T} {a : Action T} (h : Step threads s a t)
    (hs : Informed s) : t.refused = s.refused ∨ s.stop_ = true := by
  rcases h.submission with ⟨-, hsame⟩ | ⟨u, pc, s', call, hpc, hcall, -, hrefused⟩
  · exact .inl hsame
  · have hknows := hs.call hpc
    rw [hrefused]
    cases hcall with
    | refuse how task => exact .inr hknows
    | _ => exact .inl rfl

theorem refused_open {threads : ℕ} {s : State T} (h : (machine threads).Reach s)
    (hopen : s.stop_ = false) : s.refused = [] := by
  refine h.invariant (P := fun s => s.stop_ = false → s.refused = []) ?_ ?_ hopen
  · rintro s rfl _
    rfl
  · intro s a t hreach hs _ hst hopen
    have hinf := Informed.of_reach hreach
    have hbefore : s.stop_ = false := by
      by_contra hset
      rw [Bool.not_eq_false] at hset
      cases hopen.symm.trans ((step_cases hst).stop_kept hset)
    rcases (step_cases hst).refused hinf with heq | hset
    · exact heq.trans (hs hbefore)
    · rw [hbefore] at hset
      cases hset

/-- What leaves the hand has been pushed or refused. -/
theorem CallStep.offers {u : Thread} {s t : State T} {pc : CallPc T} {call : Option (CallPc T)}
    (h : CallStep u s pc t call) (hpc : pc.Knows s.stop_)
    (hopen : s.stop_ = false → s.refused = []) :
    ∃ gone, t.offered = s.offered ++ gone ∧
      pc.task.toList = gone ++ (call.bind CallPc.task).toList := by
  cases h with
  | go h =>
      refine ⟨[], (List.append_nil _).symm, ?_⟩
      cases h <;> rfl
  | lock h =>
      refine ⟨[], (List.append_nil _).symm, ?_⟩
      cases h <;> rfl
  | unlock h =>
      refine ⟨[], (List.append_nil _).symm, ?_⟩
      cases h <;> rfl
  | refuse how task =>
      refine ⟨[task], ?_, rfl⟩
      simp [State.offered]
  | emplace task =>
      refine ⟨[task], ?_, rfl⟩
      simp [State.offered, hopen hpc]
  | notify => exact ⟨[], (List.append_nil _).symm, rfl⟩

theorem WorkerGo.call {s : State T} {pc pc' : WorkerPc T} (h : WorkerGo s pc pc') :
    pc'.call = pc.call := by
  cases h <;> rfl

theorem WorkerUnlocks.call {pc pc' : WorkerPc T} (h : WorkerUnlocks pc pc') :
    pc'.call = pc.call := by
  cases h <;> rfl

/-- What a step does to the calls in progress: `u` may get on with its own, and the others
stay where they are. -/
structure CallMove (u : Thread) (s t : State T) : Prop where
  others : ∀ v, v ≠ u → t.call v = s.call v
  own : t.call u = s.call u ∧ t.offered = s.offered ∨
    ∃ pc s' call, s.call u = some pc ∧ CallStep u s pc s' call ∧ t.call u = call ∧
      t.offered = s'.offered

theorem WorkerStep.callMove {i : ℕ} {s t : State T} (h : WorkerStep i s t) :
    CallMove (.worker i) s t := by
  constructor
  · obtain ⟨pc, hworker, hclient, -⟩ := h.moves
    intro v hv
    cases v with
    | worker j =>
        have hj : j ≠ i := fun heq => hv (heq ▸ rfl)
        simp only [State.call, hworker, Function.update_of_ne hj]
    | client c => simp only [State.call, hclient]
  · have hsame : ∀ (u : State T) (pc : WorkerPc T), pc.call = (s.workerPc i).call →
        (u.goWorker i pc).call (.worker i) = s.call (.worker i) := by
      intro u pc hpc
      simp only [State.call, Function.update_self, hpc]
    cases h with
    | go h => exact .inl ⟨hsame _ _ h.call, rfl⟩
    | unlock h => exact .inl ⟨hsame _ _ h.call, rfl⟩
    | lock hpc =>
        refine .inl ⟨hsame _ _ ?_, rfl⟩
        rcases hpc with hpc | ⟨hpc, -⟩ <;> rw [hpc] <;> rfl
    | block hpc | take hpc | begins hpc | ends hpc =>
        exact .inl ⟨hsame _ _ (by rw [hpc]; rfl), rfl⟩
    | @nested task n pc s' call hpc h =>
        refine .inr ⟨pc, s', call, State.call_worker.mpr ⟨task, n, hpc⟩, h, ?_, rfl⟩
        simp [State.call, WorkerPc.call]

theorem ClientStep.callMove {threads c : ℕ} {s t : State T} (h : ClientStep threads c s t)
    (hs : Life threads s) : CallMove (.client c) s t := by
  constructor
  · obtain ⟨pc, hclient, -⟩ := h.moves
    intro v hv
    cases v with
    | worker j =>
        rcases h.workerPc with ⟨hworker, -⟩ | ⟨-, -, hworker⟩
        · simp only [State.call, hworker]
        · have hidle : Function.update s.workerPc s.workers_ .lock = s.workerPc := by
            rw [← hs.idle _ le_rfl, Function.update_eq_self]
          simp only [State.call, hworker, hidle]
    | client d =>
        have hd : d ≠ c := fun heq => hv (heq ▸ rfl)
        simp only [State.call, hclient, Function.update_of_ne hd]
  · have hsame : ∀ (u : State T) (pc : ClientPc T), pc.call? = (s.clientPc c).call? →
        (u.goClient c pc).call (.client c) = s.call (.client c) := by
      intro u pc hpc
      simp only [State.call, Function.update_self, hpc]
    cases h with
    | @call pc pc' s' hpc h =>
        refine .inr ⟨pc, s', some pc', State.call_client.mpr hpc, h, ?_, rfl⟩
        simp [State.call, ClientPc.call?]
    | @returns pc s' hpc h =>
        refine .inr ⟨pc, s', none, State.call_client.mpr hpc, h, ?_, rfl⟩
        simp [State.call, ClientPc.call?]
    | spawn => exact .inl ⟨rfl, rfl⟩
    | _ hpc => exact .inl ⟨hsame _ _ (by rw [hpc]; rfl), rfl⟩

theorem Step.callMove {threads : ℕ} {s t : State T} {a : Action T} (h : Step threads s a t)
    (ha : a.starts = false) (hs : Life threads s) : ∃ u, CallMove u s t := by
  cases h with
  | worker hi h => exact ⟨_, h.callMove⟩
  | client h => exact ⟨_, h.callMove hs⟩
  | call | nest => cases ha
  | @destroy c hphase hpc =>
      refine ⟨.client c, ?_, .inl ⟨?_, rfl⟩⟩
      · intro v hv
        cases v with
        | worker j => rfl
        | client d =>
            have hd : d ≠ c := fun heq => hv (heq ▸ rfl)
            simp only [State.call, Function.update_of_ne hd]
      · simp only [State.call, Function.update_self, hpc]
        rfl
  | spurious t => exact ⟨t, fun _ _ => rfl, .inl ⟨rfl, rfl⟩⟩

/-- Unless a call starts, what leaves a hand is offered, and nothing else is. -/
theorem hands_offer {threads : ℕ} {s t : State T} {a : Action T}
    (h : (machine threads).Reach s) (hst : (machine threads).step s a = some t)
    (ha : a.starts = false) :
    ∃ u gone, t.offered = s.offered ++ gone ∧
      (s.inHand u).toList = gone ++ (t.inHand u).toList ∧
      ∀ v, v ≠ u → t.inHand v = s.inHand v := by
  obtain ⟨u, hmove⟩ := (step_cases hst).callMove ha (.of_reach h)
  have hothers : ∀ v, v ≠ u → t.inHand v = s.inHand v := by
    intro v hv
    simp only [State.inHand, hmove.others v hv]
  rcases hmove.own with ⟨hsame, hoffered⟩ | ⟨pc, s', call, hpc, hcall, hnext, hoffered⟩
  · refine ⟨u, [], ?_, ?_, hothers⟩
    · rw [hoffered, List.append_nil]
    · simp only [State.inHand, hsame, List.nil_append]
  · have hknows := (Informed.of_reach h).call hpc
    obtain ⟨gone, hgone, htask⟩ := hcall.offers hknows (refused_open h)
    refine ⟨u, gone, hoffered.trans hgone, ?_, hothers⟩
    simp only [State.inHand, hpc, hnext]
    exact htask

/-! ## What becomes of the tasks accepted -/

theorem accepted_grows {threads : ℕ} {s t : State T} {a : Action T}
    (hst : (machine threads).step s a = some t) : s.accepted <+: t.accepted := by
  rcases (step_cases hst).submission with ⟨hsame, -⟩ | ⟨u, pc, s', call, -, hcall, haccepted, -⟩
  · rw [hsame]
  · obtain ⟨⟨new, hnew, -⟩, -⟩ := hcall.accepts
    exact ⟨new, (haccepted.trans hnew).symm⟩

/-- The tasks executed are among those accepted, each as often at most. -/
theorem begun_subperm {threads : ℕ} {s : State T} (h : (machine threads).Reach s) :
    (s.begun.map Prod.fst).Subperm s.accepted := by
  have hs := Ledger.of_reach h
  have hle : (s.begun : Multiset (T × ℕ)) ≤ (s.taken.zipIdx : Multiset (T × ℕ)) := by
    rw [← hs.begun]
    exact Multiset.le_add_right _ _
  have hmap := Multiset.map_le_map (f := Prod.fst) hle
  rw [Multiset.map_coe, Multiset.map_coe, List.zipIdx_map_fst, Multiset.coe_le] at hmap
  rw [hs.fifo]
  exact hmap.trans (List.sublist_append_left _ _).subperm

/-- A destroyed pool has executed what it accepted. -/
theorem finished_perm {threads : ℕ} {s : State T} (h : (machine threads).Reach s)
    (hphase : s.phase = .destroyed) : (s.finished.map Prod.fst).Perm s.accepted := by
  have hperm := ((Ledger.of_reach h).drained (.of_reach h) (.of_reach h) hphase).2.map Prod.fst
  rwa [List.zipIdx_map_fst] at hperm

end ThreadPool
