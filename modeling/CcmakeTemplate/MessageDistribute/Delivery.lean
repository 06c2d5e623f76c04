import CcmakeTemplate.MessageDistribute.Registry
import CcmakeTemplate.ThreadPool.Submissions

/-!
# Delivery

A call of `distribute` owes the pool one task for each non-empty callback of its
`localList`. At every moment the tasks it has offered to the pool, the one it has in hand
and those of the callbacks still ahead in its loop are all it owed, in order.
-/

namespace MessageDistribute

open Concurrency

open ThreadPool (Thread)

variable {F A : Type}

/-- The tasks that call `n` of `distribute` enqueues for a copy of the list. -/
def deliveries (n : ℕ) (args : A) (localList : List (Callback F)) : List (Task F A) :=
  localList.filterMap fun c => c.fn.map fun fn => ⟨n, c.token, fn, args⟩

/-- The tasks ahead in the loop of a call, from the moment it has its `localList`. -/
def Pc.ahead : Pc F A → Option (ℕ × List (Task F A))
  | .unlock n (.copy localList args) | .enqueueing n localList args =>
      some (n, deliveries n args localList)
  | _ => none

namespace State

/-- The call that a thread still works on, with the tasks that it has yet to offer. -/
def owes (s : State F A) (u : Thread) : Option (ℕ × List (Task F A)) :=
  (s.pc u).ahead.map fun (n, ahead) => (n, (s.pool_.inHand u).toList ++ ahead)

/-- The tasks offered to the pool on behalf of call `n`. -/
def offeredBy (s : State F A) (n : ℕ) : List (Task F A) :=
  s.pool_.offered.filter (·.call = n)

end State

structure Dispatch (s : State F A) : Prop where
  due : ∀ u n left, s.owes u = some (n, left) → ∃ localList args,
    s.sections[n]? = some (.copy localList args) ∧
      s.offeredBy n ++ left = deliveries n args localList
  alone : ∀ u v n left left', s.owes u = some (n, left) → s.owes v = some (n, left') → u = v
  whole : ∀ (n : ℕ) localList args, s.sections[n]? = some (.copy localList args) →
    (∀ u left, s.owes u ≠ some (n, left)) → s.offeredBy n = deliveries n args localList
  known : ∀ task ∈ s.pool_.offered, task.call < s.sections.length
  returned : ∀ n ∈ s.returned, n < s.sections.length ∧ ∀ u left, s.owes u ≠ some (n, left)
  hand : ∀ u task, s.pool_.inHand u = some task →
    ∃ n localList args, s.pc u = .enqueueing n localList args

theorem mem_deliveries {n : ℕ} {args : A} {localList : List (Callback F)} {task : Task F A}
    (h : task ∈ deliveries n args localList) : task.call = n := by
  obtain ⟨c, -, hc⟩ := List.mem_filterMap.mp h
  obtain ⟨fn, -, rfl⟩ := Option.map_eq_some_iff.mp hc
  rfl

theorem Dispatch.bound {s : State F A} (hs : Dispatch s) {u : Thread} {n : ℕ}
    {left : List (Task F A)} (h : s.owes u = some (n, left)) : n < s.sections.length := by
  obtain ⟨localList, args, hn, -⟩ := hs.due u n left h
  exact (List.getElem?_eq_some_iff.mp hn).1

/-- Who owes what is as before. -/
theorem Dispatch.same {s t : State F A} (hs : Dispatch s) (howes : ∀ u, t.owes u = s.owes u)
    (hframe : t.sections = s.sections ∧ t.pool_.offered = s.pool_.offered ∧
      t.returned = s.returned)
    (hhand : ∀ u task, t.pool_.inHand u = some task →
      ∃ n localList args, t.pc u = .enqueueing n localList args) : Dispatch t := by
  obtain ⟨hsections, hoffered, hreturned⟩ := hframe
  have hby : ∀ n, t.offeredBy n = s.offeredBy n := by
    intro n
    rw [State.offeredBy, State.offeredBy, hoffered]
  constructor
  · intro u n left
    rw [howes, hsections, hby]
    exact hs.due u n left
  · intro u v n left left'
    rw [howes, howes]
    exact hs.alone u v n left left'
  · intro n localList args hn hnobody
    rw [hsections] at hn
    rw [hby]
    exact hs.whole n localList args hn fun u left hu => hnobody u left ((howes u).trans hu)
  · rw [hoffered, hsections]
    exact hs.known
  · intro n hn
    rw [hreturned] at hn
    obtain ⟨hbound, hnobody⟩ := hs.returned n hn
    exact ⟨hsections ▸ hbound, fun u left hu => hnobody u left ((howes u).symm.trans hu)⟩
  · exact hhand

theorem hand_cases {held left : Option (Task F A)} {gone : List (Task F A)}
    (h : held.toList = gone ++ left.toList) :
    gone = [] ∧ left = held ∨ ∃ task, gone = [task] ∧ held = some task ∧ left = none := by
  cases held with
  | none =>
      obtain ⟨hgone, hleft⟩ := List.append_eq_nil_iff.mp h.symm
      exact .inl ⟨hgone, Option.toList_eq_nil_iff.mp hleft⟩
  | some task =>
      rcases List.append_eq_singleton_iff.mp h.symm with ⟨hgone, hleft⟩ | ⟨hgone, hleft⟩
      · exact .inl ⟨hgone, Option.toList_eq_singleton_iff.mp hleft⟩
      · exact .inr ⟨task, hgone, rfl, Option.toList_eq_nil_iff.mp hleft⟩

/-- The pool has gone on: what `u` no longer has in hand has been offered. -/
theorem Dispatch.pool {s : State F A} (hs : Dispatch s) {pool : ThreadPool.State (Task F A)}
    {u : Thread} {gone : List (Task F A)} (hoffered : pool.offered = s.pool_.offered ++ gone)
    (hu : (s.pool_.inHand u).toList = gone ++ (pool.inHand u).toList)
    (hothers : ∀ v, v ≠ u → pool.inHand v = s.pool_.inHand v) :
    Dispatch { s with pool_ := pool } := by
  rcases hand_cases hu with ⟨rfl, hsame⟩ | ⟨task, rfl, hheld, hfree⟩
  · have hhand : ∀ v, pool.inHand v = s.pool_.inHand v := by
      intro v
      by_cases hv : v = u
      · rw [hv, hsame]
      · exact hothers v hv
    refine hs.same (fun v => ?_) ⟨rfl, hoffered.trans (List.append_nil _), rfl⟩
      fun v task hv => ?_
    · simp only [State.owes, hhand]
    · exact hs.hand v task ((hhand v).symm.trans hv)
  · -- `task` belongs to the call that `u` works on
    obtain ⟨n, rest, args, hpc⟩ := hs.hand u task hheld
    have howes : s.owes u = some (n, task :: deliveries n args rest) := by
      simp [State.owes, hpc, Pc.ahead, hheld]
    have howes' : State.owes { s with pool_ := pool } u = some (n, deliveries n args rest) := by
      simp [State.owes, hpc, Pc.ahead, hfree]
    obtain ⟨localList, args', hn, hsum⟩ := hs.due u n _ howes
    have hmem : task ∈ deliveries n args' localList := by
      rw [← hsum]
      simp
    have hcall := mem_deliveries hmem
    have hby : ∀ m, State.offeredBy { s with pool_ := pool } m =
        s.offeredBy m ++ if m = n then [task] else [] := by
      intro m
      simp only [State.offeredBy, hoffered, List.filter_append]
      by_cases hm : m = n
      · simp [hm, hcall]
      · simp [hm, hcall, Ne.symm hm]
    have hsame : ∀ v, v ≠ u → State.owes { s with pool_ := pool } v = s.owes v := by
      intro v hv
      simp only [State.owes, hothers v hv]
    -- who owes something now owed something to the same call before
    have hback : ∀ v m left, State.owes { s with pool_ := pool } v = some (m, left) →
        ∃ before, s.owes v = some (m, before) := by
      intro v m left hv
      by_cases hvu : v = u
      · rw [hvu, howes'] at hv
        cases hv
        exact ⟨_, hvu ▸ howes⟩
      · exact ⟨left, (hsame v hvu).symm.trans hv⟩
    constructor
    · intro v m left hv
      by_cases hvu : v = u
      · rw [hvu, howes'] at hv
        cases hv
        refine ⟨localList, args', hn, ?_⟩
        rw [hby, if_pos rfl, List.append_assoc]
        exact hsum
      · rw [hsame v hvu] at hv
        have hm : m ≠ n := by
          rintro rfl
          exact hvu (hs.alone v u m _ _ hv howes)
        rw [hby, if_neg hm, List.append_nil]
        exact hs.due v m left hv
    · intro v w m left left' hv hw
      obtain ⟨before, hv⟩ := hback v m left hv
      obtain ⟨before', hw⟩ := hback w m left' hw
      exact hs.alone v w m _ _ hv hw
    · intro m list args'' hm hnobody
      have hne : m ≠ n := by
        rintro rfl
        exact hnobody u _ howes'
      rw [hby, if_neg hne, List.append_nil]
      refine hs.whole m list args'' hm fun v left hv => ?_
      by_cases hvu : v = u
      · rw [hvu, howes] at hv
        cases hv
        exact hne rfl
      · exact hnobody v left ((hsame v hvu).trans hv)
    · intro task' hmem
      have hmem : task' ∈ pool.offered := hmem
      rw [hoffered] at hmem
      rcases List.mem_append.mp hmem with hmem | hmem
      · exact hs.known task' hmem
      · rw [List.mem_singleton.mp hmem, hcall]
        exact hs.bound howes
    · intro m hm
      obtain ⟨hbound, hnobody⟩ := hs.returned m hm
      refine ⟨hbound, fun v left hv => ?_⟩
      obtain ⟨before, hv⟩ := hback v m left hv
      exact hnobody v before hv
    · intro v task' hv
      by_cases hvu : v = u
      · exact ⟨n, rest, args, hvu ▸ hpc⟩
      · exact hs.hand v task' ((hothers v hvu).symm.trans hv)

/-- A call whose loop has come to its end has offered all that it owed. -/
theorem Dispatch.returns {s : State F A} (hs : Dispatch s) {u : Thread} {n : ℕ} {args : A}
    (hpc : s.pc u = .enqueueing n [] args) (hfree : s.pool_.inHand u = none) :
    Dispatch ({ s with returned := s.returned ++ [n] }.go u .out) := by
  have howes : s.owes u = some (n, []) := by
    simp [State.owes, hpc, Pc.ahead, hfree, deliveries]
  have hold : ∀ v m left,
      ({ s with returned := s.returned ++ [n] }.go u .out).owes v = some (m, left) →
      v ≠ u ∧ s.owes v = some (m, left) := by
    intro v m left hv
    by_cases hvu : v = u
    · simp [State.owes, hvu, Pc.ahead] at hv
    · refine ⟨hvu, ?_⟩
      rwa [State.owes, State.go_other hvu] at hv
  constructor
  · intro v m left hv
    exact hs.due v m left (hold v m left hv).2
  · intro v w m left left' hv hw
    exact hs.alone v w m left left' (hold v m left hv).2 (hold w m left' hw).2
  · intro m localList args' hm hnobody
    by_cases hmn : m = n
    · subst hmn
      obtain ⟨list, args'', hn, hsum⟩ := hs.due u m [] howes
      cases hm.symm.trans hn
      rw [List.append_nil] at hsum
      exact hsum
    · refine hs.whole m localList args' hm fun v left hv => ?_
      by_cases hvu : v = u
      · rw [hvu, howes] at hv
        cases hv
        exact hmn rfl
      · refine hnobody v left ?_
        rwa [State.owes, State.go_other hvu]
  · exact hs.known
  · intro m hm
    rcases List.mem_append.mp hm with hm | hm
    · obtain ⟨hbound, hnobody⟩ := hs.returned m hm
      exact ⟨hbound, fun v left hv => hnobody v left (hold v m left hv).2⟩
    · rw [List.mem_singleton.mp hm]
      refine ⟨hs.bound howes, fun v left hv => ?_⟩
      obtain ⟨hvu, hv⟩ := hold v n left hv
      exact hvu (hs.alone v u n left [] hv howes)
  · intro v task hv
    have hvu : v ≠ u := by
      rintro rfl
      have hno : s.pool_.inHand v = some task := hv
      rw [hfree] at hno
      cases hno
    rw [State.go_other hvu]
    exact hs.hand v task hv

/-- A new section owes what it has copied, and has offered nothing yet. -/
theorem Dispatch.recorded {s : State F A} (hs : Dispatch s) {u : Thread} {body : Body F A}
    {left : List (Callback F)} {sec : Section F A} (hpc : s.pc u = .holding body)
    (hfree : s.pool_.inHand u = none) : Dispatch (record u left sec s) := by
  have howes : s.owes u = none := by
    simp [State.owes, hpc, Pc.ahead]
  have hsame : ∀ v, v ≠ u → (record u left sec s).owes v = s.owes v := by
    intro v hv
    simp [State.owes, record, hv]
  -- only a section of `distribute` owes anything
  have hnew : ∀ m rest, (record u left sec s).owes u = some (m, rest) →
      m = s.sections.length ∧ ∃ localList args, sec = .copy localList args ∧
        rest = deliveries m args localList := by
    intro m rest hu
    cases sec with
    | copy localList args =>
        simp only [State.owes, record, Function.update_self, Pc.ahead, hfree, Option.map_some,
          Option.some.injEq, Prod.mk.injEq] at hu
        obtain ⟨rfl, rfl⟩ := hu
        exact ⟨rfl, localList, args, rfl, rfl⟩
    | _ => simp [State.owes, record, Pc.ahead] at hu
  constructor
  · intro v m rest hv
    by_cases hvu : v = u
    · rw [hvu] at hv
      obtain ⟨rfl, localList, args, rfl, rfl⟩ := hnew m rest hv
      refine ⟨localList, args, List.getElem?_concat_length, ?_⟩
      -- its number is new, so no task that was offered bears it
      have hnone : (record u left (.copy localList args) s).offeredBy s.sections.length = [] := by
        refine List.filter_eq_nil_iff.mpr fun task hmem => ?_
        simpa using (hs.known task hmem).ne
      rw [hnone, List.nil_append]
    · rw [hsame v hvu] at hv
      obtain ⟨localList, args, hm, hsum⟩ := hs.due v m rest hv
      refine ⟨localList, args, ?_, hsum⟩
      show (s.sections ++ [sec])[m]? = _
      rw [List.getElem?_append_left (hs.bound hv)]
      exact hm
  · intro v w m rest rest' hv hw
    by_cases hvu : v = u <;> by_cases hwu : w = u
    · rw [hvu, hwu]
    · rw [hsame w hwu] at hw
      rw [hvu] at hv
      exact absurd (hnew m rest hv).1 (hs.bound hw).ne
    · rw [hsame v hvu] at hv
      rw [hwu] at hw
      exact absurd (hnew m rest' hw).1 (hs.bound hv).ne
    · rw [hsame v hvu] at hv
      rw [hsame w hwu] at hw
      exact hs.alone v w m rest rest' hv hw
  · intro m localList args hm hnobody
    have hm : (s.sections ++ [sec])[m]? = some (.copy localList args) := hm
    by_cases hlt : m < s.sections.length
    · rw [List.getElem?_append_left hlt] at hm
      refine hs.whole m localList args hm fun v rest hv => ?_
      have hvu : v ≠ u := by
        rintro rfl
        rw [howes] at hv
        cases hv
      exact hnobody v rest ((hsame v hvu).trans hv)
    · have hlen : m = s.sections.length := by
        have hbound := (List.getElem?_eq_some_iff.mp hm).1
        simp only [List.length_append, List.length_singleton] at hbound
        omega
      subst hlen
      rw [List.getElem?_concat_length] at hm
      cases hm
      refine absurd ?_ (hnobody u (deliveries s.sections.length args localList))
      simp [State.owes, record, Pc.ahead, hfree]
  · intro task hmem
    show task.call < (s.sections ++ [sec]).length
    rw [List.length_append]
    exact Nat.lt_add_right _ (hs.known task hmem)
  · intro m hm
    obtain ⟨hbound, hnobody⟩ := hs.returned m hm
    constructor
    · show m < (s.sections ++ [sec]).length
      rw [List.length_append]
      exact Nat.lt_add_right _ hbound
    · intro v rest hv
      by_cases hvu : v = u
      · rw [hvu] at hv
        exact hbound.ne (hnew m rest hv).1
      · exact hnobody v rest ((hsame v hvu).symm.trans hv)
  · intro v task hv
    have hvu : v ≠ u := by
      rintro rfl
      have hno : s.pool_.inHand v = some task := hv
      rw [hfree] at hno
      cases hno
    rw [record, State.go_other hvu]
    exact hs.hand v task hv

theorem poolCall_spec {poolSize : ℕ} {pool pool' : ThreadPool.State (Task F A)} {u : Thread}
    {task : Task F A} (h : ThreadPool.step poolSize pool (poolCall task u) = some pool') :
    pool'.inHand u = some task ∧ (∀ v, v ≠ u → pool'.inHand v = pool.inHand v) ∧
      pool'.offered = pool.offered ∧ pool'.accepted = pool.accepted := by
  cases u with
  | client c =>
      cases ThreadPool.step_cases h with
      | call hphase hpc =>
          refine ⟨?_, fun v hv => ?_, rfl, rfl⟩
          · simp [ThreadPool.State.inHand, ThreadPool.State.call, ThreadPool.ClientPc.call?,
              ThreadPool.Op.entry, ThreadPool.CallPc.task]
          · cases v with
            | worker j => rfl
            | client d =>
                have hd : d ≠ c := fun heq => hv (heq ▸ rfl)
                simp [ThreadPool.State.inHand, ThreadPool.State.call, hd]
  | worker i =>
      cases ThreadPool.step_cases h with
      | nest hpc hi =>
          refine ⟨?_, fun v hv => ?_, rfl, rfl⟩
          · simp [ThreadPool.State.inHand, ThreadPool.State.call, ThreadPool.WorkerPc.call,
              ThreadPool.Op.entry, ThreadPool.CallPc.task]
          · cases v with
            | client d => rfl
            | worker j =>
                have hj : j ≠ i := fun heq => hv (heq ▸ rfl)
                simp [ThreadPool.State.inHand, ThreadPool.State.call, hj]

/-- A step of the distributor that changes nothing of this. -/
theorem Dispatch.go {s t : State F A} (hs : Dispatch s) {u : Thread} {pc : Pc F A}
    (hpc : t.pc = Function.update s.pc u pc)
    (hframe : t.sections = s.sections ∧ t.pool_ = s.pool_ ∧ t.returned = s.returned)
    (hfree : s.pool_.inHand u = none)
    (hahead : pc.ahead = (s.pc u).ahead) : Dispatch t := by
  obtain ⟨hsections, hpool, hreturned⟩ := hframe
  refine hs.same (fun v => ?_) ⟨hsections, by rw [hpool], hreturned⟩ fun v task hv => ?_
  · by_cases hvu : v = u
    · rw [State.owes, State.owes, hpool, hpc, hvu, Function.update_self, hahead]
    · rw [State.owes, State.owes, hpool, hpc, Function.update_of_ne hvu]
  · rw [hpool] at hv
    have hvu : v ≠ u := by
      rintro rfl
      rw [hfree] at hv
      cases hv
    rw [hpc, Function.update_of_ne hvu]
    exact hs.hand v task hv

/-- The next task passes from the loop into the hand. -/
theorem Dispatch.enqueue {s : State F A} (hs : Dispatch s) {poolSize : ℕ} {u : Thread} {n : ℕ}
    {c : Callback F} {fn : F} {localList : List (Callback F)} {args : A}
    {pool : ThreadPool.State (Task F A)} (hfree : s.pool_.inHand u = none)
    (hpc : s.pc u = .enqueueing n (c :: localList) args) (hfn : c.fn = some fn)
    (h : ThreadPool.step poolSize s.pool_ (poolCall ⟨n, c.token, fn, args⟩ u) = some pool) :
    Dispatch ({ s with pool_ := pool }.go u (.enqueueing n localList args)) := by
  obtain ⟨hhand, hothers, hoffered, -⟩ := poolCall_spec h
  refine hs.same (fun v => ?_) ⟨rfl, hoffered, rfl⟩ fun v task hv => ?_
  · by_cases hvu : v = u
    · simp [State.owes, hvu, hpc, Pc.ahead, hhand, hfree, deliveries, hfn]
    · simp [State.owes, hvu, hothers v hvu]
  · by_cases hvu : v = u
    · exact ⟨n, localList, args, by rw [hvu, State.go_self]⟩
    · rw [State.go_other hvu]
      exact hs.hand v task ((hothers v hvu).symm.trans hv)

theorem Op.entry_ahead (op : Op F A) : op.entry.ahead = none := by
  cases op <;> rfl

theorem Section.next_ahead (sec : Section F A) (n : ℕ) :
    (sec.next n).ahead = (Pc.unlock n sec).ahead := by
  cases sec <;> rfl

theorem Dispatch.own {poolSize : ℕ} {s t : State F A} {u : Thread} (hs : Dispatch s)
    (hfree : s.pool_.inHand u = none) (h : OwnStep poolSize u s t) : Dispatch t := by
  cases h with
  | @go pc h =>
      generalize hpc : s.pc u = old at h
      cases h with
      | skip hfn =>
          refine hs.go (u := u) rfl ⟨rfl, rfl, rfl⟩ hfree ?_
          simp [hpc, Pc.ahead, deliveries, hfn]
      | null | token | refused | next =>
          exact hs.go (u := u) rfl ⟨rfl, rfl, rfl⟩ hfree (by rw [hpc]; rfl)
  | returns hpc => exact hs.returns hpc hfree
  | record hpc h => exact hs.recorded hpc hfree
  | @unlock n sec hpc =>
      exact hs.go (u := u) rfl ⟨rfl, rfl, rfl⟩ hfree (by rw [hpc]; exact sec.next_ahead n)
  | make hpc | lock hpc => exact hs.go (u := u) rfl ⟨rfl, rfl, rfl⟩ hfree (by rw [hpc]; rfl)
  | enqueue hpc hfn h => exact hs.enqueue hfree hpc hfn h

theorem Dispatch.of_reach {poolSize : ℕ} {s : State F A} (h : (machine poolSize).Reach s) :
    Dispatch s := by
  refine h.invariant (P := Dispatch) ?_ ?_
  · rintro s rfl
    have hnobody : ∀ u, (State.initial : State F A).pool_.inHand u = none := by
      intro u
      cases u with
      | worker i => rfl
      | client c =>
          by_cases hc : c = 0
          · subst hc
            rfl
          · simp [State.initial, ThreadPool.State.initial, ThreadPool.State.inHand,
              ThreadPool.State.call, ThreadPool.ClientPc.call?, hc]
    have howes : ∀ u, (State.initial : State F A).owes u = none := fun _ => rfl
    constructor
    · intro u n left hu
      cases (howes u).symm.trans hu
    · intro u v n left left' hu
      cases (howes u).symm.trans hu
    · intro n localList args hn
      cases hn
    · intro task htask
      cases htask
    · intro n hn
      cases hn
    · intro u task hu
      cases (hnobody u).symm.trans hu
  · intro s a t hreach hs _ hst
    cases step_cases hst with
    | pool ha h =>
        obtain ⟨u, gone, hoffered, hu, hothers⟩ :=
          ThreadPool.hands_offer ((refines_pool poolSize).reach hreach) h ha
        exact hs.pool hoffered hu hothers
    | @start u op hfree =>
        have hout := State.free_out hfree
        refine hs.go (u := u) rfl ⟨rfl, rfl, rfl⟩ ?_ ?_
        · cases hhand : s.pool_.inHand u with
          | none => rfl
          | some task =>
              obtain ⟨n, localList, args, hpc⟩ := hs.hand u task hhand
              cases hout.symm.trans hpc
        · rw [hout, op.entry_ahead]
          rfl
    | own hcall h => exact hs.own (by rw [ThreadPool.State.inHand, hcall]; rfl) h

/-! ## Executions -/

namespace State

/-- The executions on behalf of call `n` that have begun. -/
def executed (s : State F A) (n : ℕ) : List (Task F A) :=
  (s.pool_.begun.map Prod.fst).filter (·.call = n)

/-- Those that have ended, by returning or by throwing. -/
def completed (s : State F A) (n : ℕ) : List (Task F A) :=
  (s.pool_.finished.map Prod.fst).filter (·.call = n)

end State

/-- What a call has offered begins what it owed. -/
theorem Dispatch.offered_owed {s : State F A} (hs : Dispatch s) {n : ℕ}
    {localList : List (Callback F)} {args : A}
    (hn : s.sections[n]? = some (.copy localList args)) :
    s.offeredBy n <+: deliveries n args localList := by
  by_cases hsome : ∃ u left, s.owes u = some (n, left)
  · obtain ⟨u, left, hu⟩ := hsome
    obtain ⟨localList', args', hn', hsum⟩ := hs.due u n left hu
    cases hn.symm.trans hn'
    exact ⟨left, hsum⟩
  · push Not at hsome
    rw [hs.whole n localList args hn hsome]

/-- What has been recorded and accepted stays. -/
def Extends (s t : State F A) : Prop :=
  s.sections <+: t.sections ∧ s.pool_.accepted <+: t.pool_.accepted

theorem Extends.of_run {poolSize : ℕ} {s t : State F A}
    (h : (machine poolSize).RunBy (fun _ _ => True) s t) : Extends s t := by
  refine h.relation (R := Extends) (fun s => ⟨List.prefix_rfl, List.prefix_rfl⟩) ?_
  intro s t a u ⟨hsections, haccepted⟩ _ hst
  cases step_cases hst with
  | pool ha h => exact ⟨hsections, haccepted.trans (ThreadPool.accepted_grows h)⟩
  | start => exact ⟨hsections, haccepted⟩
  | own hcall h =>
      cases h with
      | record => exact ⟨hsections.trans (List.prefix_append _ _), haccepted⟩
      | enqueue hpc hfn h =>
          exact ⟨hsections, haccepted.trans (ThreadPool.accepted_grows h)⟩
      | _ => exact ⟨hsections, haccepted⟩

theorem deliveries_tokens (n : ℕ) (args : A) (localList : List (Callback F)) :
    ((deliveries n args localList).map Task.token).Sublist (localList.map Callback.token) := by
  induction localList with
  | nil => exact List.Sublist.refl _
  | cons c localList ih =>
      cases hfn : c.fn with
      | none => simpa [deliveries, hfn] using ih.cons c.token
      | some fn => simpa [deliveries, hfn] using ih.cons_cons c.token

/-- Each callback is owed one task. -/
theorem Tokens.deliveries_nodup {s : State F A} (hs : Tokens s) {n : ℕ}
    {localList : List (Callback F)} {args : A}
    (hn : s.sections[n]? = some (.copy localList args)) :
    (deliveries n args localList).Nodup :=
  .of_map Task.token ((deliveries_tokens n args localList).nodup (hs.copies n localList args hn))

theorem executed_subperm {poolSize : ℕ} {s : State F A} (h : (machine poolSize).Reach s) {n : ℕ}
    {localList : List (Callback F)} {args : A}
    (hn : s.sections[n]? = some (.copy localList args)) :
    (s.executed n).Subperm (deliveries n args localList) := by
  have hbegun := ThreadPool.begun_subperm ((refines_pool poolSize).reach h)
  have haccepted : (s.pool_.accepted.filter (·.call = n)).Sublist (s.offeredBy n) :=
    (List.sublist_append_left _ _).filter _
  exact (hbegun.filter _).trans
    (haccepted.trans ((Dispatch.of_reach h).offered_owed hn).sublist).subperm

/-- A call that is over before the destructor starts has been accepted whole. -/
theorem accepted_whole {poolSize : ℕ} {s : State F A} (h : (machine poolSize).Reach s) {n : ℕ}
    {localList : List (Callback F)} {args : A}
    (hn : s.sections[n]? = some (.copy localList args)) (hphase : s.pool_.phase = .alive)
    (hover : n ∈ s.returned) :
    s.pool_.accepted.filter (·.call = n) = deliveries n args localList := by
  have hpool := (refines_pool poolSize).reach h
  have hopen : s.pool_.stop_ = false := by
    by_contra hset
    have hending := (ThreadPool.Life.of_reach hpool).stopped (Bool.not_eq_false _ ▸ hset)
    rw [hphase] at hending
    cases hending
  have hall : s.pool_.offered = s.pool_.accepted := by
    rw [ThreadPool.State.offered, ThreadPool.refused_open hpool hopen]
    exact List.append_nil _
  rw [← hall]
  have hdispatch := Dispatch.of_reach h
  exact hdispatch.whole n localList args hn (hdispatch.returned n hover).2

/-- It stays so, and the destructor waits for all of it to be executed. -/
theorem completed_perm {poolSize : ℕ} {s t : State F A} (h : (machine poolSize).Reach s)
    (hrun : (machine poolSize).RunBy (fun _ _ => True) s t) {n : ℕ}
    {localList : List (Callback F)} {args : A}
    (hn : s.sections[n]? = some (.copy localList args)) (hphase : s.pool_.phase = .alive)
    (hover : n ∈ s.returned) (hend : t.pool_.phase = .destroyed) :
    (t.completed n).Perm (deliveries n args localList) := by
  have ht := h.run hrun
  obtain ⟨⟨later, hsections⟩, more, haccepted⟩ := Extends.of_run hrun
  have hkept : t.sections[n]? = some (.copy localList args) := by
    rw [← hsections, List.getElem?_append_left (List.getElem?_eq_some_iff.mp hn).1]
    exact hn
  have hbegins : t.pool_.accepted.filter (·.call = n) <+: deliveries n args localList :=
    ((List.prefix_append _ _).filter _).trans ((Dispatch.of_reach ht).offered_owed hkept)
  have hwhole : t.pool_.accepted.filter (·.call = n) = deliveries n args localList := by
    refine hbegins.eq_of_length_le ?_
    rw [← haccepted, List.filter_append, accepted_whole h hn hphase hover, List.length_append]
    exact Nat.le_add_right _ _
  rw [← hwhole]
  exact (ThreadPool.finished_perm ((refines_pool poolSize).reach ht) hend).filter _

/-! ## The distributor -/

/-- The critical sections of `listLock` behave as operations on the registry, one after the
other, and each call of `distribute` has the non-empty callbacks of its copy executed once,
with its arguments: never twice, and all of them by the time the distributor is destroyed
if its loop was over before that began. -/
theorem delivers_once {poolSize : ℕ} {s : State F A} (h : (machine poolSize).Reach s) :
    (s.callbackList = registry s.sections ∧ (s.callbackList.map Callback.token).Nodup ∧
      Legal s.sections ∧ ∀ u n sec, s.pc u = .unlock n sec → s.sections[n]? = some sec) ∧
    ∀ (n : ℕ) localList args, s.sections[n]? = some (.copy localList args) →
      ((deliveries n args localList).Nodup ∧
        (s.executed n).Subperm (deliveries n args localList)) ∧
      (s.pool_.phase = .alive → n ∈ s.returned →
        ∀ t, (machine poolSize).RunBy (fun _ _ => True) s t → t.pool_.phase = .destroyed →
          (t.completed n).Perm (deliveries n args localList)) := by
  have hregistered := Registered.of_reach h
  have htokens := Tokens.of_reach h
  refine ⟨⟨hregistered.list, htokens.nodup, hregistered.legal, hregistered.numbered⟩, ?_⟩
  intro n localList args hn
  refine ⟨⟨htokens.deliveries_nodup hn, executed_subperm h hn⟩, ?_⟩
  intro hphase hover t hrun hend
  exact completed_perm h hrun hn hphase hover hend

/-- A message goes to a callback and past an empty one. The callback is removed before it
runs, and it throws. -/
theorem delivers_once_removed :
    ∃ s t : State ℕ ℕ, (s.pool_.phase = .alive ∧ t.pool_.phase = .destroyed) ∧
      (t.callbackList = [⟨1, none⟩] ∧ t.completed 2 = [⟨2, 0, 7, 9⟩]) ∧
      (t.completed 2).Perm (deliveries 2 9 [⟨0, some 7⟩, ⟨1, none⟩]) := by
  obtain ⟨s, hs, hphase, hover, hn, hrun⟩ := Machine.ReachBy.of_exec (M := machine 1)
    (G := fun _ _ => True) State.initial
    (runClient 2 ++ runMethod (.client 0) (.addUpdateCallback (some 7)) 4 ++
      runMethod (.client 0) (.addUpdateCallback none) 4 ++
      runMethod (.client 0) (.distribute 9) 4 ++ runClient 5 ++
      List.replicate 2 (.own (.client 0)))
    (fun s : State ℕ ℕ => s.pool_.phase = .alive ∧ 2 ∈ s.returned ∧
      s.sections[2]? = some (.copy [⟨0, some 7⟩, ⟨1, none⟩] 9) ∧
      ((machine 1).exec (fun _ _ => True) s
        (runMethod (.client 1) (.removeUpdateCallback (some 0)) 4 ++ runWorker 6 ++
          .finish 0 .throws :: .pool (.destroy 0) :: runClient 4 ++ runWorker 4 ++
          runClient 2)).any (fun t => decide (t.pool_.phase = .destroyed ∧
            t.callbackList = [⟨1, none⟩] ∧ t.completed 2 = [⟨2, 0, 7, 9⟩])) = true)
    rfl (by decide)
  obtain ⟨t, hrun, hend, hread⟩ := Machine.RunBy.of_schedule hrun
  exact ⟨s, t, ⟨hphase, hend⟩, hread,
    ((delivers_once hs).2 2 _ 9 hn).2 hphase hover t hrun hend⟩

end MessageDistribute
