import CcmakeTemplate.Pipeline.Activity
import CcmakeTemplate.Pipeline.Conservation

/-!
# Who is in `processWorkerList`

`processWorkerList` has no lock of its own. `setProcessWorkerCount` changes it and
`getQueueCount` reads it, so a client keeps the first apart from both. In such runs a
process worker that has not ended is in the list, unless the call that has just created
it is about to append it, and only a worker that has ended is taken off the list.
-/

namespace Pipeline

open Concurrency

variable {I O F : Type}

/-! ## The list is not shared -/

/-- In `hireFireWorker` for the process workers, or in the constructor before it. -/
def CallPc.resizing : CallPc I F → Bool
  | .hireFire crew _ _ ret =>
      match crew, ret with
      | .process, _ | .callback, .constructorProcess _ => true
      | _, _ => false
  | _ => false

/-- In `getQueueCount`, with both mutexes. -/
def CallPc.counting : CallPc I F → Bool
  | .countSizes | .countScan .. | .countUnlock .. => true
  | _ => false

/-- `setProcessWorkerCount` is called while nobody else changes or reads the list, and
`getQueueCount` takes its mutexes while nobody changes it. -/
def ListApart (s : State I O F) (a : Action I F) : Prop :=
  (∀ u pc, a.entry = some (u, pc) → pc.resizing = true →
    ∀ v, (s.doing v).resizing = false ∧ (s.doing v).counting = false) ∧
  (s.call a = some .countLock → ∀ v, (s.doing v).resizing = false)

structure ListUse (s : State I O F) : Prop where
  alone : ∀ u v, (s.doing u).resizing = true → (s.doing v).resizing = true → u = v
  apart : ∀ u v, (s.doing u).resizing = true → (s.doing v).counting = false

theorem CallStep.resizing {u : Thread} {s t : State I O F} {pc pc' : CallPc I F}
    (h : CallStep u s pc t pc') (hkind : pc.kind ≠ .destructor) (hpc' : pc'.resizing = true) :
    pc.resizing = true := by
  cases h with
  | go h => cases h <;> exact hpc'
  | lockProcess h | lockOutput h => cases h <;> cases hpc'
  | unlockProcess h | unlockOutput h =>
      cases h with
      | clear => exact absurd rfl hkind
      | _ => cases hpc'
  | @returns crew _ ret =>
      cases ret with
      | constructorProcess => cases crew <;> rfl
      | _ => cases hpc'
  | _ => exact hpc'

theorem CallStep.counting {u : Thread} {s t : State I O F} {pc pc' : CallPc I F}
    (h : CallStep u s pc t pc') (hpc' : pc'.counting = true) :
    pc.counting = true ∨ pc = .countLock := by
  cases h with
  | go h =>
      cases h with
      | sizes | scanned | scan => exact .inl rfl
      | _ => cases hpc'
  | lockBoth => exact .inr rfl
  | lockProcess h | lockOutput h | unlockProcess h | unlockOutput h => cases h <;> cases hpc'
  | @returns _ _ ret => cases ret <;> cases hpc'
  | _ => cases hpc'

theorem Action.entry_counting {a : Action I F} {u : Thread} {pc : CallPc I F}
    (h : a.entry = some (u, pc)) : pc.counting = false := by
  cases a with
  | call c op | nest i op =>
      cases h
      cases op <;> rfl
  | destroy c =>
      cases h
      rfl
  | _ => cases h

/-- What holds of each call still does after one of them moved. -/
theorem forall_doing {s t : State I O F} {P : Thread → CallPc I F → Prop} {u : Thread}
    {pc : CallPc I F} (hdoing : t.doing = Function.update s.doing u pc)
    (hs : ∀ v, P v (s.doing v)) (hpc : P u pc) (v : Thread) : P v (t.doing v) := by
  rw [hdoing]
  exact forall_update (P := P) hs hpc v

theorem ListUse.step {process : I → O} {s t : State I O F} {a : Action I F}
    (h : Activity process s a t) (hG : ListApart s a) (hkinds : ∀ u, (s.doing u).kind ≠ .destructor)
    (hs : ListUse s) : ListUse t := by
  cases h with
  | process hi h ha hdoing | callback hi h ha hdoing | spurious ha hdoing =>
      exact ⟨by rw [hdoing]; exact hs.alone, by rw [hdoing]; exact hs.apart⟩
  | @call u s' pc ha h hdoing halike =>
      have hback : ∀ v, (t.doing v).resizing = true → (s.doing v).resizing = true := by
        refine forall_doing hdoing (P := fun v (pc : CallPc I F) =>
          pc.resizing = true → (s.doing v).resizing = true) (fun _ h => h) ?_
        exact h.resizing (hkinds u)
      refine ⟨fun v w hv hw => hs.alone v w (hback v hv) (hback w hw), fun v w hv => ?_⟩
      have hold := hs.apart v w (hback v hv)
      by_contra hcounting
      by_cases hw : w = u
      · subst hw
        rw [hdoing, Function.update_self] at hcounting
        rcases h.counting (by simpa using hcounting) with hsame | hlock
        · simp [hold] at hsame
        · rw [hlock] at ha
          cases (hG.2 ha.2 v).symm.trans (hback v hv)
      · rw [hdoing, Function.update_of_ne hw] at hcounting
        exact hcounting hold
  | @entry u pc ha hout hdoing halike =>
      cases hpc : pc.resizing with
      | false =>
          have hback : ∀ v, (t.doing v).resizing = true → (s.doing v).resizing = true := by
            refine forall_doing hdoing (P := fun v (pc : CallPc I F) =>
              pc.resizing = true → (s.doing v).resizing = true) (fun _ h => h) ?_
            intro hpc'
            simp [hpc] at hpc'
          refine ⟨fun v w hv hw => hs.alone v w (hback v hv) (hback w hw), fun v w hv => ?_⟩
          exact forall_doing hdoing (P := fun _ (pc : CallPc I F) => pc.counting = false)
            (fun w => hs.apart v w (hback v hv)) (Action.entry_counting ha) w
      | true =>
          have hnobody := hG.1 u pc ha hpc
          have honly : ∀ v, (t.doing v).resizing = true → v = u := by
            refine forall_doing hdoing (P := fun v (pc : CallPc I F) =>
              pc.resizing = true → v = u) (fun v hv => ?_) fun _ => rfl
            simp [(hnobody v).1] at hv
          refine ⟨fun v w hv hw => (honly v hv).trans (honly w hw).symm, fun v w _ => ?_⟩
          exact forall_doing hdoing (P := fun _ (pc : CallPc I F) => pc.counting = false)
            (fun w => (hnobody w).2) (Action.entry_counting ha) w

/-! ## Who is on a list -/

/-- In `hireFireWorker` for this crew. -/
def CallPc.handles (crew : Crew) : CallPc I F → Bool
  | .hireFire crew' _ _ _ => crew' == crew
  | _ => false

/-- The worker that the call has created and not appended. -/
def CallPc.creates (crew : Crew) : CallPc I F → Option ℕ
  | .hireFire crew' _ (.pushBack id) _ => if crew' = crew then some id else none
  | _ => none

/-- The worker that the call is firing is the first of the list, and it is removed only
when it has ended. -/
def CallPc.InPlace (crew : Crew) (list : List ℕ) (ended : ℕ → Bool) : CallPc I F → Prop
  | .hireFire crew' _ (.status id) _ | .hireFire crew' _ (.setQuit id) _
  | .hireFire crew' _ (.notifyAll id) _ | .hireFire crew' _ (.join id) _ =>
      crew' = crew → ∃ rest, list = id :: rest
  | .hireFire crew' _ .popFront _ =>
      crew' = crew → ∃ id rest, list = id :: rest ∧ ended id = true
  | _ => True

structure Enlisted (crew : Crew) (s : State I O F) : Prop where
  listed : ∀ i, i < s.hired crew → i ∈ s.workerList crew ∨ s.ended crew i = true ∨
    ∃ u, (s.doing u).creates crew = some i
  calls : ∀ u, (s.doing u).InPlace crew (s.workerList crew) (s.ended crew)

/-- What a method step does to the list of a crew. -/
inductive ListStep (crew : Crew) (s t : State I O F) (pc pc' : CallPc I F) : Prop
  | same (hlist : t.workerList crew = s.workerList crew) (hhired : t.hired crew = s.hired crew)
      (hcreates : pc.creates crew = none)
      (hplace : pc.InPlace crew (s.workerList crew) (s.ended crew) →
        pc'.InPlace crew (s.workerList crew) (s.ended crew))
  | created (hlist : t.workerList crew = s.workerList crew)
      (hhired : t.hired crew = s.hired crew + 1) (hcreates : pc.creates crew = none)
      (hnew : pc'.creates crew = some (s.hired crew)) (hplace : ∀ l e, pc'.InPlace crew l e)
  | appended (id : ℕ) (hcreates : pc.creates crew = some id)
      (hlist : t.workerList crew = s.workerList crew ++ [id])
      (hhired : t.hired crew = s.hired crew) (hpc : pc.handles crew = true)
      (hplace : ∀ l e, pc'.InPlace crew l e)
  | removed (hcreates : pc.creates crew = none)
      (hold : pc.InPlace crew (s.workerList crew) (s.ended crew) →
        ∃ id rest, s.workerList crew = id :: rest ∧ s.ended crew id = true)
      (hlist : t.workerList crew = (s.workerList crew).tail)
      (hhired : t.hired crew = s.hired crew) (hpc : pc.handles crew = true)
      (hplace : ∀ l e, pc'.InPlace crew l e)

theorem CallPc.inPlace_of_other {crew : Crew} {pc : CallPc I F} (h : pc.handles crew = false)
    (l : List ℕ) (e : ℕ → Bool) : pc.InPlace crew l e := by
  unfold InPlace
  split
  all_goals try exact trivial
  all_goals
    rintro rfl
    simp [handles] at h

theorem CallPc.creates_of_other {crew : Crew} {pc : CallPc I F} (h : pc.handles crew = false) :
    pc.creates crew = none := by
  unfold creates
  split
  · rw [if_neg]
    rintro rfl
    simp [handles] at h
  · rfl

theorem CallStep.listStep (crew : Crew) {u : Thread} {s t : State I O F} {pc pc' : CallPc I F}
    (h : CallStep u s pc t pc') : ListStep crew s t pc pc' := by
  -- a call for the other crew leaves this list alone
  have hother : ∀ {crew' count count' p p' ret ret'}, crew' ≠ crew →
      pc = .hireFire crew' count p ret → pc' = .hireFire crew' count' p' ret' →
      t.workerList crew = s.workerList crew → t.hired crew = s.hired crew →
      ListStep crew s t pc pc' := by
    rintro crew' count count' p p' ret ret' hcrew rfl rfl hlist hhired
    have hne : ∀ (n : ℕ) (h : HirePc) (r : Return),
        (.hireFire crew' n h r : CallPc I F).handles crew = false :=
      fun _ _ _ => beq_eq_false_iff_ne.mpr hcrew
    apply ListStep.same hlist hhired
    · exact CallPc.creates_of_other (hne ..)
    · exact fun _ => CallPc.inPlace_of_other (hne ..) _ _
  cases h with
  | go h =>
      cases h with
      | @hire crew' count ret _ _ h =>
          by_cases hcrew : crew' = crew
          · subst hcrew
            cases h with
            | enough | notEarly => exact .same rfl rfl rfl fun _ => trivial
            | tooMany hlist => exact .same rfl rfl rfl fun _ _ => ⟨_, hlist⟩
            | exited | notExited => exact .same rfl rfl rfl fun h => h
            | @joined id hended =>
                refine .same rfl rfl rfl fun h _ => ?_
                obtain ⟨rest, hlist⟩ := h rfl
                exact ⟨id, rest, hlist, hended⟩
          · exact hother hcrew rfl rfl rfl rfl
      | _ => exact .same rfl rfl rfl fun _ => trivial
  | lockProcess h | unlockProcess h | lockOutput h | unlockOutput h =>
      cases h <;> exact .same rfl rfl rfl fun _ => trivial
  | @create crew' count ret hlt =>
      by_cases hcrew : crew' = crew
      · subst hcrew
        refine .created ?_ ?_ rfl (if_pos rfl) fun _ _ => trivial
        · cases crew' <;> rfl
        · have hhired : Function.update s.hired crew' (s.hired crew' + 1) crew' =
              s.hired crew' + 1 := Function.update_self ..
          cases crew' <;> exact hhired
      · refine hother hcrew rfl rfl ?_ ?_
        · cases crew' <;> rfl
        · cases crew' <;> exact Function.update_of_ne (Ne.symm hcrew) ..
  | @pushBack crew' count id =>
      by_cases hcrew : crew' = crew
      · subst hcrew
        exact .appended id (if_pos rfl) (Function.update_self ..) rfl (beq_self_eq_true crew')
          fun _ _ => trivial
      · exact hother hcrew rfl rfl (Function.update_of_ne (Ne.symm hcrew) ..) rfl
  | @setQuit crew' =>
      by_cases hcrew : crew' = crew
      · subst hcrew
        exact .same rfl rfl rfl fun h => h
      · exact hother hcrew rfl rfl rfl rfl
  | @notifyAll crew' =>
      have hlist : (Pipeline.notifyAll s crew').workerList crew = s.workerList crew := by
        cases crew' <;> rfl
      have hhired : (Pipeline.notifyAll s crew').hired crew = s.hired crew := by cases crew' <;> rfl
      by_cases hcrew : crew' = crew
      · subst hcrew
        exact .same hlist hhired rfl fun h => h
      · exact hother hcrew rfl rfl hlist hhired
  | @popFront crew' =>
      by_cases hcrew : crew' = crew
      · subst hcrew
        exact .removed rfl (fun h => h rfl) (Function.update_self ..) rfl
          (beq_self_eq_true crew') fun _ _ => trivial
      · exact hother hcrew rfl rfl (Function.update_of_ne (Ne.symm hcrew) ..) rfl
  | @returns crew' count ret pc h =>
      have hcreates : (.hireFire crew' count pc ret : CallPc I F).creates crew = none := by
        cases h <;> rfl
      cases ret <;> exact .same rfl rfl hcreates fun _ => trivial
  | _ => exact .same rfl rfl rfl fun _ => trivial

theorem CallPc.InPlace.move {crew : Crew} {pc : CallPc I F} {l : List ℕ} {e e' : ℕ → Bool}
    (h : pc.InPlace crew l e) (hended : ∀ i, e i = true → e' i = true) :
    pc.InPlace crew l e' := by
  unfold InPlace at h ⊢
  split at h
  all_goals try exact h
  intro hcrew
  obtain ⟨id, rest, hlist, hid⟩ := h hcrew
  exact ⟨id, rest, hlist, hended id hid⟩

theorem State.ended_process {s : State I O F} {i : ℕ} (h : s.ended .process i = true) :
    s.processPc i = .ended := by
  cases hpc : s.processPc i with
  | ended => rfl
  | _ => simp [State.ended, hpc] at h

theorem CallStep.ended {u : Thread} {s t : State I O F} {pc pc' : CallPc I F}
    (h : CallStep u s pc t pc') (hborn : Unborn s) : t.ended = s.ended := by
  obtain ⟨hprocess, hcallback⟩ := h.workers hborn
  funext crew i
  cases crew
  · simp only [State.ended, hprocess]
  · simp only [State.ended, hcallback]

theorem State.ended_goCallback {s : State I O F} {crew : Crew} {i j : ℕ} {pc : CallbackPc I O F}
    (hrunning : s.ended .callback j = false) (hi : s.ended crew i = true) :
    (s.goCallback j pc).ended crew i = true := by
  cases crew with
  | process => exact hi
  | callback =>
      have hij : i ≠ j := by
        rintro rfl
        cases hi.symm.trans hrunning
      simpa only [State.ended, Function.update_of_ne hij] using hi

/-- A worker that has ended stays so. -/
theorem Step.ended {process : I → O} {s t : State I O F} {a : Action I F}
    (h : Step process s a t) (hborn : Unborn s) {crew : Crew} {i : ℕ}
    (hi : s.ended crew i = true) : t.ended crew i = true := by
  cases h with
  | @process j _ _ _ h =>
      cases crew with
      | process =>
          have hij : i ≠ j := by
            rintro rfl
            cases hi.symm.trans h.running
          simpa only [State.ended, h.frame.processPc i hij] using hi
      | callback => simpa only [State.ended, h.frame.callbackPc] using hi
  | callback _ h =>
      have hrunning := h.running
      cases h with
      | nested _ h =>
          rw [← h.ended hborn] at hi hrunning
          exact State.ended_goCallback hrunning hi
      | _ => exact State.ended_goCallback (s := s) hrunning hi
  | client h => rwa [← h.ended hborn] at hi
  | nest hpc => exact State.ended_goCallback (by simp [State.ended, hpc]) hi
  | _ => exact hi

variable {crew : Crew}

theorem Enlisted.of_same {s t : State I O F} (hs : Enlisted crew s) (hdoing : t.doing = s.doing)
    (hlist : t.workerList = s.workerList) (hhired : t.hired = s.hired)
    (hended : ∀ i, s.ended crew i = true → t.ended crew i = true) : Enlisted crew t := by
  refine ⟨fun i hi => ?_, fun u => ?_⟩
  · rw [hhired] at hi
    rw [hlist, hdoing]
    exact (hs.listed i hi).imp_right (Or.imp_left (hended i))
  · rw [hlist, hdoing]
    exact (hs.calls u).move hended

theorem Enlisted.of_call {u : Thread} {s s' t : State I O F} {pc : CallPc I F}
    (h : CallStep u s (s.doing u) s' pc) (hdoing : t.doing = Function.update s.doing u pc)
    (halike : Alike s' t) (hended : ∀ i, s.ended crew i = true → t.ended crew i = true)
    (halone : (s.doing u).handles crew = true → ∀ v, (s.doing v).handles crew = true → v = u)
    (hs : Enlisted crew s) : Enlisted crew t := by
  have hlist' : t.workerList crew = s'.workerList crew := congrFun halike.workerList crew
  have hhired' : t.hired crew = s'.hired crew := congrFun halike.hired crew
  -- the other calls keep what they have created
  have hother : ∀ {i v}, v ≠ u → (s.doing v).creates crew = some i →
      ∃ w, (t.doing w).creates crew = some i := by
    intro i v hv hcreates
    exact ⟨v, by rwa [hdoing, Function.update_of_ne hv]⟩
  have hkept : (s.doing u).creates crew = none → ∀ i,
      s.ended crew i = true ∨ (∃ v, (s.doing v).creates crew = some i) →
      t.ended crew i = true ∨ ∃ v, (t.doing v).creates crew = some i := by
    intro hnone i hi
    refine hi.imp (hended i) ?_
    rintro ⟨v, hv⟩
    refine hother (v := v) ?_ hv
    rintro rfl
    cases hnone.symm.trans hv
  -- nobody else is in place to fire while this call changes the list
  have hplaces : (s.doing u).handles crew = true → (∀ l e, pc.InPlace crew l e) →
      ∀ v, (t.doing v).InPlace crew (t.workerList crew) (t.ended crew) := by
    intro hhandles hplace v
    by_cases hv : v = u
    · subst hv
      rw [hdoing, Function.update_self]
      exact hplace _ _
    · rw [hdoing, Function.update_of_ne hv]
      refine CallPc.inPlace_of_other ?_ _ _
      by_contra hhandles'
      exact hv (halone hhandles v (by simpa using hhandles'))
  cases h.listStep crew with
  | same hlist hhired hcreates hplace =>
      refine ⟨fun i hi => ?_, fun v => ?_⟩
      · rw [hhired', hhired] at hi
        rw [hlist', hlist]
        exact (hs.listed i hi).imp_right (hkept hcreates i)
      · rw [hlist', hlist]
        refine CallPc.InPlace.move ?_ hended
        exact forall_doing hdoing (P := fun _ (pc : CallPc I F) =>
          pc.InPlace crew (s.workerList crew) (s.ended crew)) hs.calls (hplace (hs.calls u)) v
  | created hlist hhired hcreates hnew hplace =>
      refine ⟨fun i hi => ?_, fun v => ?_⟩
      · rw [hhired', hhired] at hi
        rw [hlist', hlist]
        rcases Nat.lt_succ_iff_lt_or_eq.mp hi with hi | rfl
        · exact (hs.listed i hi).imp_right (hkept hcreates i)
        · refine .inr (.inr ⟨u, ?_⟩)
          rwa [hdoing, Function.update_self]
      · rw [hlist', hlist]
        refine CallPc.InPlace.move ?_ hended
        exact forall_doing hdoing (P := fun _ (pc : CallPc I F) =>
          pc.InPlace crew (s.workerList crew) (s.ended crew)) hs.calls (hplace _ _) v
  | appended id hcreates hlist hhired hhandles hplace =>
      refine ⟨fun i hi => ?_, hplaces hhandles hplace⟩
      rw [hhired', hhired] at hi
      rw [hlist', hlist, List.mem_append, List.mem_singleton]
      rcases hs.listed i hi with hmem | hend | ⟨v, hv⟩
      · exact .inl (.inl hmem)
      · exact .inr (.inl (hended i hend))
      · by_cases hvu : v = u
        · subst hvu
          cases hcreates.symm.trans hv
          exact .inl (.inr rfl)
        · exact .inr (.inr (hother hvu hv))
  | removed hcreates hold hlist hhired hhandles hplace =>
      refine ⟨fun i hi => ?_, hplaces hhandles hplace⟩
      obtain ⟨id, rest, hcons, hend⟩ := hold (hs.calls u)
      rw [hhired', hhired] at hi
      rw [hlist', hlist, hcons, List.tail_cons]
      rcases hs.listed i hi with hmem | hother'
      · rw [hcons] at hmem
        rcases List.mem_cons.mp hmem with rfl | hmem
        · exact .inr (.inl (hended i hend))
        · exact .inl hmem
      · exact .inr (hkept hcreates i hother')

theorem Action.entry_other {a : Action I F} {u : Thread} {pc : CallPc I F}
    (h : a.entry = some (u, pc)) (crew : Crew) :
    pc.creates crew = none ∧ ∀ l e, pc.InPlace crew l e := by
  cases a with
  | call c op | nest i op =>
      cases h
      cases op <;> exact ⟨rfl, fun _ _ => trivial⟩
  | destroy c =>
      cases h
      exact ⟨rfl, fun _ _ => trivial⟩
  | _ => cases h

theorem Enlisted.step {process : I → O} {s t : State I O F} {a : Action I F}
    (h : Step process s a t) (hborn : Unborn s)
    (halone : ∀ u v, (s.doing u).handles crew = true → (s.doing v).handles crew = true → v = u)
    (hs : Enlisted crew s) : Enlisted crew t := by
  have hended : ∀ i, s.ended crew i = true → t.ended crew i = true := fun i => h.ended hborn
  cases h.activity hborn with
  | process hi h ha hdoing => exact hs.of_same hdoing h.frame.workerList h.frame.hired hended
  | callback hi h ha hdoing hout hframe =>
      exact hs.of_same hdoing hframe.workerList hframe.hired hended
  | @call u s' pc ha h hdoing halike =>
      exact hs.of_call h hdoing halike hended fun hu v hv => halone u v hu hv
  | @entry u pc ha hout hdoing halike =>
      obtain ⟨hcreates, hplace⟩ := Action.entry_other ha crew
      refine ⟨fun i hi => ?_, fun v => ?_⟩
      · rw [halike.hired] at hi
        rw [halike.workerList]
        refine (hs.listed i hi).imp_right (Or.imp (hended i) ?_)
        rintro ⟨v, hv⟩
        refine ⟨v, ?_⟩
        rw [hdoing, Function.update_of_ne, hv]
        rintro rfl
        rw [hout] at hv
        cases hv
      · rw [halike.workerList]
        refine CallPc.InPlace.move ?_ hended
        exact forall_doing hdoing (P := fun _ (pc : CallPc I F) =>
          pc.InPlace crew (s.workerList crew) (s.ended crew)) hs.calls (hplace _ _) v
  | spurious ha hdoing ht =>
      subst ht
      exact hs.of_same hdoing rfl rfl fun _ h => h

/-- Runs before destruction in which nobody shares the list. -/
def Apart (s : State I O F) (a : Action I F) : Prop := BeforeDestruction s a ∧ ListApart s a

theorem starts_apart : Starts (· ≠ .destructor) (Apart (I := I) (O := O) (F := F)) :=
  ⟨by decide, by decide, fun _ _ h => h.1⟩

section

variable {process : I → O} {workerCnt : ℕ} {s : State I O F}

theorem doing_initial (hs : s = State.initial workerCnt) (u : Thread) :
    s.doing u = .out ∨ u = .client 0 ∧
      s.doing u = .hireFire .callback 1 .hire (.constructorProcess workerCnt) := by
  subst hs
  cases u with
  | worker crew i => cases crew <;> exact .inl rfl
  | client c =>
      by_cases hc : c = 0
      · subst hc
        exact .inr ⟨rfl, rfl⟩
      · exact .inl (by simp [State.doing, State.initial, hc])

theorem listUse (h : (machine process workerCnt).ReachBy Apart s) : ListUse s := by
  refine h.invariant (P := ListUse) ?_ ?_
  · intro s hinit
    have honly : ∀ u, (s.doing u).resizing = true → u = .client 0 := by
      intro u hu
      rcases doing_initial hinit u with hout | ⟨rfl, -⟩
      · rw [hout] at hu
        cases hu
      · rfl
    refine ⟨fun u v hu hv => (honly u hu).trans (honly v hv).symm, fun u v _ => ?_⟩
    rcases doing_initial hinit v with hout | ⟨-, hcall⟩
    · rw [hout]
      rfl
    · rw [hcall]
      rfl
  · intro s a t hreach hs hG hst
    have hcalls := CallsWithin.of_reach starts_apart hreach
    exact hs.step ((step_cases hst).activity (unborn hreach)) hG.2 (hcalls.doing (by decide))

theorem Enlisted.init (hs : s = State.initial workerCnt) (crew : Crew) : Enlisted crew s := by
  refine ⟨fun i hi => ?_, fun u => ?_⟩
  · subst hs
    cases hi
  · rcases doing_initial hs u with hout | ⟨-, hcall⟩
    · rw [hout]
      trivial
    · rw [hcall]
      trivial

theorem CallPc.handles_of_creates {pc : CallPc I F} {i : ℕ} (h : pc.creates crew = some i) :
    pc.handles crew = true := by
  by_contra hhandles
  cases (CallPc.creates_of_other (by simpa using hhandles)).symm.trans h

theorem CallPc.resizing_of_handles {pc : CallPc I F} (h : pc.handles .process = true) :
    pc.resizing = true := by
  cases pc with
  | hireFire crew =>
      cases crew with
      | process => rfl
      | callback => cases h
  | _ => cases h

theorem enlisted (h : (machine process workerCnt).ReachBy Apart s) : Enlisted .process s := by
  refine h.invariant (P := Enlisted .process) (fun s hinit => .init hinit .process) ?_
  intro s a t hreach hs _ hst
  refine hs.step (step_cases hst) (unborn hreach) fun u v hu hv => ?_
  exact (listUse hreach).alone v u (CallPc.resizing_of_handles hv) (CallPc.resizing_of_handles hu)

end

end Pipeline
