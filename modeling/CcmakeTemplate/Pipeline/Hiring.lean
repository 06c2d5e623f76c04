import CcmakeTemplate.Pipeline.Calls

/-!
# Hiring and firing

`hireFireWorker` as a function on the two worker lists. It serves both lists, but
its early exit tests the size of `callbackWorkerList` whichever list it was asked
to adjust. So it leaves `processWorkerList` too long when the requested count
happens to be the number of callback workers.

The statements of `hireStep` compute this function: while a single thread is
inside a hiring call, `CallPc.outcome` is what the lists will be when it returns,
and no step of any thread changes it.
-/

namespace Pipeline

open Concurrency

variable {I O F : Type}

/-- The worker lists, and how many workers have been created. -/
structure Roster where
  workerList : Crew → List ℕ
  hired : Crew → ℕ

namespace Roster

def empty : Roster := ⟨fun _ => [], fun _ => 0⟩

def create (r : Roster) (crew : Crew) : Roster :=
  { r with hired := Function.update r.hired crew (r.hired crew + 1) }

def pushBack (r : Roster) (crew : Crew) (id : ℕ) : Roster :=
  { r with workerList := Function.update r.workerList crew (r.workerList crew ++ [id]) }

def popFront (r : Roster) (crew : Crew) : Roster :=
  { r with workerList := Function.update r.workerList crew (r.workerList crew).tail }

end Roster

/-- `while (workerList.size() < count)`. -/
def hireLoop (crew : Crew) (count : ℕ) (r : Roster) : Roster :=
  if (r.workerList crew).length < count then
    hireLoop crew count ((r.create crew).pushBack crew (r.hired crew))
  else r
termination_by count - (r.workerList crew).length
decreasing_by
  simp only [Roster.create, Roster.pushBack, Function.update_self, List.length_append,
    List.length_singleton]
  omega

/-- `while (workerList.size() > count)`. -/
def fireLoop (crew : Crew) (count : ℕ) (r : Roster) : Roster :=
  if count < (r.workerList crew).length then fireLoop crew count (r.popFront crew) else r
termination_by (r.workerList crew).length
decreasing_by
  simp only [Roster.popFront, Function.update_self, List.length_tail]
  omega

/-- The part of `hireFireWorker` after the hire loop. -/
def earlyExit (crew : Crew) (count : ℕ) (r : Roster) : Roster :=
  if (r.workerList .callback).length = count then r else fireLoop crew count r

def hireFireWorker (crew : Crew) (count : ℕ) (r : Roster) : Roster :=
  earlyExit crew count (hireLoop crew count r)

def setProcessWorkerCount (count : ℕ) (r : Roster) : Roster := hireFireWorker .process count r

def setCallbackWorkerCount (count : ℕ) (r : Roster) : Roster := hireFireWorker .callback count r

def getWorkerCount (r : Roster) : ℕ := (r.workerList .process).length

/-- `pipeline(workerCnt)`. -/
def construct (workerCnt : ℕ) : Roster :=
  setProcessWorkerCount workerCnt (setCallbackWorkerCount 1 .empty)

/-- `~pipeline`. -/
def destroy (r : Roster) : Roster := setCallbackWorkerCount 0 (setProcessWorkerCount 0 r)

/-! ## What the loops do -/

theorem hireLoop_workerList (crew : Crew) (count : ℕ) (r : Roster) :
    (hireLoop crew count r).workerList = Function.update r.workerList crew
      (r.workerList crew ++ List.range' (r.hired crew) (count - (r.workerList crew).length)) := by
  fun_induction hireLoop crew count r with
  | case1 r hlt ih =>
      rw [ih]
      simp only [Roster.create, Roster.pushBack, Function.update_self, Function.update_idem,
        List.length_append, List.length_singleton, List.append_assoc, List.singleton_append]
      have hsub : count - (r.workerList crew).length =
          count - ((r.workerList crew).length + 1) + 1 := by omega
      rw [hsub, List.range'_succ]
  | case2 r hge =>
      have hsub : count - (r.workerList crew).length = 0 := by omega
      simp [hsub]

theorem fireLoop_workerList (crew : Crew) (count : ℕ) (r : Roster) :
    (fireLoop crew count r).workerList = Function.update r.workerList crew
      ((r.workerList crew).drop ((r.workerList crew).length - count)) := by
  fun_induction fireLoop crew count r with
  | case1 r hlt ih =>
      rw [ih]
      simp only [Roster.popFront, Function.update_self, Function.update_idem, List.length_tail,
        List.drop_tail]
      congr 2
      omega
  | case2 r hge =>
      have hsub : (r.workerList crew).length - count = 0 := by omega
      simp [hsub]

theorem fireLoop_of_le {crew : Crew} {count : ℕ} {r : Roster}
    (h : (r.workerList crew).length ≤ count) : fireLoop crew count r = r := by
  rw [fireLoop, if_neg (by omega)]

theorem hireLoop_of_le {crew : Crew} {count : ℕ} {r : Roster}
    (h : count ≤ (r.workerList crew).length) : hireLoop crew count r = r := by
  rw [hireLoop, if_neg (by omega)]

/-! ## What one call does -/

/-- Workers are numbered as they are created, so a list in the order of the
numbers has its oldest worker in front. -/
def ByAge (r : Roster) : Prop :=
  ∀ crew, (r.workerList crew).Pairwise (· < ·) ∧ ∀ id ∈ r.workerList crew, id < r.hired crew

theorem ByAge.hireLoop {r : Roster} (h : ByAge r) (crew : Crew) (count : ℕ) :
    ByAge (hireLoop crew count r) := by
  fun_induction Pipeline.hireLoop crew count r with
  | case1 r hlt ih =>
      refine ih ?_
      intro crew'
      by_cases hcrew : crew' = crew
      · subst hcrew
        obtain ⟨hsorted, hold⟩ := h crew'
        simp only [Roster.create, Roster.pushBack, Function.update_self]
        refine ⟨List.pairwise_append.mpr ⟨hsorted, List.pairwise_singleton _ _, ?_⟩, ?_⟩
        · intro a ha b hb
          rw [List.mem_singleton.mp hb]
          exact hold a ha
        · intro id hid
          rcases List.mem_append.mp hid with hid | hid
          · have hlt := hold id hid
            omega
          · rw [List.mem_singleton.mp hid]
            omega
      · simpa [Roster.create, Roster.pushBack, hcrew] using h crew'
  | case2 => exact h

theorem ByAge.fireLoop {r : Roster} (h : ByAge r) (crew : Crew) (count : ℕ) :
    ByAge (fireLoop crew count r) := by
  fun_induction Pipeline.fireLoop crew count r with
  | case1 r hlt ih =>
      refine ih ?_
      intro crew'
      by_cases hcrew : crew' = crew
      · subst hcrew
        obtain ⟨hsorted, hold⟩ := h crew'
        simp only [Roster.popFront, Function.update_self]
        exact ⟨hsorted.tail, fun id hid => hold id (List.mem_of_mem_tail hid)⟩
      · simpa [Roster.popFront, hcrew] using h crew'
  | case2 => exact h

theorem ByAge.hireFireWorker {r : Roster} (h : ByAge r) (crew : Crew) (count : ℕ) :
    ByAge (hireFireWorker crew count r) := by
  unfold Pipeline.hireFireWorker earlyExit
  split
  · exact h.hireLoop crew count
  · exact (h.hireLoop crew count).fireLoop crew count

/-- The effect that a call asking for `count` workers of a crew should have. -/
structure Adjusted (crew : Crew) (count : ℕ) (r r' : Roster) : Prop where
  length : (r'.workerList crew).length = count
  other : ∀ crew', crew' ≠ crew → r'.workerList crew' = r.workerList crew'
  grow : (r.workerList crew).length ≤ count →
    ∃ new, r'.workerList crew = r.workerList crew ++ new ∧ ∀ id ∈ new, r.hired crew ≤ id
  shrink : count ≤ (r.workerList crew).length →
    ∃ fired, r.workerList crew = fired ++ r'.workerList crew ∧
      ∀ id ∈ fired, ∀ kept ∈ r'.workerList crew, id < kept

/-- Too many workers, and no early exit. -/
theorem hireFireWorker_shrink {crew : Crew} {count : ℕ} {r : Roster}
    (hlt : count < (r.workerList crew).length)
    (hexit : (r.workerList .callback).length ≠ count) :
    (hireFireWorker crew count r).workerList = Function.update r.workerList crew
      ((r.workerList crew).drop ((r.workerList crew).length - count)) := by
  rw [hireFireWorker, hireLoop_of_le hlt.le, earlyExit, if_neg hexit, fireLoop_workerList]

/-- Not too many workers: the early exit does not matter. -/
theorem hireFireWorker_grow {crew : Crew} {count : ℕ} {r : Roster}
    (hle : (r.workerList crew).length ≤ count) :
    (hireFireWorker crew count r).workerList = Function.update r.workerList crew
      (r.workerList crew ++ List.range' (r.hired crew) (count - (r.workerList crew).length)) := by
  have hlist := hireLoop_workerList crew count r
  have hlen : ((hireLoop crew count r).workerList crew).length ≤ count := by
    rw [hlist, Function.update_self, List.length_append, List.length_range']
    omega
  rw [hireFireWorker, earlyExit, fireLoop_of_le hlen, ite_self, hlist]

/-- The early exit taken by mistake. -/
theorem hireFireWorker_early {count : ℕ} {r : Roster}
    (hlt : count < (r.workerList .process).length)
    (hexit : (r.workerList .callback).length = count) :
    hireFireWorker .process count r = r := by
  rw [hireFireWorker, hireLoop_of_le hlt.le, earlyExit, if_pos hexit]

theorem adjusted_shrink {crew : Crew} {count : ℕ} {r : Roster} (hage : ByAge r)
    (hlt : count < (r.workerList crew).length)
    (hexit : (r.workerList .callback).length ≠ count) :
    Adjusted crew count r (hireFireWorker crew count r) := by
  have hlist := hireFireWorker_shrink hlt hexit
  refine ⟨?_, ?_, ?_, ?_⟩
  · rw [hlist, Function.update_self, List.length_drop]
    omega
  · intro crew' hne
    rw [hlist, Function.update_of_ne hne]
  · intro hle
    omega
  · intro _
    rw [hlist, Function.update_self]
    refine ⟨_, (List.take_append_drop _ _).symm, ?_⟩
    have hsorted := (hage crew).1
    rw [← List.take_append_drop ((r.workerList crew).length - count) (r.workerList crew)] at hsorted
    exact (List.pairwise_append.mp hsorted).2.2

theorem adjusted_grow {crew : Crew} {count : ℕ} {r : Roster}
    (hle : (r.workerList crew).length ≤ count) :
    Adjusted crew count r (hireFireWorker crew count r) := by
  have hlist := hireFireWorker_grow hle
  refine ⟨?_, ?_, ?_, ?_⟩
  · rw [hlist, Function.update_self, List.length_append, List.length_range']
    omega
  · intro crew' hne
    rw [hlist, Function.update_of_ne hne]
  · intro _
    refine ⟨_, by rw [hlist, Function.update_self], ?_⟩
    intro id hid
    exact (List.mem_range'_1.mp hid).1
  · intro hge
    have hsub : count - (r.workerList crew).length = 0 := by omega
    refine ⟨[], ?_, by simp⟩
    rw [hlist, Function.update_self, hsub]
    simp

/-- The call does what it should unless it is about `processWorkerList`, should
fire, and asks for as many workers as there are callback workers. -/
theorem adjusted_iff {r : Roster} (hage : ByAge r) (crew : Crew) (count : ℕ) :
    Adjusted crew count r (hireFireWorker crew count r) ↔
      crew = .callback ∨ (r.workerList .callback).length ≠ count ∨
        (r.workerList .process).length ≤ count := by
  constructor
  · intro h
    by_contra hno
    simp only [not_or, not_le, not_not] at hno
    obtain ⟨hcrew, hexit, hlt⟩ := hno
    cases crew with
    | callback => exact hcrew rfl
    | process =>
        have hlen := h.length
        rw [hireFireWorker_early hlt hexit] at hlen
        omega
  · intro h
    by_cases hle : (r.workerList crew).length ≤ count
    · exact adjusted_grow hle
    · rw [not_le] at hle
      refine adjusted_shrink hage hle ?_
      rcases h with rfl | hexit | hle'
      · omega
      · exact hexit
      · cases crew <;> omega

/-! ## A history of calls -/

/-- What the head-count promises of a history of calls that starts with the lists
`r`, when `processCount` was the last count requested for the process workers:
`getWorkerCount` agrees, each call adjusts its list, and after the destructor no
worker is left. -/
def HeadCount (processCount : ℕ) (r : Roster) : List (Crew × ℕ) → Prop
  | [] => getWorkerCount r = processCount ∧ ∀ crew, (destroy r).workerList crew = []
  | (crew, count) :: calls =>
      getWorkerCount r = processCount ∧ Adjusted crew count r (hireFireWorker crew count r) ∧
        HeadCount (match crew with | .process => count | .callback => processCount)
          (hireFireWorker crew count r) calls

/-- No call, and not the destructor's, asks to shrink the process workers to the
current number of callback workers. -/
def NeverMistaken (processCount callbackCount : ℕ) : List (Crew × ℕ) → Prop
  | [] => callbackCount ≠ 0 ∨ processCount = 0
  | (.process, count) :: calls =>
      (callbackCount ≠ count ∨ processCount ≤ count) ∧ NeverMistaken count callbackCount calls
  | (.callback, count) :: calls => NeverMistaken processCount count calls

theorem byAge_empty : ByAge .empty := fun _ => ⟨List.Pairwise.nil, by simp [Roster.empty]⟩

theorem construct_adjusted (workerCnt : ℕ) :
    ByAge (construct workerCnt) ∧ ((construct workerCnt).workerList .process).length = workerCnt ∧
      ((construct workerCnt).workerList .callback).length = 1 := by
  have hage : ByAge (setCallbackWorkerCount 1 .empty) := byAge_empty.hireFireWorker _ _
  have hfirst : Adjusted .callback 1 .empty (setCallbackWorkerCount 1 .empty) :=
    (adjusted_iff byAge_empty _ _).mpr (.inl rfl)
  have hnone : (setCallbackWorkerCount 1 .empty).workerList .process = [] :=
    hfirst.other .process (by decide)
  have hsecond : Adjusted .process workerCnt (setCallbackWorkerCount 1 .empty)
      (construct workerCnt) := (adjusted_iff hage _ _).mpr (.inr (.inr (by simp [hnone])))
  refine ⟨hage.hireFireWorker _ _, hsecond.length, ?_⟩
  rw [hsecond.other .callback (by decide), hfirst.length]

theorem destroy_empties_iff {r : Roster} (hage : ByAge r) :
    (∀ crew, (destroy r).workerList crew = []) ↔
      (r.workerList .callback).length ≠ 0 ∨ (r.workerList .process).length = 0 := by
  have hsecond : Adjusted .callback 0 (setProcessWorkerCount 0 r) (destroy r) :=
    (adjusted_iff (hage.hireFireWorker _ _) _ _).mpr (.inl rfl)
  have hprocess : (destroy r).workerList .process =
      (setProcessWorkerCount 0 r).workerList .process :=
    hsecond.other .process (by decide)
  constructor
  · intro hempty
    by_contra hno
    simp only [not_or, not_not] at hno
    have hlt : 0 < (r.workerList .process).length := by omega
    have hkept := hempty .process
    rw [hprocess, setProcessWorkerCount, hireFireWorker_early hlt hno.1] at hkept
    simp [hkept] at hlt
  · intro h crew
    have hfirst : Adjusted .process 0 r (setProcessWorkerCount 0 r) := by
      refine (adjusted_iff hage _ _).mpr (.inr ?_)
      omega
    cases crew with
    | process => rw [hprocess, List.eq_nil_iff_length_eq_zero, hfirst.length]
    | callback => rw [List.eq_nil_iff_length_eq_zero, hsecond.length]

/-- The head-count from any lists on. -/
theorem headCount_from (calls : List (Crew × ℕ)) : ∀ {r : Roster}, ByAge r →
    (HeadCount (r.workerList .process).length r calls ↔
      NeverMistaken (r.workerList .process).length (r.workerList .callback).length calls) := by
  induction calls with
  | nil =>
      intro r hage
      simp only [HeadCount, NeverMistaken, getWorkerCount, true_and]
      exact destroy_empties_iff hage
  | cons call calls ih =>
      intro r hage
      obtain ⟨crew, count⟩ := call
      have hiff := adjusted_iff hage crew count
      have hrest := ih (hage.hireFireWorker crew count)
      cases crew with
      | process =>
          simp only [HeadCount, NeverMistaken, getWorkerCount, true_and]
          simp only [reduceCtorEq, false_or] at hiff
          rw [hiff]
          refine and_congr_right fun hok => ?_
          have hadj := hiff.mpr hok
          rwa [hadj.length, hadj.other .callback (by decide)] at hrest
      | callback =>
          have hadj := hiff.mpr (.inl rfl)
          simp only [HeadCount, NeverMistaken, getWorkerCount, true_and]
          rw [hadj.length, hadj.other .process (by decide)] at hrest
          exact ⟨fun h => hrest.mp h.2, fun h => ⟨hadj, hrest.mpr h⟩⟩

/-- The head-count is right for a history of calls exactly when no call in it is
mistaken for one about the callback workers. -/
theorem head_count_iff (workerCnt : ℕ) (calls : List (Crew × ℕ)) :
    HeadCount workerCnt (construct workerCnt) calls ↔ NeverMistaken workerCnt 1 calls := by
  obtain ⟨hage, hprocess, hcallback⟩ := construct_adjusted workerCnt
  have h := headCount_from calls hage
  rwa [hprocess, hcallback] at h

/-- Three process workers asked to become one: there is one callback worker, so
the call returns early and all three stay. -/
theorem shrink_to_one_ignored : ¬ HeadCount 3 (construct 3) [(.process, 1)] := by
  obtain ⟨-, hprocess, hcallback⟩ := construct_adjusted 3
  intro h
  have hlen := h.2.1.length
  rw [hireFireWorker_early (by omega) hcallback, hprocess] at hlen
  omega

/-! ## The statements of `hireStep` compute the function -/

def State.roster (s : State I O F) : Roster := ⟨s.workerList, s.hired⟩

/-- The lists at the end of `hireFireWorker`, from inside it. -/
def HirePc.outcome (crew : Crew) (count : ℕ) (r : Roster) : HirePc → Roster
  | .hire => hireFireWorker crew count r
  | .pushBack id => hireFireWorker crew count (r.pushBack crew id)
  | .early => earlyExit crew count r
  | .fire => fireLoop crew count r
  | .status _ | .setQuit _ | .notifyAll _ | .join _ | .popFront =>
      fireLoop crew count (r.popFront crew)

def Return.outcome (r : Roster) : Return → Roster
  | .constructorProcess workerCnt => setProcessWorkerCount workerCnt r
  | .destructorOutput => setCallbackWorkerCount 0 r
  | .caller | .constructorEnd | .destructorEnd => r

/-- The lists when the call returns, if no other thread is hiring. -/
def CallPc.outcome (r : Roster) : CallPc I F → Roster
  | .hireFire crew count pc ret => ret.outcome (pc.outcome crew count r)
  | .clearProcessLock | .clearProcessSwap | .clearProcessUnlock => destroy r
  | .clearOutputLock | .clearOutputSwap | .clearOutputUnlock => setCallbackWorkerCount 0 r
  | _ => r

theorem hireFireWorker_unfold {crew : Crew} {count : ℕ} {r : Roster}
    (h : (r.workerList crew).length < count) :
    hireFireWorker crew count r =
      hireFireWorker crew count ((r.create crew).pushBack crew (r.hired crew)) := by
  rw [hireFireWorker, hireLoop, if_pos h]
  rfl

theorem startWorker_roster (s : State I O F) (i : ℕ) (crew : Crew) :
    (startWorker s i crew).roster = s.roster := by
  cases crew <;> rfl

theorem notifyAll_roster (s : State I O F) (crew : Crew) :
    (notifyAll s crew).roster = s.roster := by
  cases crew <;> rfl

theorem resume_outcome (s : State I O F) (ret : Return) :
    (resume s ret).2.outcome (resume s ret).1.roster = ret.outcome s.roster := by
  cases ret <;> rfl

/-- A step of a call leaves the outcome of the call as it is. -/
theorem CallStep.outcome {u : Thread} {s t : State I O F} {pc pc' : CallPc I F}
    (h : CallStep u s pc t pc') : pc'.outcome t.roster = pc.outcome s.roster := by
  cases h with
  | @go _ _ h =>
      cases h with
      | hire h =>
          cases h with
          | enough hle =>
              simp only [CallPc.outcome, HirePc.outcome, hireFireWorker]
              rw [hireLoop_of_le (r := s.roster) hle]
          | notEarly hne =>
              simp only [CallPc.outcome, HirePc.outcome, earlyExit]
              rw [if_neg (show (s.roster.workerList .callback).length ≠ _ from hne)]
          | @tooMany _ _ hlist hlt =>
              simp only [CallPc.outcome, HirePc.outcome]
              rw [← hlist] at hlt
              rw [fireLoop.eq_1 _ _ s.roster,
                if_pos (show _ < (s.roster.workerList _).length from hlt)]
          | exited | notExited | joined => rfl
      | _ => rfl
  | lockProcess h | unlockProcess h | lockOutput h | unlockOutput h => cases h <;> rfl
  | @create crew count ret hlt =>
      rw [startWorker_roster]
      simp only [CallPc.outcome, HirePc.outcome]
      rw [hireFireWorker_unfold (r := s.roster) hlt]
      rfl
  | notifyAll => rw [notifyAll_roster]; rfl
  | @returns crew count ret pc h =>
      rw [resume_outcome]
      cases h with
      | early heq =>
          simp only [CallPc.outcome, HirePc.outcome, earlyExit]
          rw [if_pos (show (s.roster.workerList .callback).length = _ from heq)]
      | done hle =>
          simp only [CallPc.outcome, HirePc.outcome]
          rw [fireLoop_of_le (r := s.roster) hle]
  | _ => rfl

def CallKind.hires : CallKind → Bool
  | .workerCount | .constructor | .destructor => true
  | _ => false

theorem CallPc.outcome_eq {pc : CallPc I F} (h : pc.kind.hires = false) (r : Roster) :
    pc.outcome r = r := by
  cases pc with
  | hireFire crew count pc ret => cases ret <;> simp [CallPc.kind, Return.kind, CallKind.hires] at h
  | clearProcessLock | clearProcessSwap | clearProcessUnlock | clearOutputLock | clearOutputSwap
  | clearOutputUnlock => simp [CallPc.kind, CallKind.hires] at h
  | _ => rfl

/-- Other calls leave the lists alone. -/
theorem CallStep.roster_eq {u : Thread} {s t : State I O F} {pc pc' : CallPc I F}
    (h : CallStep u s pc t pc') (hkind : pc.kind.hires = false) : t.roster = s.roster := by
  have hkind' : pc'.kind.hires = false := by
    rcases h.kind with heq | heq
    · rw [heq, hkind]
    · rw [heq]
      rfl
  have heq := h.outcome
  rwa [CallPc.outcome_eq hkind', CallPc.outcome_eq hkind] at heq

/-- Client `c` runs on inside its call, and nobody else takes a step of a hiring
call. -/
structure Alone (c : ℕ) (s : State I O F) (a : Action I F) : Prop where
  call : ∀ op, a ≠ .call c op
  destroy : a ≠ .destroy c
  client : ∀ c' wake, a = .client c' wake → c' = c ∨ (s.clientPc c').kind.hires = false
  nested : ∀ i wake f product call, a = .callback i wake →
    s.callbackPc i = .inCallback f product call → call.kind.hires = false

theorem Step.outcome {process : I → O} {c : ℕ} {s t : State I O F} {a : Action I F}
    (h : Step process s a t) (hG : Alone c s a) :
    (t.clientPc c).outcome t.roster = (s.clientPc c).outcome s.roster := by
  cases h with
  | process hi h =>
      have hroster : t.roster = s.roster := by
        simp only [State.roster, h.frame.workerList, h.frame.hired]
      rw [hroster, h.frame.clientPc]
  | @callback i wake _ hi h =>
      cases h with
      | nested hpc h =>
          rw [← h.roster_eq (hG.nested i wake _ _ _ rfl hpc), ← h.frame.1]
          rfl
      | _ => rfl
  | @client c' wake u pc h =>
      by_cases hc : c' = c
      · subst hc
        rw [← h.outcome]
        simp only [Function.update_self]
        rfl
      · have hother : c ≠ c' := fun heq => hc heq.symm
        have hkind := (hG.client c' wake rfl).resolve_left hc
        rw [← h.roster_eq hkind]
        simp only [Function.update_of_ne hother, h.frame.1]
        rfl
  | @call c' op =>
      have hother : c ≠ c' := by
        rintro rfl
        exact hG.call op rfl
      simp only [Function.update_of_ne hother]
      rfl
  | @destroy c' =>
      have hother : c ≠ c' := by
        rintro rfl
        exact hG.destroy rfl
      simp only [Function.update_of_ne hother]
      rfl
  | nest | spurious => rfl

/-- Whatever the other threads do meanwhile, a hiring call that nobody else's
overlaps returns with the lists that the functions above compute. -/
theorem roster_at_return {process : I → O} {workerCnt c : ℕ} {s t : State I O F}
    (h : (machine process workerCnt).RunBy (Alone c) s t) (hret : t.clientPc c = .out) :
    t.roster = (s.clientPc c).outcome s.roster := by
  have hout := h.relation
    (R := fun s t => (t.clientPc c).outcome t.roster = (s.clientPc c).outcome s.roster)
    (fun _ => rfl) (fun _ _ _ _ hsofar hG hst => ((step_cases hst).outcome hG).trans hsofar)
  rwa [hret] at hout

/-- The entry of each hiring call: the functions are those of the source. -/
theorem outcome_entry (r : Roster) (workerCnt count : ℕ) :
    ((State.initial workerCnt : State I O F).clientPc 0).outcome
        (State.initial workerCnt : State I O F).roster = construct workerCnt ∧
      (Op.setProcessWorkerCount count : Op I F).entry.outcome r = setProcessWorkerCount count r ∧
      (Op.setCallbackWorkerCount count : Op I F).entry.outcome r =
        setCallbackWorkerCount count r ∧
      (CallPc.clearProcessLock : CallPc I F).outcome r = destroy r :=
  ⟨rfl, rfl, rfl, rfl⟩

end Pipeline
