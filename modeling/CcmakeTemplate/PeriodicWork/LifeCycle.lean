import CcmakeTemplate.PeriodicWork.Steps

/-!
# The life cycle under one control thread

When one thread makes all the calls of `start` and `stop`, its program point alone
determines which threads and which semaphore the object has. `Shape` is that
picture for the current epoch, the number `E` of the `start` that is being prepared
or is in force: epoch `E` has timer `E`, worker `E` and semaphore `E`, and
everything of an earlier epoch is joined and deleted.
-/

namespace PeriodicWork

open Concurrency Semaphore

variable {F : Type}

/-! ## What `start` and `stop` manage -/

structure Owned where
  threadQuit : Bool
  thread_ : Job → Option ℕ
  sem_ : Option ℕ
  semCnt : ℕ
  created : Job → ℕ
  object : Job → ℕ → ThreadObject

def State.owned (s : State F) : Owned where
  threadQuit := s.threadQuit
  thread_ := s.thread_
  sem_ := s.sem_
  semCnt := s.semCnt
  created := s.created
  object := s.object

theorem TimerStep.owned {i : ℕ} {s t : State F} (h : TimerStep i s t) :
    t.owned = s.owned ∧ t.clientPc = s.clientPc := by
  cases h <;> exact ⟨rfl, rfl⟩

theorem SetStep.owned {u : Thread} {s t : State F} {pc : SetPc F} {call : Option (SetPc F)}
    (h : SetStep u s pc t call) : t.owned = s.owned ∧ t.clientPc = s.clientPc := by
  cases h <;> exact ⟨rfl, rfl⟩

theorem WorkerStep.owned {i : ℕ} {s t : State F} (h : WorkerStep i s t) :
    t.owned = s.owned ∧ t.clientPc = s.clientPc := by
  cases h with
  | nested hpc h => exact h.owned
  | _ => exact ⟨rfl, rfl⟩

theorem StopStep.clientPc {u : Thread} {s t : State F} {again : Bool} {pc : StopPc}
    {pc' : CallPc F} (h : StopStep u s again pc t pc') : t.clientPc = s.clientPc := by
  cases h <;> rfl

theorem StartStep.clientPc {maxLag : ℕ} {s t : State F} {pc : StartPc} {pc' : CallPc F}
    (h : StartStep maxLag s pc t pc') : t.clientPc = s.clientPc := by
  cases h with
  | create j => cases j <;> rfl
  | _ => rfl

theorem CallStep.clientPc {maxLag : ℕ} {u : Thread} {s t : State F} {pc pc' : CallPc F}
    (h : CallStep maxLag u s pc t pc') : t.clientPc = s.clientPc := by
  cases h with
  | set h | setReturns h => exact h.owned.2
  | stop h => exact h.clientPc
  | start h => exact h.clientPc

/-! ## Slots and shapes -/

/-- How far one of the two threads of the epoch is. -/
inductive Slot where
  | vacant | fresh | live | joined | deleted | gone

def Slot.Holds (E : ℕ) (thread : Option ℕ) (created : ℕ) (object : ℕ → ThreadObject) :
    Slot → Prop
  | .vacant => thread = none ∧ created = E
  | .fresh => thread = none ∧ created = E + 1 ∧ object E = {}
  | .live => thread = some E ∧ created = E + 1 ∧ object E = {}
  | .joined => thread = some E ∧ created = E + 1 ∧ object E = { joined := true }
  | .deleted => thread = some E ∧ created = E + 1 ∧ object E = { joined := true, deleted := true }
  | .gone => thread = none ∧ created = E + 1 ∧ object E = { joined := true, deleted := true }

structure Shape where
  timer : Slot
  worker : Slot
  sem : Bool

def Shape.slot (shape : Shape) : Job → Slot
  | .timer => shape.timer
  | .worker => shape.worker

def Shape.set (shape : Shape) (slot : Slot) : Job → Shape
  | .timer => { shape with timer := slot }
  | .worker => { shape with worker := slot }

def Shape.idle : Shape := ⟨.vacant, .vacant, false⟩

def Shape.running : Shape := ⟨.live, .live, true⟩

/-- What `stop` has left when there was something to stop. -/
def StopPc.shape : StopPc → Shape
  | .lock | .setQuit | .unlock | .notify | .semTest | .semDeref | .sem _ _ => .running
  | .joinTest .timer | .joinable .timer | .join .timer => .running
  | .joinTest .worker | .joinable .worker | .join .worker => ⟨.joined, .live, true⟩
  | .delete .timer => ⟨.joined, .joined, true⟩
  | .delete .worker => ⟨.deleted, .joined, true⟩
  | .null .timer => ⟨.deleted, .deleted, true⟩
  | .null .worker => ⟨.gone, .deleted, true⟩
  | .resetSem => ⟨.gone, .gone, true⟩
  | .deleteSem _ => .idle

/-- The points that a `stop` of a stopped object passes too. -/
def StopPc.skips : StopPc → Bool
  | .semDeref | .sem _ _ | .joinable _ | .join _ | .deleteSem _ => false
  | _ => true

/-- What `start` has built so far. -/
def StartPc.shape : StartPc → Shape
  | .quit | .changed | .sem => .idle
  | .deleteSem _ | .create .timer => ⟨.vacant, .vacant, true⟩
  | .assign .timer _ => ⟨.fresh, .vacant, true⟩
  | .create .worker => ⟨.live, .vacant, true⟩
  | .assign .worker _ => ⟨.live, .fresh, true⟩

def CallPc.Stage (shape : Shape) : CallPc F → Prop
  | .out | .set _ => shape = .idle ∨ shape = .running
  | .stop _ pc => shape = pc.shape ∨ pc.skips = true ∧ shape = .idle
  | .start pc => shape = pc.shape
  | .fault => False

/-- `threadQuit`, where the program point of the control thread determines it. -/
def CallPc.quit (shape : Shape) : CallPc F → Option Bool
  | .out | .set _ | .stop _ .lock | .stop _ .setQuit => if shape.sem then some false else none
  | .stop _ _ => some true
  | .start .quit => none
  | .start _ => some false
  | .fault => none

/-- The objects that a program point carries are those of the epoch. -/
def CallPc.Names (E : ℕ) : CallPc F → Prop
  | .stop _ (.sem k _) => k = E
  | .stop _ (.deleteSem k) => k + 1 = E
  | .start (.assign _ i) => i = E
  | .start (.deleteSem _) => False
  | _ => True

structure Staged (o : Owned) (pc : CallPc F) (E : ℕ) (shape : Shape) : Prop where
  stage : pc.Stage shape
  names : pc.Names E
  quit : ∀ b, pc.quit shape = some b → o.threadQuit = b
  slot : ∀ j, (shape.slot j).Holds E (o.thread_ j) (o.created j) (o.object j)
  old : ∀ j, ∀ i < E, o.object j i = { joined := true, deleted := true }
  sem : o.sem_ = if shape.sem then some E else none
  semCnt : o.semCnt = E + shape.sem.toNat

/-- Steps that leave the objects alone. -/
theorem Staged.go {o : Owned} {pc pc' : CallPc F} {E : ℕ} {shape : Shape}
    (hs : Staged o pc E shape) (hstage : pc'.Stage shape) (hnames : pc'.Names E)
    (hquit : pc'.quit shape = pc.quit shape) : Staged o pc' E shape :=
  { hs with stage := hstage, names := hnames, quit := hquit ▸ hs.quit }

/-- Steps that move the thread of one job to its next slot. -/
theorem Staged.move {o o' : Owned} {pc pc' : CallPc F} {E : ℕ} {shape : Shape}
    (hs : Staged o pc E shape) (j : Job) (slot : Slot)
    (hslot : slot.Holds E (o'.thread_ j) (o'.created j) (o'.object j))
    (hold : ∀ i < E, o'.object j i = o.object j i)
    (hother : ∀ j', j' ≠ j → o'.thread_ j' = o.thread_ j' ∧ o'.created j' = o.created j' ∧
      o'.object j' = o.object j')
    (hrest : o'.threadQuit = o.threadQuit ∧ o'.sem_ = o.sem_ ∧ o'.semCnt = o.semCnt)
    (hstage : pc'.Stage (shape.set slot j)) (hnames : pc'.Names E)
    (hquit : pc'.quit (shape.set slot j) = pc.quit shape) :
    Staged o' pc' E (shape.set slot j) where
  stage := hstage
  names := hnames
  quit := by
    rw [hquit, hrest.1]
    exact hs.quit
  slot := by
    intro j'
    by_cases hj : j' = j
    · subst hj
      cases j' <;> exact hslot
    · obtain ⟨hthread, hcreated, hobject⟩ := hother j' hj
      rw [hthread, hcreated, hobject]
      have hkeep := hs.slot j'
      cases j <;> cases j' <;> first | exact hkeep | exact absurd rfl hj
  old := by
    intro j' i hi
    by_cases hj : j' = j
    · subst hj
      rw [hold i hi]
      exact hs.old j' i hi
    · rw [(hother j' hj).2.2]
      exact hs.old j' i hi
  sem := by
    rw [hrest.2.1, hs.sem]
    cases j <;> rfl
  semCnt := by
    rw [hrest.2.2, hs.semCnt]
    cases j <;> rfl

theorem Staged.sem_none {o : Owned} {pc : CallPc F} {E : ℕ} {shape : Shape}
    (hs : Staged o pc E shape) (h : o.sem_ = none) : shape.sem = false := by
  have hsem := hs.sem
  rw [h] at hsem
  cases hshape : shape.sem with
  | false => rfl
  | true => simp [hshape] at hsem

theorem Staged.sem_some {o : Owned} {pc : CallPc F} {E k : ℕ} {shape : Shape}
    (hs : Staged o pc E shape) (h : o.sem_ = some k) : shape.sem = true ∧ k = E := by
  have hsem := hs.sem
  rw [h] at hsem
  cases hshape : shape.sem with
  | false => simp [hshape] at hsem
  | true => exact ⟨rfl, by simpa [hshape] using hsem⟩

/-! ## `stop` -/

theorem Staged.idle {o : Owned} {pc : CallPc F} {E : ℕ} (hs : Staged o pc E .idle) (j : Job) :
    o.thread_ j = none ∧ o.created j = E := by
  cases j with
  | timer => exact hs.slot .timer
  | worker => exact hs.slot .worker

theorem Staged.stopGo {s : State F} {again : Bool} {pc pc' : StopPc} {E : ℕ} {shape : Shape}
    (h : StopGo s pc pc') (hs : Staged s.owned (.stop again pc : CallPc F) E shape) :
    Staged s.owned (.stop again pc' : CallPc F) E shape := by
  have hstage := hs.stage
  cases h with
  | present h =>
      refine hs.go ?_ trivial rfl
      rcases hstage with hshape | ⟨-, rfl⟩
      · exact .inl hshape
      · exact absurd hs.sem h
  | absent h =>
      refine hs.go ?_ trivial rfl
      rcases hstage with rfl | ⟨-, rfl⟩
      · cases hs.sem_none h
      · exact .inr ⟨rfl, rfl⟩
  | deref h =>
      refine hs.go ?_ (hs.sem_some h).2 rfl
      rcases hstage with hshape | ⟨hno, -⟩
      · exact .inl hshape
      · cases hno
  | stopped k =>
      refine hs.go ?_ trivial rfl
      rcases hstage with hshape | ⟨hno, -⟩
      · exact .inl hshape
      · cases hno
  | joinPresent j h =>
      refine hs.go ?_ trivial rfl
      rcases hstage with hshape | ⟨-, rfl⟩
      · exact .inl (by cases j <;> exact hshape)
      · exact absurd (hs.idle j).1 h
  | joinAbsent j h =>
      refine hs.go ?_ (by cases j <;> trivial) (by cases j <;> rfl)
      rcases hstage with rfl | ⟨-, rfl⟩
      · have hslot := hs.slot j
        cases j <;> cases h.symm.trans hslot.1
      · cases j <;> exact .inr ⟨rfl, rfl⟩
  | @joinable j i h hobj =>
      refine hs.go ?_ trivial rfl
      rcases hstage with hshape | ⟨hno, -⟩
      · exact .inl (by cases j <;> exact hshape)
      · cases hno
  | @unjoinable j i h hobj =>
      rcases hstage with rfl | ⟨hno, -⟩
      · have hslot := hs.slot j
        cases j with
        | timer | worker =>
            obtain ⟨hthread, -, hfresh⟩ := hslot
            cases h.symm.trans hthread
            cases hobj.symm.trans hfresh
      · cases hno
  | deleteAbsent j h =>
      refine hs.go ?_ (by cases j <;> trivial) (by cases j <;> rfl)
      rcases hstage with rfl | ⟨-, rfl⟩
      · have hslot := hs.slot j
        cases j <;> cases h.symm.trans hslot.1
      · cases j <;> exact .inr ⟨rfl, rfl⟩

theorem Staged.no_fault {s : State F} {again : Bool} {pc : StopPc} {E : ℕ} {shape : Shape}
    (hs : Staged s.owned (.stop again pc : CallPc F) E shape) : ¬ StopFaults s pc := by
  intro h
  have hstage := hs.stage
  cases h with
  | semDeref h =>
      rcases hstage with rfl | ⟨hno, -⟩
      · cases hs.sem_none h
      · cases hno
  | @joinableNull j h | @joinNull j h =>
      rcases hstage with rfl | ⟨hno, -⟩
      · have hslot := hs.slot j
        cases j <;> cases h.symm.trans hslot.1
      · cases hno
  | @joinableDeleted j i h hobj | @joinSpent j i h hobj =>
      rcases hstage with rfl | ⟨hno, -⟩
      · have hslot := hs.slot j
        cases j with
        | timer | worker =>
            obtain ⟨hthread, -, hfresh⟩ := hslot
            cases h.symm.trans hthread
            simp [show s.object _ E = {} from hfresh] at hobj
      · cases hno
  | @deleteSpent j i h hobj =>
      rcases hstage with rfl | ⟨-, rfl⟩
      · have hslot := hs.slot j
        cases j with
        | timer | worker =>
            obtain ⟨hthread, -, hjoined⟩ := hslot
            cases h.symm.trans hthread
            exact hobj hjoined
      · cases h.symm.trans (hs.idle j).1

theorem Staged.join {s : State F} {again : Bool} {j : Job} {i E : ℕ} {shape : Shape}
    (hs : Staged s.owned (.stop again (.join j) : CallPc F) E shape) (h : s.thread_ j = some i) :
    i = E ∧ Staged (s.setObject j i { joined := true }).owned
      (.stop again (afterJoin j) : CallPc F) E (shape.set .joined j) := by
  rcases hs.stage with rfl | ⟨hno, -⟩
  · have hslot := hs.slot j
    have hlive : Slot.live.Holds E (s.thread_ j) (s.created j) (s.object j) := by
      cases j <;> exact hslot
    obtain ⟨hthread, hcreated, -⟩ := hlive
    obtain rfl : i = E := by
      cases h.symm.trans hthread
      rfl
    refine ⟨rfl, hs.move j .joined ⟨hthread, hcreated, ?_⟩ ?_ ?_ ⟨rfl, rfl, rfl⟩ ?_ ?_ ?_⟩
    · simp [State.owned]
    · intro i' hi'
      simp [State.owned, Nat.ne_of_lt hi']
    · intro j' hj'
      simp [State.owned, hj']
    · cases j <;> exact .inl rfl
    · cases j <;> trivial
    · cases j <;> rfl
  · cases hno

theorem Staged.delete {s : State F} {again : Bool} {j : Job} {i E : ℕ} {shape : Shape}
    (hs : Staged s.owned (.stop again (.delete j) : CallPc F) E shape) (h : s.thread_ j = some i) :
    Staged (s.setObject j i { joined := true, deleted := true }).owned
      (.stop again (afterDelete j) : CallPc F) E (shape.set .deleted j) := by
  rcases hs.stage with rfl | ⟨-, rfl⟩
  · have hslot := hs.slot j
    have hjoined : Slot.joined.Holds E (s.thread_ j) (s.created j) (s.object j) := by
      cases j <;> exact hslot
    obtain ⟨hthread, hcreated, -⟩ := hjoined
    obtain rfl : i = E := by
      cases h.symm.trans hthread
      rfl
    refine hs.move j .deleted ⟨hthread, hcreated, ?_⟩ ?_ ?_ ⟨rfl, rfl, rfl⟩ ?_ ?_ ?_
    · simp [State.owned]
    · intro i' hi'
      simp [State.owned, Nat.ne_of_lt hi']
    · intro j' hj'
      simp [State.owned, hj']
    · cases j <;> exact .inl rfl
    · cases j <;> trivial
    · cases j <;> rfl
  · cases h.symm.trans (hs.idle j).1

theorem Staged.null {s : State F} {again : Bool} {j : Job} {E : ℕ} {shape : Shape}
    (hs : Staged s.owned (.stop again (.null j) : CallPc F) E shape) :
    ∃ shape', Staged (s.setThread j none).owned
      (.stop again (afterNull j) : CallPc F) E shape' := by
  rcases hs.stage with rfl | ⟨-, rfl⟩
  · have hslot := hs.slot j
    have hdeleted : Slot.deleted.Holds E (s.thread_ j) (s.created j) (s.object j) := by
      cases j <;> exact hslot
    obtain ⟨-, hcreated, hobj⟩ := hdeleted
    refine ⟨_, hs.move j .gone ⟨?_, hcreated, hobj⟩ (fun _ _ => rfl) ?_ ⟨rfl, rfl, rfl⟩ ?_ ?_ ?_⟩
    · simp [State.owned]
    · intro j' hj'
      simp [State.owned, hj']
    · cases j <;> exact .inl rfl
    · cases j <;> trivial
    · cases j <;> rfl
  · have hkeep : (s.setThread j none).owned = s.owned := by
      have hnone := (hs.idle j).1
      show ({ s.owned with thread_ := Function.update s.thread_ j none } : Owned) = s.owned
      rw [show (none : Option ℕ) = s.thread_ j from hnone.symm, Function.update_eq_self]
      rfl
    refine ⟨.idle, ?_⟩
    rw [hkeep]
    exact hs.go (by cases j <;> exact .inr ⟨rfl, rfl⟩) (by cases j <;> trivial)
      (by cases j <;> rfl)

/-- Everything of the epoch is gone, so the next one can begin. -/
theorem Staged.reset {s : State F} {again : Bool} {k E : ℕ} {shape : Shape}
    (hs : Staged s.owned (.stop again .resetSem : CallPc F) E shape) (h : s.sem_ = some k) :
    Staged ({ s with sem_ := none } : State F).owned
      (.stop again (.deleteSem k) : CallPc F) (E + 1) .idle := by
  rcases hs.stage with rfl | ⟨-, rfl⟩
  · have hgone : ∀ j, Slot.gone.Holds E (s.thread_ j) (s.created j) (s.object j) := by
      intro j
      have hslot := hs.slot j
      cases j <;> exact hslot
    refine ⟨.inl rfl, ?_, hs.quit, ?_, ?_, rfl, hs.semCnt⟩
    · show k + 1 = E + 1
      rw [(hs.sem_some h).2]
    · intro j
      obtain ⟨hthread, hcreated, -⟩ := hgone j
      cases j <;> exact ⟨hthread, hcreated⟩
    · intro j i hi
      rcases Nat.lt_succ_iff_lt_or_eq.mp hi with hlt | rfl
      · exact hs.old j i hlt
      · exact (hgone j).2.2
  · cases hs.sem.symm.trans h

theorem Staged.afterStop {o : Owned} {again : Bool} {pc : StopPc} {E : ℕ}
    (hs : Staged o (.stop again pc : CallPc F) E .idle) :
    Staged o (afterStop again : CallPc F) E .idle := by
  cases again with
  | false => exact { hs with stage := .inl rfl, names := trivial, quit := by rintro b ⟨⟩ }
  | true => exact { hs with stage := rfl, names := trivial, quit := by rintro b ⟨⟩ }

theorem Staged.stop {u : Thread} {s t : State F} {again : Bool} {pc : StopPc} {pc' : CallPc F}
    {E : ℕ} {shape : Shape} (h : StopStep u s again pc t pc')
    (hs : Staged s.owned (.stop again pc : CallPc F) E shape) :
    ∃ E' shape', Staged t.owned pc' E' shape' := by
  cases h with
  | go h => exact ⟨E, shape, hs.stopGo h⟩
  | fault h => exact absurd h hs.no_fault
  | lock | unlock | notify =>
      refine ⟨E, shape, hs.go ?_ trivial rfl⟩
      rcases hs.stage with hshape | ⟨-, hidle⟩
      · exact .inl hshape
      · exact .inr ⟨rfl, hidle⟩
  | setQuit =>
      refine ⟨E, shape, { hs with stage := ?_, names := trivial, quit := ?_ }⟩
      · rcases hs.stage with hshape | ⟨-, hidle⟩
        · exact .inl hshape
        · exact .inr ⟨rfl, hidle⟩
      · rintro b ⟨⟩
        rfl
  | sem h =>
      refine ⟨E, shape, hs.go ?_ hs.names rfl⟩
      rcases hs.stage with hshape | ⟨hno, -⟩
      · exact .inl hshape
      · cases hno
  | join h hobj hended => exact ⟨E, _, (hs.join h).2⟩
  | delete h hobj => exact ⟨E, _, hs.delete h⟩
  | null j =>
      obtain ⟨shape', hs'⟩ := hs.null
      exact ⟨E, shape', hs'⟩
  | resetNull h =>
      rcases hs.stage with rfl | ⟨-, rfl⟩
      · cases hs.sem_none h
      · exact ⟨E, .idle, hs.afterStop⟩
  | reset h => exact ⟨E + 1, .idle, hs.reset h⟩
  | deleteSem k =>
      rcases hs.stage with rfl | ⟨hno, -⟩
      · exact ⟨E, .idle, hs.afterStop⟩
      · cases hno

/-! ## `start` -/

theorem Staged.create {s : State F} {j : Job} {E : ℕ} {shape : Shape}
    (hs : Staged s.owned (.start (.create j) : CallPc F) E shape) :
    s.created j = E ∧
      Staged (startThread ({ s with
        created := Function.update s.created j (s.created j + 1) }.setObject j (s.created j) {})
          (s.created j) j).owned
        (.start (.assign j (s.created j)) : CallPc F) E (shape.set .fresh j) := by
  obtain rfl : shape = (StartPc.create j).shape := hs.stage
  have hslot := hs.slot j
  have hvacant : Slot.vacant.Holds E (s.thread_ j) (s.created j) (s.object j) := by
    cases j <;> exact hslot
  obtain ⟨hthread, hcreated⟩ := hvacant
  refine ⟨hcreated, ?_⟩
  have howned : (startThread ({ s with
      created := Function.update s.created j (s.created j + 1) }.setObject j (s.created j) {})
        (s.created j) j).owned =
      { s.owned with
        created := Function.update s.created j (E + 1)
        object := Function.update s.object j (Function.update (s.object j) E {}) } := by
    rw [hcreated]
    cases j <;> rfl
  rw [howned]
  refine hs.move j .fresh ⟨hthread, ?_, ?_⟩ ?_ ?_ ⟨rfl, rfl, rfl⟩ ?_ hcreated ?_
  · simp
  · simp
  · intro i hi
    simp [Nat.ne_of_lt hi, State.owned]
  · intro j' hj'
    simp [State.owned, hj']
  · cases j <;> rfl
  · cases j <;> rfl

theorem Staged.assign {s : State F} {j : Job} {i E : ℕ} {shape : Shape}
    (hs : Staged s.owned (.start (.assign j i) : CallPc F) E shape) :
    i = E ∧ Staged (s.setThread j (some i)).owned (afterAssign j : CallPc F) E
      (shape.set .live j) := by
  obtain rfl : shape = (StartPc.assign j i).shape := hs.stage
  obtain rfl : i = E := hs.names
  have hslot := hs.slot j
  have hfresh : Slot.fresh.Holds i (s.thread_ j) (s.created j) (s.object j) := by
    cases j <;> exact hslot
  obtain ⟨-, hcreated, hobj⟩ := hfresh
  refine ⟨rfl, hs.move j .live ⟨?_, hcreated, hobj⟩ (fun _ _ => rfl) ?_ ⟨rfl, rfl, rfl⟩ ?_ ?_ ?_⟩
  · simp [State.owned]
  · intro j' hj'
    simp [State.owned, hj']
  · cases j with
    | timer => rfl
    | worker => exact .inr rfl
  · cases j <;> trivial
  · cases j <;> rfl

theorem Staged.start {maxLag : ℕ} {s t : State F} {pc : StartPc} {pc' : CallPc F} {E : ℕ}
    {shape : Shape} (h : StartStep maxLag s pc t pc')
    (hs : Staged s.owned (.start pc : CallPc F) E shape) :
    ∃ shape', Staged t.owned pc' E shape' := by
  cases h with
  | quit =>
      refine ⟨shape, { hs with stage := hs.stage, names := trivial, quit := ?_ }⟩
      rintro b ⟨⟩
      rfl
  | changed => exact ⟨shape, hs.go hs.stage trivial rfl⟩
  | sem h =>
      obtain rfl : shape = .idle := hs.stage
      obtain ⟨-, rfl⟩ : s.sem_ = none ∧ _ := by
        rcases h with h | ⟨k, hk, -⟩
        · exact h
        · cases hs.sem.symm.trans hk
      have hcnt : s.semCnt = E := hs.semCnt
      refine ⟨⟨.vacant, .vacant, true⟩, rfl, trivial, hs.quit, ?_, hs.old, ?_, ?_⟩
      · intro j
        have hslot := hs.slot j
        cases j <;> exact hslot
      · exact congrArg some hcnt
      · exact congrArg (· + 1) hcnt
  | deleteSem k => exact absurd hs.names id
  | create j => exact ⟨_, hs.create.2⟩
  | assign j i => exact ⟨_, hs.assign.2⟩

/-! ## Every reachable state -/

/-- The program points of a thread that calls neither `start` nor `stop`. -/
def CallPc.settles : CallPc F → Bool
  | .out | .set _ => true
  | _ => false

structure Controlled (s : State F) (E : ℕ) (shape : Shape) : Prop where
  others : ∀ c, c ≠ 0 → (s.clientPc c).settles = true
  staged : Staged s.owned (s.clientPc 0) E shape

theorem CallStep.settles {maxLag : ℕ} {u : Thread} {s t : State F} {pc pc' : CallPc F}
    (h : CallStep maxLag u s pc t pc') (hpc : pc.settles = true) :
    pc'.settles = true ∧ t.owned = s.owned := by
  cases h with
  | set h | setReturns h => exact ⟨rfl, h.owned.1⟩
  | stop | start => cases hpc

theorem Staged.call {maxLag : ℕ} {u : Thread} {s t : State F} {pc pc' : CallPc F} {E : ℕ}
    {shape : Shape} (h : CallStep maxLag u s pc t pc') (hs : Staged s.owned pc E shape) :
    ∃ E' shape', Staged t.owned pc' E' shape' := by
  cases h with
  | set h =>
      rw [h.owned.1]
      exact ⟨E, shape, hs.go hs.stage trivial rfl⟩
  | setReturns h =>
      rw [h.owned.1]
      exact ⟨E, shape, hs.go hs.stage trivial rfl⟩
  | stop h => exact hs.stop h
  | start h => exact ⟨E, hs.start h⟩

/-- Steps of the object's own threads. -/
theorem Controlled.keep {s t : State F} {E : ℕ} {shape : Shape} (hs : Controlled s E shape)
    (h : t.owned = s.owned ∧ t.clientPc = s.clientPc) : Controlled t E shape := by
  refine ⟨?_, ?_⟩
  · rw [h.2]
    exact hs.others
  · rw [h.1, h.2]
    exact hs.staged

theorem others_update {table : ℕ → CallPc F} {c : ℕ} {pc : CallPc F}
    (hs : ∀ c, c ≠ 0 → (table c).settles = true) (hpc : c ≠ 0 → pc.settles = true) :
    ∀ c', c' ≠ 0 → (Function.update table c pc c').settles = true := by
  intro c' hc'
  by_cases heq : c' = c
  · subst heq
    rw [Function.update_self]
    exact hpc hc'
  · rw [Function.update_of_ne heq]
    exact hs c' hc'

theorem Controlled.step {maxLag : ℕ} {s t : State F} {a : Action F} {E : ℕ} {shape : Shape}
    (hs : Controlled s E shape) (hG : OneControl s a) (h : Step maxLag s a t) :
    ∃ E' shape', Controlled t E' shape' := by
  cases h with
  | timer hi h => exact ⟨E, shape, hs.keep h.owned⟩
  | worker hi h => exact ⟨E, shape, hs.keep h.owned⟩
  | @client c _ _ u pc h =>
      by_cases hc : c = 0
      · subst hc
        obtain ⟨E', shape', hs'⟩ := hs.staged.call h
        refine ⟨E', shape', ?_, ?_⟩
        · refine others_update ?_ (fun hno => absurd rfl hno)
          rw [h.clientPc]
          exact hs.others
        · show Staged u.owned (Function.update u.clientPc 0 pc 0) E' shape'
          rw [Function.update_self]
          exact hs'
      · obtain ⟨hsettles, howned⟩ := h.settles (hs.others c hc)
        refine ⟨E, shape, others_update ?_ (fun _ => hsettles), ?_⟩
        · rw [h.clientPc]
          exact hs.others
        · have hzero : (u.goClient c pc).clientPc 0 = s.clientPc 0 := by
            show Function.update u.clientPc c pc 0 = s.clientPc 0
            rw [Function.update_of_ne (Ne.symm hc), h.clientPc]
          rw [hzero, show (u.goClient c pc).owned = s.owned from howned]
          exact hs.staged
  | @set c op hpc =>
      refine ⟨E, shape, others_update hs.others (fun _ => rfl), ?_⟩
      have hstaged := hs.staged
      by_cases hc : c = 0
      · subst hc
        rw [hpc] at hstaged
        simp only [State.goClient, Function.update_self]
        exact hstaged.go hstaged.stage trivial rfl
      · simp only [State.goClient, Function.update_of_ne (Ne.symm hc)]
        exact hstaged
  | nest hpc hi => exact ⟨E, shape, hs.keep ⟨rfl, rfl⟩⟩
  | @starts c hpc | @stops c hpc =>
      obtain rfl : c = 0 := hG
      refine ⟨E, shape, others_update hs.others (fun hno => absurd rfl hno), ?_⟩
      have hstaged := hs.staged
      rw [hpc] at hstaged
      simp only [State.goClient, Function.update_self]
      refine hstaged.go ?_ trivial rfl
      rcases hstaged.stage with hidle | hrunning
      · exact .inr ⟨rfl, hidle⟩
      · exact .inl hrunning
  | tick time => exact ⟨E, shape, hs.keep ⟨rfl, rfl⟩⟩
  | spurious t => exact ⟨E, shape, hs.keep ⟨rfl, rfl⟩⟩

theorem Controlled.of_reach {callback : Option F} {period maxLag : ℕ} {s : State F}
    (h : (machine callback period maxLag).ReachBy OneControl s) :
    ∃ E shape, Controlled s E shape := by
  refine h.invariant (P := fun s => ∃ E shape, Controlled s E shape) ?_ ?_
  · rintro s rfl
    refine ⟨0, .idle, fun _ _ => rfl, .inl rfl, trivial, ?_, ?_, ?_, rfl, rfl⟩
    · rintro b ⟨⟩
    · intro j
      cases j <;> exact ⟨rfl, rfl⟩
    · intro j i hi
      cases hi
  · rintro s a t _ ⟨E, shape, hs⟩ hG hst
    exact hs.step hG (step_cases hst)

end PeriodicWork
