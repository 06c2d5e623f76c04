import CcmakeTemplate.MessageDistribute.Model
import CcmakeTemplate.ThreadPool.Steps

/-!
# What one step of a `messageDistribute` can do

The step functions of the model, inverted once. A step of the pool leaves the distributor
alone, and a step of the distributor leaves the pool alone, unless it calls `enqueue`.
-/

namespace MessageDistribute

open Concurrency

open ThreadPool (Thread)

variable {F A : Type}

inductive OwnGo (callbackList : List (Callback F)) : Pc F A → Pc F A → Prop
  | null : OwnGo callbackList (.testToken none) .returnFalse
  | token (token : ℕ) : OwnGo callbackList (.testToken (some token)) (.lock (.search token 0))
  | refused : OwnGo callbackList .returnFalse .out
  | next {token it : ℕ} {c : Callback F} (hc : callbackList[it]? = some c)
      (hne : c.token ≠ token) :
      OwnGo callbackList (.holding (.search token it)) (.holding (.search token (it + 1)))
  | skip {n : ℕ} {c : Callback F} {localList : List (Callback F)} {args : A} (h : c.fn = none) :
      OwnGo callbackList (.enqueueing n (c :: localList) args) (.enqueueing n localList args)

/-- How a critical section ends: the list it leaves and what is recorded. -/
inductive Records (callbackList : List (Callback F)) :
    Body F A → List (Callback F) → Section F A → Prop
  | push (h : Callback F) : Records callbackList (.push h) (callbackList ++ [h]) (.add h)
  | missing {token it : ℕ} (hend : callbackList[it]? = none) :
      Records callbackList (.search token it) callbackList (.remove token false)
  | found {token it : ℕ} {c : Callback F} (hc : callbackList[it]? = some c)
      (heq : c.token = token) :
      Records callbackList (.search token it) (callbackList.eraseIdx it) (.remove token true)
  | copy (args : A) : Records callbackList (.copy args) callbackList (.copy callbackList args)
  | size : Records callbackList .size callbackList (.size callbackList.length)
  | clear : Records callbackList .clear [] .clear

inductive OwnStep (poolSize : ℕ) (u : Thread) (s : State F A) : State F A → Prop
  | go {pc : Pc F A} (h : OwnGo s.callbackList (s.pc u) pc) : OwnStep poolSize u s (s.go u pc)
  | make {handle : Option F} (hpc : s.pc u = .makeShared handle) :
      OwnStep poolSize u s
        ({ s with made := s.made + 1 }.go u (.lock (.push ⟨s.made, handle⟩)))
  | lock {body : Body F A} (hpc : s.pc u = .lock body) (hfree : s.listLock = none) :
      OwnStep poolSize u s ({ s with listLock := some u }.go u (.holding body))
  | record {body : Body F A} {callbackList : List (Callback F)} {sec : Section F A}
      (hpc : s.pc u = .holding body) (h : Records s.callbackList body callbackList sec) :
      OwnStep poolSize u s (record u callbackList sec s)
  | unlock {n : ℕ} {sec : Section F A} (hpc : s.pc u = .unlock n sec) :
      OwnStep poolSize u s ({ s with listLock := none }.go u (sec.next n))
  | returns {n : ℕ} {args : A} (hpc : s.pc u = .enqueueing n [] args) :
      OwnStep poolSize u s ({ s with returned := s.returned ++ [n] }.go u .out)
  | enqueue {n : ℕ} {c : Callback F} {fn : F} {localList : List (Callback F)} {args : A}
      {pool : ThreadPool.State (Task F A)} (hpc : s.pc u = .enqueueing n (c :: localList) args)
      (hfn : c.fn = some fn)
      (h : ThreadPool.step poolSize s.pool_ (poolCall ⟨n, c.token, fn, args⟩ u) = some pool) :
      OwnStep poolSize u s ({ s with pool_ := pool }.go u (.enqueueing n localList args))

theorem bodyStep_cases {poolSize : ℕ} {u : Thread} {body : Body F A} {s : State F A}
    (hpc : s.pc u = .holding body) : OwnStep poolSize u s (bodyStep u body s) := by
  cases body with
  | push h => exact .record hpc (.push h)
  | search token it =>
      simp only [bodyStep]
      split
      · rename_i hend
        exact .record hpc (.missing hend)
      · rename_i c hc
        split
        · rename_i heq
          exact .record hpc (.found hc heq)
        · rename_i hne
          exact .go (hpc ▸ .next hc hne)
  | copy args => exact .record hpc (.copy args)
  | size => exact .record hpc .size
  | clear => exact .record hpc .clear

theorem ownStep_cases {poolSize : ℕ} {u : Thread} {s t : State F A}
    (h : ownStep poolSize u s = some t) : OwnStep poolSize u s t := by
  cases hpc : s.pc u with
  | out => simp [ownStep, hpc] at h
  | makeShared handle =>
      simp only [ownStep, hpc] at h
      cases h
      exact .make hpc
  | testToken token =>
      cases token with
      | none =>
          simp only [ownStep, hpc] at h
          cases h
          exact .go (hpc ▸ .null)
      | some token =>
          simp only [ownStep, hpc] at h
          cases h
          exact .go (hpc ▸ .token token)
  | returnFalse =>
      simp only [ownStep, hpc] at h
      cases h
      exact .go (hpc ▸ .refused)
  | lock body =>
      simp only [ownStep, hpc] at h
      obtain ⟨m, hm, rfl⟩ := Option.map_eq_some_iff.mp h
      obtain ⟨hfree, rfl⟩ := Mutex.lock_eq_some.mp hm
      exact .lock hpc hfree
  | holding body =>
      simp only [ownStep, hpc] at h
      cases h
      exact bodyStep_cases hpc
  | unlock n sec =>
      simp only [ownStep, hpc] at h
      cases h
      exact .unlock hpc
  | enqueueing n localList args =>
      cases localList with
      | nil =>
          simp only [ownStep, hpc] at h
          cases h
          exact .returns hpc
      | cons c localList =>
          simp only [ownStep, hpc] at h
          split at h
          · rename_i hfn
            cases h
            exact .go (hpc ▸ .skip hfn)
          · rename_i fn hfn
            obtain ⟨pool, hpool, rfl⟩ := Option.map_eq_some_iff.mp h
            exact .enqueue hpc hfn hpool

theorem State.admits_starts {s : State F A} {a : ThreadPool.Action (Task F A)}
    (h : s.admits a = true) : a.starts = false := by
  cases a with
  | worker | client | spurious | destroy => rfl
  | call | nest => cases h

/-- The step that an action is. -/
inductive Move (poolSize : ℕ) (s : State F A) : Action F A → State F A → Prop
  | pool {a : ThreadPool.Action (Task F A)} {pool : ThreadPool.State (Task F A)}
      (hadmits : s.admits a = true) (h : ThreadPool.step poolSize s.pool_ a = some pool) :
      Move poolSize s (.pool a) { s with pool_ := pool }
  | finish {i : ℕ} {outcome : Outcome} {task : Task F A} {n : ℕ}
      {pool : ThreadPool.State (Task F A)} (hpc : s.pool_.workerPc i = .running task n none)
      (hout : s.pc (.worker i) = .out)
      (h : ThreadPool.step poolSize s.pool_ (.worker i none) = some pool) :
      Move poolSize s (.finish i outcome) { s with pool_ := pool }
  | start {u : Thread} (op : Op F A) (hfree : s.free u = true) :
      Move poolSize s (.start u op) (s.go u op.entry)
  | own {u : Thread} {t : State F A} (hcall : s.pool_.call u = none)
      (h : OwnStep poolSize u s t) : Move poolSize s (.own u) t

theorem step_move {poolSize : ℕ} {s t : State F A} {a : Action F A}
    (h : step poolSize s a = some t) : Move poolSize s a t := by
  cases a with
  | pool a =>
      simp only [step] at h
      split at h
      · rename_i hadmits
        obtain ⟨pool, hpool, rfl⟩ := Option.map_eq_some_iff.mp h
        exact .pool hadmits hpool
      · cases h
  | finish i outcome =>
      simp only [step] at h
      split at h
      · rename_i task n hpc hout
        obtain ⟨pool, hpool, rfl⟩ := Option.map_eq_some_iff.mp h
        exact .finish hpc hout hpool
      · rename_i task n hpc hout
        obtain ⟨pool, hpool, rfl⟩ := Option.map_eq_some_iff.mp h
        exact .finish hpc hout hpool
      · cases h
  | start u op =>
      simp only [step] at h
      split at h
      · rename_i hfree
        cases h
        exact .start op hfree
      · cases h
  | own u =>
      simp only [step] at h
      split at h
      · rename_i hcall
        exact .own (Option.isNone_iff_eq_none.mp hcall) (ownStep_cases h)
      · cases h

/-- A callback that ends is a step of the pool like the others: the task has caught what
was thrown. -/
inductive Step (poolSize : ℕ) (s : State F A) : State F A → Prop
  | pool {a : ThreadPool.Action (Task F A)} {pool : ThreadPool.State (Task F A)}
      (ha : a.starts = false) (h : ThreadPool.step poolSize s.pool_ a = some pool) :
      Step poolSize s { s with pool_ := pool }
  | start {u : Thread} (op : Op F A) (hfree : s.free u = true) :
      Step poolSize s (s.go u op.entry)
  | own {u : Thread} {t : State F A} (hcall : s.pool_.call u = none)
      (h : OwnStep poolSize u s t) : Step poolSize s t

theorem step_cases {poolSize : ℕ} {s t : State F A} {a : Action F A}
    (h : step poolSize s a = some t) : Step poolSize s t := by
  cases step_move h with
  | pool hadmits hpool => exact .pool (State.admits_starts hadmits) hpool
  | finish _ _ hpool => exact .pool rfl hpool
  | start op hfree => exact .start op hfree
  | own hcall hown => exact .own hcall hown

/-! ## The pool inside -/

/-- The pool of a distributor is a `thread_pool` like any other. -/
theorem refines_pool (poolSize : ℕ) :
    (machine poolSize : Machine (State F A) _).Refines (fun _ _ => True)
      (ThreadPool.machine poolSize) (fun _ _ => True) State.pool_ where
  init := by
    rintro s rfl
    rfl
  step := by
    intro s a t _ _ hst
    cases step_cases hst with
    | pool ha h => exact .inr ⟨_, trivial, h⟩
    | start => exact .inl rfl
    | own hcall h =>
        cases h with
        | enqueue hpc hfn h => exact .inr ⟨_, trivial, h⟩
        | _ => exact .inl rfl

end MessageDistribute
