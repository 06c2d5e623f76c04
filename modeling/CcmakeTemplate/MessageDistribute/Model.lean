import CcmakeTemplate.ThreadPool.Model

/-!
# `messageDistribute` as a machine

The distributor is `callbackList` with its `listLock`, over a `thread_pool` whose steps are
those of its own machine. Clients call the methods, and so do the callbacks, which run on
the workers of the pool. `pool_` is declared last, hence destroyed first: while the pool
drains, `callbackList` and `listLock` are still there for the callbacks.

`F` stands for the functions behind the callbacks and `A` for the arguments of `distribute`.
A token is the address of the `std::function` that `addUpdateCallback` makes. Whoever holds
the token keeps the function alive, so no two tokens in use are equal. The functions are not
assigned to through their tokens.
-/

namespace MessageDistribute

open Concurrency

open ThreadPool (Thread)

/-! ## Data -/

/-- An element of `callbackList`; `fn` is `none` for an empty `std::function`. -/
structure Callback (F : Type) where
  token : ℕ
  fn : Option F
deriving DecidableEq

/-- What a call of `distribute` enqueues. `call` is the number of its critical section,
which no step reads. -/
structure Task (F A : Type) where
  call : ℕ
  token : ℕ
  fn : F
  args : A
deriving DecidableEq

/-- A critical section of `listLock`, with what it found. -/
inductive Section (F A : Type) where
  | add (h : Callback F)
  | remove (token : ℕ) (found : Bool)
  | copy (localList : List (Callback F)) (args : A)
  | size (n : ℕ)
  | clear
deriving DecidableEq

inductive Op (F A : Type) where
  | addUpdateCallback (handle : Option F)
  | removeUpdateCallback (token : Option ℕ)
  | distribute (args : A)
  | callbackCount
  | clear

/-- What is left to do under `listLock`. -/
inductive Body (F A : Type) where
  | push (h : Callback F)
  | search (token it : ℕ)
  | copy (args : A)
  | size
  | clear

/-- Program points of the methods. `unlock` carries the section that ends, in which the
method's result can be read, and its number; `enqueueing` carries what is left of the loop
over `localList`. -/
inductive Pc (F A : Type) where
  | out
  | makeShared (handle : Option F)
  | testToken (token : Option ℕ)
  | returnFalse
  | lock (body : Body F A)
  | holding (body : Body F A)
  | unlock (n : ℕ) (sec : Section F A)
  | enqueueing (n : ℕ) (localList : List (Callback F)) (args : A)

variable {F A : Type}

def Op.entry : Op F A → Pc F A
  | .addUpdateCallback handle => .makeShared handle
  | .removeUpdateCallback token => .testToken token
  | .distribute args => .lock (.copy args)
  | .callbackCount => .lock .size
  | .clear => .lock .clear

def Pc.isOut : Pc F A → Bool
  | .out => true
  | _ => false

structure State (F A : Type) where
  callbackList : List (Callback F)
  listLock : Mutex Thread
  pool_ : ThreadPool.State (Task F A)
  pc : Thread → Pc F A
  /-- How many tokens have been made. -/
  made : ℕ
  /-- History: the critical sections of `listLock`, in order. -/
  sections : List (Section F A)
  /-- History: the calls of `distribute` that have returned, by the numbers of their
  sections. -/
  returned : List ℕ

namespace State

abbrev go (s : State F A) (u : Thread) (pc : Pc F A) : State F A :=
  { s with pc := Function.update s.pc u pc }

theorem go_self (s : State F A) (u : Thread) (pc : Pc F A) : (s.go u pc).pc u = pc :=
  Function.update_self ..

theorem go_other {u v : Thread} (h : v ≠ u) (s : State F A) (pc : Pc F A) :
    (s.go u pc).pc v = s.pc v := Function.update_of_ne h ..

/-- `u` may call a method: a client between its calls, or a callback that runs. -/
def free (s : State F A) (u : Thread) : Bool :=
  (s.pc u).isOut &&
    match u with
    | .client c =>
        match s.pool_.phase, s.pool_.clientPc c with
        | .alive, .out | .destroying, .out => true
        | _, _ => false
    | .worker i =>
        match s.pool_.workerPc i with
        | .running _ _ none => true
        | _ => false

end State

/-! ## The methods -/

/-- The section ends: it is recorded, and `listLock` is still held. -/
def record (u : Thread) (callbackList : List (Callback F)) (sec : Section F A)
    (s : State F A) : State F A :=
  { s with callbackList := callbackList, sections := s.sections ++ [sec] }.go u
    (.unlock s.sections.length sec)

def bodyStep (u : Thread) (body : Body F A) (s : State F A) : State F A :=
  match body with
  | .push h => record u (s.callbackList ++ [h]) (.add h) s
  | .search token it =>
      match s.callbackList[it]? with
      | none => record u s.callbackList (.remove token false) s
      | some c =>
          if c.token = token then record u (s.callbackList.eraseIdx it) (.remove token true) s
          else s.go u (.holding (.search token (it + 1)))
  | .copy args => record u s.callbackList (.copy s.callbackList args) s
  | .size => record u s.callbackList (.size s.callbackList.length) s
  | .clear => record u [] .clear s

/-- After its critical section `distribute` goes on to its loop, the other methods
return. -/
def Section.next (n : ℕ) : Section F A → Pc F A
  | .copy localList args => .enqueueing n localList args
  | _ => .out

/-- `pool_.enqueue`, called by a client or inside a callback. -/
def poolCall (task : Task F A) : Thread → ThreadPool.Action (Task F A)
  | .client c => .call c (.enqueue task)
  | .worker i => .nest i (.enqueue task)

def ownStep (poolSize : ℕ) (u : Thread) (s : State F A) : Option (State F A) :=
  match s.pc u with
  | .out => none
  | .makeShared handle =>
      some ({ s with made := s.made + 1 }.go u (.lock (.push ⟨s.made, handle⟩)))
  | .testToken none => some (s.go u .returnFalse)
  | .testToken (some token) => some (s.go u (.lock (.search token 0)))
  | .returnFalse => some (s.go u .out)
  | .lock body => (s.listLock.lock u).map fun m => { s with listLock := m }.go u (.holding body)
  | .holding body => some (bodyStep u body s)
  | .unlock n sec => some ({ s with listLock := none }.go u (sec.next n))
  | .enqueueing n [] _ => some ({ s with returned := s.returned ++ [n] }.go u .out)
  | .enqueueing n (c :: localList) args =>
      -- the pointer `c` is never null, since `addUpdateCallback` made what it points to
      match c.fn with
      | none => some (s.go u (.enqueueing n localList args))
      | some fn =>
          (ThreadPool.step poolSize s.pool_ (poolCall ⟨n, c.token, fn, args⟩ u)).map fun pool =>
            { s with pool_ := pool }.go u (.enqueueing n localList args)

/-! ## The machine -/

/-- How `fn(args...)` ends. -/
inductive Outcome where
  | returns | throws
deriving DecidableEq

/-- What the scheduler picks: a step inside the pool, the end of the callback that a worker
runs, the start of a method or the next step of its code. -/
inductive Action (F A : Type) where
  | pool (a : ThreadPool.Action (Task F A))
  | finish (i : ℕ) (outcome : Outcome)
  | start (u : Thread) (op : Op F A)
  | own (u : Thread)

/-- The steps that the pool makes by itself. It is called by `distribute` only, the end of
a task is the end of its callback, and the destructor is not called from inside a method. -/
def State.admits (s : State F A) : ThreadPool.Action (Task F A) → Bool
  | .worker i _ => match s.pool_.workerPc i with | .running _ _ none => false | _ => true
  | .client .. | .spurious _ => true
  | .destroy c => (s.pc (.client c)).isOut
  | .call .. | .nest .. => false

def step (poolSize : ℕ) (s : State F A) : Action F A → Option (State F A)
  | .pool a =>
      if s.admits a then
        (ThreadPool.step poolSize s.pool_ a).map fun pool => { s with pool_ := pool }
      else none
  | .finish i outcome =>
      -- whatever the callback throws is caught, so that the task returns
      match outcome, s.pool_.workerPc i, s.pc (.worker i) with
      | .returns, .running _ _ none, .out | .throws, .running _ _ none, .out =>
          (ThreadPool.step poolSize s.pool_ (.worker i none)).map fun pool =>
            { s with pool_ := pool }
      | _, _, _ => none
  | .start u op => if s.free u then some (s.go u op.entry) else none
  | .own u => if (s.pool_.call u).isNone then ownStep poolSize u s else none

/-- `messageDistribute(pool_size)` about to create the workers of its pool. -/
def State.initial : State F A where
  callbackList := []
  listLock := none
  pool_ := .initial
  pc := fun _ => .out
  made := 0
  sections := []
  returned := []

def machine (poolSize : ℕ) : Machine (State F A) (Action F A) where
  init := fun s => s = State.initial
  step := step poolSize

/-! ## Schedules -/

/-- A method that takes `n` steps of its own, at once. -/
def runMethod (u : Thread) (op : Op F A) (n : ℕ) : List (Action F A) :=
  .start u op :: List.replicate n (.own u)

/-- `n` steps inside the pool by client 0, and by worker 0. -/
def runClient (n : ℕ) : List (Action F A) := List.replicate n (.pool (.client 0 none))

def runWorker (n : ℕ) : List (Action F A) := List.replicate n (.pool (.worker 0 none))

end MessageDistribute
