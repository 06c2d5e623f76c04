import CcmakeTemplate.BlockingQueue.Model

/-!
# The thread pool behind an asynchronous logger

The pool of `details/thread_pool-inl.h`, with the calls of `async_logger-inl.h` on either side
of it: `sink_it_` and `flush_` post a message, a worker takes it and calls the sinks. There
is one step for each step of the queue, for each call of a sink, for the creation and the
join of each worker, and for each change of the number of the `shared_ptr`s to the pool. The
thread that gives up the last of them runs the destructor.

`L`, `S` and `M` stand for the loggers, the sinks and the messages. The levels of sinks and
loggers stay as they are. A worker carries the number of its message: the place that the
message has among all that `dequeue` returned so far. No step reads the number, nor the
fields under "history", which record what happened.
-/

namespace AsyncPool

open Concurrency BlockingQueue

variable {L S M : Type}

/-! ## Loggers -/

/-- What a worker asks the loggers and the sinks. -/
structure Backend (L S M : Type) where
  sinks_ : L → List S
  shouldLog : S → M → Bool
  shouldFlush : L → M → Bool

inductive SinkCall (S M : Type) where
  | log (sink : S) (msg : M)
  | flush (sink : S)
deriving DecidableEq

/-- The calls that `backend_flush_` makes. -/
def Backend.backendFlush (b : Backend L S M) (logger : L) : List (SinkCall S M) :=
  (b.sinks_ logger).map .flush

/-- The calls that `backend_sink_it_` makes. -/
def Backend.backendSinkIt (b : Backend L S M) (logger : L) (msg : M) : List (SinkCall S M) :=
  ((b.sinks_ logger).filter fun sink => b.shouldLog sink msg).map (.log · msg) ++
    if b.shouldFlush logger msg then b.backendFlush logger else []

/-! ## Messages -/

/-- `async_msg`: the type with the data that belongs to it. -/
inductive AsyncMsg (L M : Type) where
  | log (worker_ptr : L) (msg : M)
  | flush (worker_ptr : L)
  | terminate
deriving DecidableEq

/-- What fills the slots of the ring that nothing was written to. -/
instance : Inhabited (AsyncMsg L M) := ⟨.terminate⟩

/-- The calls that a worker makes for a message. -/
def Backend.calls (b : Backend L S M) : AsyncMsg L M → List (SinkCall S M)
  | .log logger msg => b.backendSinkIt logger msg
  | .flush logger => b.backendFlush logger
  | .terminate => []

inductive AsyncOverflowPolicy where
  | block | overrunOldest | discardNew
deriving DecidableEq

/-- `post_async_msg_`. -/
def AsyncOverflowPolicy.op (new_msg : AsyncMsg L M) : AsyncOverflowPolicy → Op (AsyncMsg L M)
  | .block => .enqueue new_msg
  | .overrunOldest => .enqueueNowait new_msg
  | .discardNew => .enqueueIfHaveRoom new_msg

/-! ## Threads -/

inductive Thread where
  | worker (i : ℕ)
  | client (c : ℕ)
deriving DecidableEq

/-- Who has a `shared_ptr` to the pool: the registry and the callers of `post_log` and
`post_flush`. -/
inductive Owner where
  | registry
  | client (c : ℕ)
deriving DecidableEq

/-- Program points of `worker_loop_`; `call` carries the number of the message and the calls
that are left. -/
inductive WorkerPc (L S M : Type) where
  | loop (pc : QueuePc (AsyncMsg L M))
  | call (number : ℕ) (calls : List (SinkCall S M))
  | ended
deriving DecidableEq

/-- Program points of a client; `destroyPost` and `destroyJoin` are the destructor's. -/
inductive ClientPc (L M : Type) where
  | out
  | construct
  | post (pc : QueuePc (AsyncMsg L M))
  | release
  | destroyPost (i : ℕ) (pc : Option (QueuePc (AsyncMsg L M)))
  | destroyJoin (i : ℕ)
deriving DecidableEq

inductive Phase where
  | constructing | failed | alive | destroying | destroyed
deriving DecidableEq

structure State (L S M : Type) where
  q_ : MpmcBlockingQueue Thread (AsyncMsg L M)
  /-- The number of threads in `threads_`. -/
  threads_ : ℕ
  workerPc : ℕ → WorkerPc L S M
  clientPc : ℕ → ClientPc L M
  owners : List Owner
  phase : Phase
  /-- What was thrown by the constructor, and what was handed to the error handlers. -/
  errors : List String
  /-- History: the messages that `dequeue` returned, in order. -/
  returned : List (AsyncMsg L M)
  /-- History: the calls of the sinks, in order, with the numbers of their messages. -/
  visits : List (ℕ × SinkCall S M)

namespace State

abbrev goWorker (s : State L S M) (i : ℕ) (pc : WorkerPc L S M) : State L S M :=
  { s with workerPc := Function.update s.workerPc i pc }

abbrev goClient (s : State L S M) (c : ℕ) (pc : ClientPc L M) : State L S M :=
  { s with clientPc := Function.update s.clientPc c pc }

/-- A `shared_ptr` goes away, and the thread destroys the pool if it was the last one. -/
def drop (s : State L S M) (owner : Owner) (c : ℕ) : State L S M :=
  if s.owners.erase owner = [] then
    { s with owners := [], phase := .destroying }.goClient c (.destroyPost 0 none)
  else { s with owners := s.owners.erase owner }.goClient c .out

end State

/-! ## The workers -/

/-- `process_next_msg_` with the message that it has dequeued. -/
def process (b : Backend L S M) (number : ℕ) : AsyncMsg L M → WorkerPc L S M
  | .terminate => .ended
  | msg => .call number (b.calls msg)

/-- `throws` carries the error of a sink that throws; the logger catches it. -/
def workerStep (b : Backend L S M) (i : ℕ) (wake : Option Thread) (throws : Option String)
    (s : State L S M) : Option (State L S M) :=
  match s.workerPc i with
  | .loop pc =>
      match queueStep (.worker i) wake s.q_ pc with
      | some (q, .inl pc') => some ({ s with q_ := q }.goWorker i (.loop pc'))
      | some (q, .inr (.item msg)) =>
          some ({ s with q_ := q, returned := s.returned ++ [msg] }.goWorker i
            (process b s.returned.length msg))
      | _ => none
  | .call number (call :: calls) =>
      some ({ s with
        visits := s.visits ++ [(number, call)]
        errors := s.errors ++ throws.toList }.goWorker i (.call number calls))
  | .call _ [] => some (s.goWorker i (.loop (.dequeueLock false)))
  | .ended => none

/-! ## The clients -/

def invalidThreads : String :=
  "spdlog::thread_pool(): invalid threads_n param (valid range is 1-1000)"

def clientStep (threads_n : ℕ) (c : ℕ) (wake : Option Thread) (s : State L S M) :
    Option (State L S M) :=
  match s.clientPc c with
  | .out => none
  | .construct =>
      if threads_n = 0 ∨ 1000 < threads_n then
        some ({ s with phase := .failed, errors := s.errors ++ [invalidThreads] }.goClient c .out)
      else if s.threads_ < threads_n then
        some ({ s with threads_ := s.threads_ + 1 }.goWorker s.threads_
          (.loop (.dequeueLock false)))
      else some ({ s with phase := .alive, owners := [.registry] }.goClient c .out)
  | .post pc =>
      match queueStep (.client c) wake s.q_ pc with
      | some (q, .inl pc') => some ({ s with q_ := q }.goClient c (.post pc'))
      | some (q, .inr _) => some ({ s with q_ := q }.goClient c .release)
      | none => none
  | .release => some (s.drop (.client c) c)
  | .destroyPost i none =>
      if i < s.threads_ then
        some (s.goClient c (.destroyPost i (some (.enqueueLock .terminate))))
      else some (s.goClient c (.destroyJoin 0))
  | .destroyPost i (some pc) =>
      match queueStep (.client c) wake s.q_ pc with
      | some (q, .inl pc') => some ({ s with q_ := q }.goClient c (.destroyPost i (some pc')))
      | some (q, .inr _) => some ({ s with q_ := q }.goClient c (.destroyPost (i + 1) none))
      | none => none
  | .destroyJoin i =>
      if i < s.threads_ then
        match s.workerPc i with
        | .ended => some (s.goClient c (.destroyJoin (i + 1)))
        | _ => none
      else some ({ s with phase := .destroyed }.goClient c .out)

/-! ## The machine -/

/-- `sink_it_` and `flush_` of an asynchronous logger. -/
inductive Request (L M : Type) where
  | sinkIt (logger : L) (msg : M)
  | flush (logger : L)

def Request.msg : Request L M → AsyncMsg L M
  | .sinkIt logger msg => .log logger msg
  | .flush logger => .flush logger

def Request.refusal : Request L M → String
  | .sinkIt _ _ => "async log: thread pool doesn't exist anymore"
  | .flush _ => "async flush: thread pool doesn't exist anymore"

/-- What the scheduler picks. -/
inductive Action (L M : Type) where
  | worker (i : ℕ) (wake : Option Thread) (throws : Option String)
  | client (c : ℕ) (wake : Option Thread)
  | post (c : ℕ) (request : Request L M) (policy : AsyncOverflowPolicy)
  | reset (c : ℕ)
  | spurious (t : Thread)

def step (b : Backend L S M) (threads_n : ℕ) (s : State L S M) : Action L M → Option (State L S M)
  | .worker i wake throws => workerStep b i wake throws s
  | .client c wake => clientStep threads_n c wake s
  | .post c request policy =>
      match s.phase, s.clientPc c with
      | .constructing, _ => none
      | _, .out =>
          if s.owners = [] then some { s with errors := s.errors ++ [request.refusal] }
          else
            some ({ s with owners := .client c :: s.owners }.goClient c
              (.post (policy.op request.msg).entry))
      | _, _ => none
  | .reset c =>
      match s.clientPc c with
      | .out => if .registry ∈ s.owners then some (s.drop .registry c) else none
      | _ => none
  | .spurious t => some { s with q_ := s.q_.unblock t }

/-- `thread_pool(q_max_items, threads_n)`, called by client 0. -/
def State.initial (q_max_items : ℕ) : State L S M where
  q_ := .new q_max_items
  threads_ := 0
  workerPc := fun _ => .ended
  clientPc := Function.update (fun _ => .out) 0 .construct
  owners := []
  phase := .constructing
  errors := []
  returned := []
  visits := []

def machine (b : Backend L S M) (q_max_items threads_n : ℕ) :
    Machine (State L S M) (Action L M) where
  init := fun s => s = State.initial q_max_items
  step := step b threads_n

end AsyncPool
