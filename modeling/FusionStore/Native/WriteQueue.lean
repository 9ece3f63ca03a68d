import FusionStore.Native.Serve

/-!
# The write queue of the HTTP server

`try_enqueue`, `await_write_done` and the worker pool of `fs-serve/src/lib.rs`.  A handler
counts its request in `queue_depth`, compares what it read with the capacity, and either takes
its count back or offers the request to the bounded channel; a worker takes a request out of
the channel, carries it out, takes the count back and answers.  Each access to the counter, to
the channel and to the answer channel is one step, and the steps of all handlers and workers
interleave.  `try_enqueue` has no `await`, so no handler is dropped inside of it.
-/

namespace FusionStore

/-- Where the handler of a request is: `counted` after its `fetch_add`, with the value that
    returned; `bounced` after a `try_send` on a full channel; then the request is accepted or
    rejected. -/
inductive HandlerPhase where
  | counted (qd : Int)
  | bounced
  | accepted
  | rejected
  deriving DecidableEq

/-- Where a worker is: looking for a request, with a request to carry out, with its result
    before the `fetch_sub`, and with its result before the answer. -/
inductive WorkerPhase where
  | idle
  | taken (r : Nat)
  | executed (r : Nat) (res : Bool)
  | released (r : Nat) (res : Bool)
  deriving DecidableEq

/-- The counter, the channel with its oldest request first, the handlers and workers, and what
    has been carried out and answered.  A request is named by the place of its handler.  The
    counter is an integer here: below zero is where the `AtomicUsize` would wrap. -/
structure WriteQueue where
  queueCap : Nat
  queueDepth : Int
  channel : List Nat
  handlers : List HandlerPhase
  workers : List WorkerPhase
  executed : List (Nat × Bool)
  answered : List (Nat × Bool)

/-- The error of both rejections of `try_enqueue`. -/
def queueFull : AppError := ⟨.serviceUnavailable, "backpressure: queue full"⟩

/-- `await_write_done`; `done` is `none` if the sender was dropped. -/
def awaitWriteDone (done : Option Bool) (label : String) : Except AppError StatusCode :=
  match done with
  | some true => .ok .noContent
  | some false => .error ⟨.internalServerError, s!"{label} failed"⟩
  | none => .error ⟨.internalServerError, s!"{label} worker dropped"⟩

/-- A step of the server: a new request is counted, a handler or a worker goes on.  `res` is
    the outcome of the write, should the worker be about to carry one out. -/
inductive QueueStep where
  | arrive
  | handler (i : Nat)
  | worker (w : Nat) (res : Bool)
  deriving DecidableEq

namespace WriteQueue

/-- A server that was just started; `spawn_write_worker_pool` starts at least one worker. -/
def start (queueCap workers : Nat) : WriteQueue :=
  ⟨queueCap, 0, [], [], List.replicate (max workers 1) .idle, [], []⟩

/-- `try_enqueue`, from one access of a handler to the next. -/
def stepHandler (q : WriteQueue) (i : Nat) : HandlerPhase → WriteQueue
  | .counted qd =>
    if qd ≥ q.queueCap then
      { q with queueDepth := q.queueDepth - 1, handlers := q.handlers.set i .rejected }
    -- `write_tx.try_send`
    else if q.channel.length < q.queueCap then
      { q with channel := q.channel ++ [i], handlers := q.handlers.set i .accepted }
    else { q with handlers := q.handlers.set i .bounced }
  | .bounced => { q with queueDepth := q.queueDepth - 1, handlers := q.handlers.set i .rejected }
  | .accepted | .rejected => q

/-- `handle_write_req` and the `try_recv` before it, from one access of a worker to the next. -/
def stepWorker (q : WriteQueue) (w : Nat) (res : Bool) : WorkerPhase → WriteQueue
  | .idle =>
    match q.channel with
    | [] => q
    | r :: rest => { q with channel := rest, workers := q.workers.set w (.taken r) }
  | .taken r =>
    { q with executed := q.executed ++ [(r, res)], workers := q.workers.set w (.executed r res) }
  | .executed r res =>
    { q with queueDepth := q.queueDepth - 1, workers := q.workers.set w (.released r res) }
  | .released r res =>
    { q with answered := q.answered ++ [(r, res)], workers := q.workers.set w .idle }

/-- One step.  A handler or a worker that does not exist takes none. -/
def step (q : WriteQueue) : QueueStep → WriteQueue
  -- `queue_depth.fetch_add(1)`
  | .arrive =>
    { q with
      queueDepth := q.queueDepth + 1
      handlers := q.handlers ++ [.counted q.queueDepth] }
  | .handler i =>
    match q.handlers[i]? with
    | some phase => q.stepHandler i phase
    | none => q
  | .worker w res =>
    match q.workers[w]? with
    | some phase => q.stepWorker w res phase
    | none => q

/-- What the sender of the answer to `r` sent. -/
def done (q : WriteQueue) (r : Nat) : Option Bool :=
  (q.answered.find? fun e => e.1 = r).map Prod.snd

/-- What the handler of the request `r` returns, once it does: the error of `try_enqueue`, or
    what `await_write_done` makes of the answer. -/
def response (q : WriteQueue) (label : String) (r : Nat) :
    Option (Except AppError StatusCode) :=
  match q.handlers[r]? with
  | some .accepted => (q.done r).map fun res => awaitWriteDone (some res) label
  | some .rejected => some (.error queueFull)
  | _ => none

end WriteQueue

end FusionStore
