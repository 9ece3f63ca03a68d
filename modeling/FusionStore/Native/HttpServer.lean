import FusionStore.ForStd.Linear
import FusionStore.Native.Session
import FusionStore.Native.WriteQueue

/-!
# The HTTP server over its engine

The handlers of `/kv`, `/vector`, `/knn` and `/admin/compact` with the worker pool behind the
write queue, on one open engine.  A worker carries a write out in two steps, the log entry
under the `wal` mutex and the rest under the lock of the submodule; searches and compactions
are blocking tasks (`spawn_blocking`; the runtime queues those it has no thread for), each
under the mutex of the index.  In between everybody else runs, and a client may go away, which
drops its handler at the `await` but stops no task.

`/columnar` is left out, and with it `WriteReq::PutColumnar`: it writes to a store of its own,
from batches that the Arrow reader decodes.
-/

namespace FusionStore

/-- `KNN_CONCURRENCY`. -/
def knnConcurrency : Nat := 64

/-- `MAX_BODY_BYTES`. -/
def maxBodyBytes : Nat := 16 * 1024 * 1024

/-- `WriteReq`, without its answer channel and without the variant `PutColumnar`. -/
inductive WriteReq where
  | putKv (key value : Bytes)
  | insertVector (id : NodeId) (vector : List F32)

namespace WriteReq

/-- The call `handle_write_req` makes. -/
def write : WriteReq → Write
  | .putKv key value => .putKv key value
  | .insertVector id vector => .insertVector id vector

/-- Its label there. -/
def label : WriteReq → String
  | .putKv _ _ => "put_kv"
  | .insertVector _ _ => "insert_vector"

end WriteReq

/-- The requests. -/
inductive HttpReq where
  | write (req : WriteReq)
  | knn (query : List F32) (topK : Nat)
  | compact

/-- What the JSON body of a request has at least: a byte for each byte of its texts, and a
    digit and a separator for each of its numbers. -/
def HttpReq.bodyBytes : HttpReq → Nat
  | .write (.putKv key value) => key.length + value.length
  | .write (.insertVector _ vector) => 2 * vector.length
  | .knn query _ => 2 * query.length
  | .compact => 0

/-- A request with its authorization header, if it has one.  `DefaultBodyLimit` answers what
    is larger before any handler sees it. -/
structure HttpRequest where
  authorization : Option String
  req : HttpReq
  limited : req.bodyBytes ≤ maxBodyBytes

/-- The answers. -/
inductive HttpReply where
  | status (code : StatusCode)
  | hits (results : List (NodeId × F32))
  | compacted (resp : CompactResp)
  | error (e : AppError)

/-- What a handler returns. -/
def HttpReply.ofStatus : Except AppError StatusCode → HttpReply
  | .ok code => .status code
  | .error e => .error e

/-- A request is named by the place of its handler in the write queue, or among the other
    requests. -/
inductive ReqId where
  | write (h : Nat)
  | task (j : Nat)
  deriving DecidableEq

/-- What clients see. -/
abbrev HttpEvent := Linear.Event ReqId HttpReq HttpReply

/-- A write whose handler got past the check of its token, and whether it still waits. -/
structure WriteCall where
  req : WriteReq
  waiting : Bool

/-- A blocking task and its handler: the task has not run yet, it has and its handler has the
    result, the handler was dropped before, or all is done. -/
inductive TaskPhase where
  | running
  | ended (reply : HttpReply)
  | dropped
  | done

/-- The server. -/
structure HttpServer where
  auth : AuthConfig
  engine : Engine
  queue : WriteQueue
  writes : List WriteCall
  logged : List Nat
  tasks : List (HttpReq × TaskPhase)
  permits : Nat
  compactInProgress : Bool

/-- A step: a request arrives; a handler in `try_enqueue` goes on; worker `w` logs its write,
    applies it, or does one of its other steps; a write is answered or its client goes away;
    the task of a search or of a compaction runs; its handler answers or is dropped.
    `locked` is the outcome of the KV write lock, `order` and `avail` are those of the
    compaction, and `cached` are the segments in its handle cache. -/
inductive HttpStep where
  | request (r : HttpRequest)
  | handler (h : Nat)
  | log (w : Nat)
  | apply (w : Nat) (locked : Bool)
  | worker (w : Nat)
  | respond (h : Nat)
  | leave (h : Nat)
  | search (j : Nat)
  | compact (j : Nat) (order : MapOrder) (avail : Option Nat) (cached : List Nat)
  | resume (j : Nat)
  | drop (j : Nat)

namespace HttpServer

/-- A server that was just started. -/
def start (auth : AuthConfig) (engine : Engine) (queueCap workers : Nat) : HttpServer :=
  ⟨auth, engine, .start queueCap workers, [], [], [], knnConcurrency, false⟩

/-- A request that is answered with an error at once. -/
def refuse (s : HttpServer) (req : HttpReq) (e : AppError) : HttpServer × List HttpEvent :=
  ({ s with tasks := s.tasks ++ [(req, .done)] },
    [.call (.task s.tasks.length) req, .ret (.task s.tasks.length) (.error e)])

/-- A handler that has started its blocking task. -/
def spawn (s : HttpServer) (req : HttpReq) : HttpServer × List HttpEvent :=
  ({ s with tasks := s.tasks ++ [(req, .running)] }, [.call (.task s.tasks.length) req])

/-- A handler up to its first `await`. -/
def receive (s : HttpServer) (r : HttpRequest) : HttpServer × List HttpEvent :=
  match r.req with
  | .write req =>
    match s.auth.requireRole r.authorization .readwrite with
    | .error e => s.refuse r.req e
    | .ok _ =>
      ({ s with queue := s.queue.step .arrive, writes := s.writes ++ [⟨req, true⟩] },
        [.call (.write s.writes.length) r.req])
  | .knn _ _ =>
    -- `knn_sem.try_acquire_owned`
    if s.permits = 0 then
      s.refuse r.req ⟨.serviceUnavailable, "knn concurrency limit reached"⟩
    else { s with permits := s.permits - 1 }.spawn r.req
  | .compact =>
    match s.auth.requireRole r.authorization .admin with
    | .error e => s.refuse r.req e
    | .ok _ =>
      if s.compactInProgress then
        s.refuse r.req ⟨.conflict, "compact already in progress"⟩
      else { s with compactInProgress := true }.spawn r.req

/-- The request that worker `w` has taken and not carried out. -/
def taken (s : HttpServer) (w : Nat) : Option Nat :=
  match s.queue.workers[w]? with
  | some (.taken h) => some h
  | _ => none

variable (A : F32Arith)

/-- The first half of a write; what cannot be logged is not applied. -/
def log (s : HttpServer) (w h : Nat) (req : WriteReq) : HttpServer :=
  match s.engine.wal.append req.write.op with
  | .error _ => { s with queue := s.queue.step (.worker w false) }
  | .ok (_, wal) => { s with engine := { s.engine with wal }, logged := h :: s.logged }

/-- The second half. -/
def applyWrite (s : HttpServer) (w h : Nat) (req : WriteReq) (locked : Bool) : HttpServer :=
  let (r, engine) := s.engine.apply A locked req.write
  { s with
    engine
    queue := s.queue.step (.worker w r.isOk)
    logged := s.logged.erase h }

/-- What the blocking task of `knn_endpoint` returns. -/
def searchReply (s : HttpServer) (query : List F32) (topK : Nat) : HttpReply :=
  match s.engine.searchKnn A query topK fun _ => false with
  | .ok results => .hits results
  | .error e => .error ⟨.internalServerError, e.toText⟩

/-- What the blocking task of `compact_endpoint` returns and leaves. -/
def compactReply (s : HttpServer) (order : MapOrder) (avail : Option Nat) (cached : List Nat) :
    HttpReply × Engine :=
  let segs := match s.engine.vec with
    | .opened x => x.pool.allSegIds cached
    | .closed _ => []
  match s.engine.compact A order avail with
  | (.ok live, engine) => (.compacted ⟨live, segs.length⟩, engine)
  | (.error e, engine) => (.error ⟨.internalServerError, e.toText⟩, engine)

/-- What a handler gives back once it has its answer or is dropped; only the former clears the
    flag of the compaction. -/
def release (s : HttpServer) (req : HttpReq) (answered : Bool) : HttpServer :=
  match req with
  | .knn _ _ => { s with permits := s.permits + 1 }
  | .compact => if answered then { s with compactInProgress := false } else s
  | .write _ => s

/-- The task `j` is through. -/
def finish (s : HttpServer) (j : Nat) (req : HttpReq) (phase : TaskPhase) (reply : HttpReply) :
    HttpServer :=
  match phase with
  | .running => { s with tasks := s.tasks.set j (req, .ended reply) }
  | .dropped => { s with tasks := s.tasks.set j (req, .done) }
  | .ended _ | .done => s

/-- One step and what clients see of it.  What cannot happen in the state changes nothing. -/
def step (s : HttpServer) : HttpStep → HttpServer × List HttpEvent
  | .request r => s.receive r
  | .handler h => ({ s with queue := s.queue.step (.handler h) }, [])
  | .log w =>
    match s.taken w with
    | some h =>
      match s.writes[h]? with
      | some c => (if h ∈ s.logged then s else s.log w h c.req, [])
      | none => (s, [])
    | none => (s, [])
  | .apply w locked =>
    match s.taken w with
    | some h =>
      match s.writes[h]? with
      | some c => (if h ∈ s.logged then s.applyWrite A w h c.req locked else s, [])
      | none => (s, [])
    | none => (s, [])
  | .worker w =>
    match s.taken w with
    | some _ => (s, [])
    | none => ({ s with queue := s.queue.step (.worker w false) }, [])
  | .respond h =>
    match s.writes[h]? with
    | some ⟨req, true⟩ =>
      match s.queue.response req.label h with
      | some r =>
        ({ s with writes := s.writes.set h ⟨req, false⟩ },
          [.ret (.write h) (.ofStatus r)])
      | none => (s, [])
    | _ => (s, [])
  | .leave h =>
    match s.writes[h]? with
    | some c =>
      -- `try_enqueue` has no `await`
      if s.queue.handlers[h]? = some .accepted then
        ({ s with writes := s.writes.set h { c with waiting := false } }, [])
      else (s, [])
    | none => (s, [])
  | .search j =>
    match s.tasks[j]? with
    | some (.knn query topK, phase) =>
      (s.finish j (.knn query topK) phase (s.searchReply A query topK), [])
    | _ => (s, [])
  | .compact j order avail cached =>
    match s.tasks[j]? with
    | some (.compact, .running) =>
      let (reply, engine) := s.compactReply A order avail cached
      ({ s with engine }.finish j .compact .running reply, [])
    | some (.compact, .dropped) =>
      let (reply, engine) := s.compactReply A order avail cached
      ({ s with engine }.finish j .compact .dropped reply, [])
    | _ => (s, [])
  | .resume j =>
    match s.tasks[j]? with
    | some (req, .ended reply) =>
      ({ s with tasks := s.tasks.set j (req, .done) }.release req true, [.ret (.task j) reply])
    | _ => (s, [])
  | .drop j =>
    match s.tasks[j]? with
    | some (req, .running) =>
      ({ s with tasks := s.tasks.set j (req, .dropped) }.release req false, [])
    | some (req, .ended _) =>
      ({ s with tasks := s.tasks.set j (req, .done) }.release req false, [])
    | _ => (s, [])

end HttpServer

end FusionStore
