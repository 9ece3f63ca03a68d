import FusionStore.Native.Snapshot
import FusionStore.Native.WalCodec

/-!
# The HTTP server: roles, health and compaction

From `fs-serve/src/lib.rs`: the check of the bearer token, `/health`, and the steps of
`/admin/compact`.  Its handler sets the flag, starts the compaction on a blocking thread and
waits for it; while it waits other requests run, the task may end, and the HTTP stack may drop
the handler because the client has gone, which does not stop the task.
-/

namespace FusionStore

/-- The status codes the handlers answer with. -/
inductive StatusCode where
  | ok
  | noContent
  | unauthorized
  | forbidden
  | conflict
  | internalServerError
  | serviceUnavailable
  deriving DecidableEq, Repr

/-- `AppError`. -/
structure AppError where
  status : StatusCode
  message : String
  deriving DecidableEq

/-! ### Roles -/

/-- `AuthRole`. -/
inductive AuthRole where
  | readonly
  | readwrite
  | admin
  deriving DecidableEq

namespace AuthRole

/-- The discriminants, which order the roles. -/
def rank : AuthRole → Nat
  | .readonly => 0
  | .readwrite => 1
  | .admin => 2

/-- `label`. -/
def label : AuthRole → String
  | .admin => "admin"
  | .readwrite => "readwrite"
  | .readonly => "readonly"

end AuthRole

/-- `constant_eq`: no early return on a difference. -/
def constantEq (a b : Bytes) : Bool :=
  if a.length ≠ b.length then false
  else (a.zip b).foldl (fun diff xy => diff ||| (xy.1 ^^^ xy.2)) 0 == 0

/-- `AuthConfig`, with its tokens in the order in which the map enumerates them. -/
structure AuthConfig where
  tokens : List (String × AuthRole)

namespace AuthConfig

/-- `check`; `authorization` is the text of the header, if there is one.  The second component
    says whether tokens are configured. -/
def check (auth : AuthConfig) (authorization : Option String) : Option AuthRole × Bool :=
  if auth.tokens.isEmpty then (none, false)
  else
    match authorization with
    | none => (none, true)
    | some raw =>
      -- `raw.strip_prefix("Bearer ")`
      let marker := strBytes "Bearer "
      if marker.isPrefixOf (strBytes raw) then
        let tok := (strBytes raw).drop marker.length
        ((auth.tokens.find? fun e => constantEq tok (strBytes e.1)).map (·.2), true)
      else (none, true)

/-- `require_role`.  Without configured tokens everybody is an admin. -/
def requireRole (auth : AuthConfig) (authorization : Option String) (min : AuthRole) :
    Except AppError AuthRole :=
  match auth.check authorization with
  | (_, false) => .ok .admin
  | (some r, true) =>
    if min.rank ≤ r.rank then .ok r
    else .error ⟨.forbidden, s!"role {r.label} insufficient, require >= {min.label}"⟩
  | (none, true) => .error ⟨.unauthorized, "missing or invalid Authorization Bearer token"⟩

end AuthConfig

/-! ### Compaction -/

/-- The `Display` text of an error. -/
def StoreError.toText : StoreError → String
  | .io msg => s!"io error: {msg}"
  | .heed msg => s!"heed error: {msg}"
  | .serdeJson msg => s!"serde json error: {msg}"
  | .notFound => "key not found"
  | .duplicateVector id => s!"vector id {id} already exists"
  | .dimensionMismatch expected got => s!"dimension mismatch: expected {expected}, got {got}"
  | .quotaExceeded => "namespace quota exceeded"
  | .busy => "write backpressure: queue full"
  | .segmentFull => "mmap segment full"
  | .lockBusy => "lock contention: writer held by another process"
  | .corrupt msg => s!"corrupt: {msg}"
  | .mapFull current limit =>
    s!"heed map full: metadata exceeded map_size ({current} bytes, limit {limit})"
  | .timeout => "operation timed out"
  | .valueTooLarge len => s!"value too large: {len} bytes exceeds u32 max"
  | .lockPoisoned => "lock poisoned: writer panicked while holding lock"
  | .invalidKey msg => s!"invalid key: {msg}"
  | .arrow msg => s!"arrow error: {msg}"
  | .panicked msg => msg

/-- `CompactResult` (`compact.rs`). -/
structure CompactResult where
  liveVectors : Nat
  reclaimableSegs : List Nat

/-- `CompactResp`. -/
structure CompactResp where
  liveVectors : Nat
  reclaimableSegs : Nat

/-- A compaction whose task is running (`ended` is `none`) or whose handler is waiting for it.
    A task that panicked ends with the panic; its `JoinHandle` reports it as a `JoinError`. -/
structure CompactJob where
  waiting : Bool
  ended : Option (Except StoreError CompactResult)

/-- `BACKPRESSURE_THRESHOLD`. -/
def backpressureThreshold : Nat := 8000

/-- The part of `AppState` that `/health` and `/admin/compact` use, and the compactions. -/
structure Serve where
  auth : AuthConfig
  queueDepth : Nat
  compactInProgress : Bool
  jobs : List CompactJob

/-- `HealthResp` with its status code. -/
structure HealthResp where
  code : StatusCode
  status : String
  storeOpen : Bool
  compactInProgress : Bool
  backpressure : Bool

namespace Serve

/-- A server that was just started. -/
def start (auth : AuthConfig) : Serve := ⟨auth, 0, false, []⟩

/-- `health`. -/
def health (s : Serve) : HealthResp :=
  let compact := s.compactInProgress
  let backpressure := decide (s.queueDepth ≥ backpressureThreshold)
  let (status, code) :=
    if compact then ("unavailable", StatusCode.serviceUnavailable)
    else if backpressure then ("degraded", StatusCode.ok)
    else ("ok", StatusCode.ok)
  ⟨code, status, true, compact, backpressure⟩

/-- `compact_endpoint` up to its `await`: the error it answers with, or a new job. -/
def compactEndpoint (s : Serve) (authorization : Option String) : Option AppError × Serve :=
  match s.auth.requireRole authorization .admin with
  | .error e => (some e, s)
  | .ok _ =>
    -- `compact_in_progress.swap(true)`
    let was := s.compactInProgress
    let s := { s with compactInProgress := true }
    if was then (some ⟨.conflict, "compact already in progress"⟩, s)
    else (none, { s with jobs := s.jobs ++ [⟨true, none⟩] })

/-- The rest of `compact_endpoint`, once its task has ended. -/
def resumeCompact (s : Serve) (ended : Except StoreError CompactResult) :
    Except AppError CompactResp × Serve :=
  match ended with
  -- the `?` on the `JoinError` returns before the flag is cleared
  | .error (.panicked msg) => (.error ⟨.internalServerError, msg⟩, s)
  | .ok r =>
    (.ok ⟨r.liveVectors, r.reclaimableSegs.length⟩, { s with compactInProgress := false })
  | .error e => (.error ⟨.internalServerError, e.toText⟩, { s with compactInProgress := false })

/-- What happens to the server: a request, the end of a task, a handler that is polled after
    its task has ended, a handler that is dropped at its `await`, and writes that change the
    depth of the queue. -/
inductive Event where
  | request (authorization : Option String)
  | taskEnds (i : Nat) (res : Except StoreError CompactResult)
  | resume (i : Nat)
  | drop (i : Nat)
  | queue (depth : Nat)

/-- One step.  What cannot happen in the state changes nothing. -/
def step (s : Serve) : Event → Serve
  | .request authorization => (s.compactEndpoint authorization).2
  | .taskEnds i res =>
    match s.jobs[i]? with
    | some ⟨true, none⟩ => { s with jobs := s.jobs.set i ⟨true, some res⟩ }
    -- nobody waits for the task any more
    | some ⟨false, none⟩ => { s with jobs := s.jobs.eraseIdx i }
    | _ => s
  | .resume i =>
    match s.jobs[i]? with
    | some ⟨true, some res⟩ => { (s.resumeCompact res).2 with jobs := s.jobs.eraseIdx i }
    | _ => s
  | .drop i =>
    match s.jobs[i]? with
    | some ⟨true, none⟩ => { s with jobs := s.jobs.set i ⟨false, none⟩ }
    | some ⟨true, some _⟩ => { s with jobs := s.jobs.eraseIdx i }
    | _ => s
  | .queue depth => { s with queueDepth := depth }

end Serve

end FusionStore
