import FusionStore.ForStd.Run
import FusionStore.Native.Engine

/-!
# Sessions

The life of one namespace directory: processes open it, make calls and die.  `kill -9`
and a clean exit leave the same thing behind, namely the files as the last call left
them, so a restart is one event: whatever process there was is gone and
`Engine::open` runs on its files.

A call that panics does not return; its process is taken to be gone as well.
-/

namespace FusionStore

/-- The calls a client makes on an open engine. -/
inductive Call where
  | putKv (key value : Bytes) (locked : Bool)
  | deleteKv (key : Bytes) (locked : Bool)
  | insertVector (id : NodeId) (vector : List F32)
  | insertVectorBatch (items : List (NodeId × List F32))
  | deleteVector (id : NodeId)
  | putColumnar (tableId : String) (batch : RecordBatch) (locked : Bool)
  | compact (order : MapOrder) (avail : Option Nat)
  | checkpoint
  | recover
  | close

/-- The operations on keys and vectors that a call logs, and that count once it is
    acknowledged. -/
def Call.ops : Call → List WalOp
  | .putKv key value _ => [.putKv key value]
  | .deleteKv key _ => [.deleteKv key]
  | .insertVector id vector => [.insertVector id vector]
  | .insertVectorBatch items => items.map fun i => .insertVector i.1 i.2
  | .deleteVector id => [.deleteVector id]
  | _ => []

/-- One event in the life of a directory. -/
inductive Event where
  | call (c : Call)
  | restart (schema : Option VectorSchema) (quota : Nat) (order : MapOrder)

/-- The process that owns a directory, or the files it left. -/
inductive Host where
  | up (e : Engine)
  | down (d : EngineDir)

/-- The files of a directory, with or without a process. -/
def Host.dir : Host → EngineDir
  | .up e => e.dir
  | .down d => d

/-- A directory with the calls that were acknowledged on it, oldest first. -/
structure Session where
  host : Host
  acked : List Call

variable (A : F32Arith) (I : Ipc)

/-- One call and what the client gets to know of it. -/
def Engine.call (e : Engine) : Call → Except StoreError Unit × Engine
  | .putKv key value locked => e.putKv key value locked
  | .deleteKv key locked => (e.deleteKv key locked).map (Except.map fun _ => ()) id
  | .insertVector id vector => e.insertVector A id vector
  | .insertVectorBatch items => e.insertVectorBatch A items
  | .deleteVector id => (e.deleteVector id).map (Except.map fun _ => ()) fun e => e
  | .putColumnar tableId batch locked => e.putColumnar I tableId batch locked
  | .compact order avail => (e.compact A order avail).map (Except.map fun _ => ()) id
  | .checkpoint => (.ok (), e.checkpoint)
  | .recover => e.recover A I
  | .close => (.ok (), e.close)

/-- The calls that log one operation and apply it to one submodule. -/
inductive Write where
  | putKv (key value : Bytes)
  | deleteKv (key : Bytes)
  | insertVector (id : NodeId) (vector : List F32)
  | deleteVector (id : NodeId)
  deriving DecidableEq

/-- The operation a write logs. -/
def Write.op : Write → WalOp
  | .putKv key value => .putKv key value
  | .deleteKv key => .deleteKv key
  | .insertVector id vector => .insertVector id vector
  | .deleteVector id => .deleteVector id

/-- A write as a call; `locked` matters to the KV store only. -/
def Write.call (locked : Bool) : Write → Call
  | .putKv key value => .putKv key value locked
  | .deleteKv key => .deleteKv key locked
  | .insertVector id vector => .insertVector id vector
  | .deleteVector id => .deleteVector id

/-- The second half of a write, after its operation is in the log. -/
def Engine.apply (e : Engine) (locked : Bool) : Write → Except StoreError Unit × Engine
  | .putKv key value =>
    let (r, kv) := e.kv.putKv key value locked none
    (r, { e with kv })
  | .deleteKv key =>
    let (r, kv) := e.kv.deleteKv key locked none
    (r.map fun _ => (), { e with kv })
  | .insertVector id vector =>
    match e.ensureVec with
    | .error err => (.error err, e)
    | .ok x =>
      let (r, x) := x.insert A id vector
      (r, { e with vec := .opened x })
  | .deleteVector id =>
    match e.ensureVec with
    | .error err => (.error err, e)
    | .ok x => (.ok (), { e with vec := .opened (x.delete id).2 })

namespace Session

/-- A directory nobody has opened yet. -/
def fresh : Session := ⟨.down .empty, []⟩

/-- The operations of the acknowledged calls. -/
def ops (σ : Session) : List WalOp := σ.acked.flatMap Call.ops

/-- One event.  Calls on a directory without a process do nothing. -/
def step (σ : Session) : Event → Session
  | .call c =>
    match σ.host with
    | .down _ => σ
    | .up e =>
      match e.call A I c with
      | (.ok _, e) => ⟨.up e, σ.acked ++ [c]⟩
      | (.error (.panicked _), e) => ⟨.down e.dir, σ.acked⟩
      | (.error _, e) => ⟨.up e, σ.acked⟩
  | .restart schema quota order =>
    match Engine.open A I σ.host.dir schema quota order with
    | (.ok e, _) => ⟨.up e, σ.acked⟩
    | (.error _, d) => ⟨.down d, σ.acked⟩

/-- The session after the events `es` on a directory nobody has opened yet. -/
def run (es : List Event) : Session := Run.exec (step A I) fresh es

end Session

end FusionStore
