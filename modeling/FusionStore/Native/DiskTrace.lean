import FusionStore.Native.Session

/-!
# The disk states of an event

A power loss does not wait for a call to return.  Here a call is the list of states it
takes the disk through, one for each flush, `force_sync`, file write or submodule call
inside it, in the order of the source.  The last state of each list is the one the call
as a whole leaves.
-/

namespace FusionStore

/-- `KvStore::flush`: the active segment, the cursor sidecar, `force_sync`. -/
def KvStore.flushTrace (s : KvStore) : List KvStore :=
  [{ s with pool := { s.pool with dir := s.pool.dir.flushSeg s.pool.activeId } },
    { s with pool := s.pool.flush }, s.flush]

/-- `VectorIndex::checkpoint`: the snapshot file, the active segment. -/
def VectorIndex.checkpointTrace (x : VectorIndex) : List VectorIndex :=
  [{ x with snapshot := some (Snapshot.serialize x.graph) }, x.checkpoint]

namespace Engine

/-- Step 3 of `checkpoint`. -/
def checkpointVecTrace (e : Engine) : List Engine :=
  match e.ensureVec with
  | .ok x => x.checkpointTrace.map fun y => { e with vec := .opened y }
  | .error _ => []

/-- `Engine::checkpoint`. -/
def checkpointTrace (e : Engine) : List Engine :=
  let appliedSeq := e.wal.nextSeq - 1
  let flushed := e.flushKv.flushCol
  let marked := flushed.checkpointVec.writeMarker appliedSeq
  (e.kv.flushTrace.map fun kv => { e with kv }) ++ [flushed] ++ flushed.checkpointVecTrace ++
    [marked, marked.truncateWal appliedSeq]

variable (A : F32Arith) (I : Ipc)

/-- The replay loop of `recover_inner`. -/
def replayTrace (e : Engine) : List WalEntry → List Engine
  | [] => []
  | entry :: entries =>
    match e.replayOp A I entry.op with
    | (.error _, e) => [e]
    | (.ok _, e) => e :: replayTrace e entries

/-- `recover_inner`: the replay, then the truncation. -/
def recoverTrace (e : Engine) : List Engine :=
  e.replayTrace A I e.wal.dir.pending ++ [(e.recoverInner A I).2]

/-- A write: the log, then the submodule. -/
def writeTrace (e : Engine) (locked : Bool) (w : Write) : List Engine :=
  match e.wal.append w.op with
  | .error _ => [e]
  | .ok (_, wal) => [{ e with wal }, (({ e with wal } : Engine).apply A locked w).2]

/-- The calls of a client.  Those that are not taken apart are one step. -/
def callTrace (e : Engine) : Call → List Engine
  | .putKv key value locked => e.writeTrace A locked (.putKv key value)
  | .deleteKv key locked => e.writeTrace A locked (.deleteKv key)
  | .insertVector id vector => e.writeTrace A true (.insertVector id vector)
  | .deleteVector id => e.writeTrace A true (.deleteVector id)
  | .checkpoint => e.checkpointTrace
  | .close => e.checkpointTrace
  | .recover => e.recoverTrace A I
  | c => [(e.call A I c).2]

/-- `Engine::open`: the KV store, the vector index, the recovery. -/
def openTrace (d : EngineDir) (schema : Option VectorSchema) (quotaLimit : Nat)
    (order : MapOrder) : List EngineDir :=
  let kv := KvStore.open d.kv 0 quotaLimit
  { d with kv := kv.dir } ::
  match openVec A d.vec schema order with
  | (.error _, vec) => [{ d with kv := kv.dir, vec }]
  | (.ok vec, _) =>
    let e : Engine := { kv, vec, col := .closed d.col, wal := WalLog.open d.wal, quotaLimit }
    e.dir :: (e.recoverTrace A I).map dir

end Engine

variable (A : F32Arith) (I : Ipc)

/-- The states the disk goes through during an event. -/
def Session.trace (σ : Session) : Event → List EngineDir
  | .call c =>
    match σ.host with
    | .down d => [d]
    | .up e => (e.callTrace A I c).map Engine.dir
  | .restart schema quota order => Engine.openTrace A I σ.host.dir schema quota order

end FusionStore
