import FusionStore.Native.Columnar
import FusionStore.Native.Kv
import FusionStore.Native.VectorStore
import FusionStore.Native.WalLog

/-!
# Engine

`Engine` of `engine_impl.rs`: the KV store, the vector index, the columnar store
and the WAL of one namespace.  Every write is logged first and applied second;
`open` replays the entries above the checkpoint marker through the same submodule
calls and then shortens the log.  A call returns its result together with the
engine it leaves, since a call that fails has often changed something already.

I/O errors and a full heed map are outside this model: heed commits succeed.
-/

namespace FusionStore

/-- A submodule that may not be open: its files, or the running instance. -/
inductive Slot (δ σ : Type) where
  | closed (dir : δ)
  | opened (store : σ)

/-- The files of one namespace. -/
structure EngineDir where
  kv : KvDir
  vec : VecDir
  col : ColDir
  wal : LogDir

/-- A namespace without files. -/
def EngineDir.empty : EngineDir := ⟨.empty, .empty, .empty, .empty⟩

/-- What a power loss leaves of the namespace; WAL and marker writes are synced. -/
def EngineDir.powerLoss (d : EngineDir) : EngineDir :=
  { d with kv := d.kv.powerLoss, vec := d.vec.powerLoss, col := d.col.powerLoss }

/-- `Engine`. -/
structure Engine where
  kv : KvStore
  vec : Slot VecDir VectorIndex
  col : Slot ColDir ColumnarStore
  wal : WalLog
  quotaLimit : Nat

namespace Engine

/-- The files an engine leaves when its process dies. -/
def dir (e : Engine) : EngineDir where
  kv := e.kv.dir
  vec := match e.vec with
    | .closed d => d
    | .opened x => x.dir
  col := match e.col with
    | .closed d => d
    | .opened c => c.dir
  wal := e.wal.dir

/-- `ensure_vec`, also `vec_index`. -/
def ensureVec (e : Engine) : Except StoreError VectorIndex :=
  match e.vec with
  | .closed _ => .error .notFound
  | .opened x => .ok x

/-- `ensure_col`. -/
def ensureCol (e : Engine) : Except StoreError ColumnarStore :=
  match e.col with
  | .closed _ => .error .notFound
  | .opened c => .ok c

variable (A : F32Arith) (I : Ipc)

/-- `replay_op`: an insert of a stored id is skipped, every other error is returned. -/
def replayOp (e : Engine) : WalOp → Except StoreError Unit × Engine
  | .putKv key value =>
    let (r, kv) := e.kv.putKv key value true none
    (r, { e with kv })
  | .deleteKv key =>
    let (r, kv) := e.kv.deleteKv key true none
    (r.map fun _ => (), { e with kv })
  | .insertVector id vector =>
    match e.ensureVec with
    | .error err => (.error err, e)
    | .ok x =>
      match x.insert A id vector with
      -- already in the index: an entry may be replayed twice
      | (.error (.duplicateVector _), x) => (.ok (), { e with vec := .opened x })
      | (r, x) => (r, { e with vec := .opened x })
  | .deleteVector id =>
    match e.ensureVec with
    | .error err => (.error err, e)
    | .ok x => (.ok (), { e with vec := .opened (x.delete id).2 })
  | .putColumnar tableId ipc =>
    match I.decode ipc with
    | .error err => (.error err, e)
    | .ok batch =>
      match e.ensureCol with
      | .error err => (.error err, e)
      | .ok c =>
        let (r, c) := c.putColumnar tableId batch true none
        (r, { e with col := .opened c })

/-- The replay loop of `recover_inner`: it stops at the first error. -/
def replayAll (e : Engine) : List WalEntry → Except StoreError Unit × Engine
  | [] => (.ok (), e)
  | entry :: entries =>
    match e.replayOp A I entry.op with
    | (.error err, e) => (.error err, e)
    | (.ok _, e) => replayAll e entries

/-- `recover_inner`: replay what is pending, then truncate the log behind it. -/
def recoverInner (e : Engine) : Except StoreError Unit × Engine :=
  let entries := e.wal.dir.pending
  if entries.isEmpty then (.ok (), e)
  else
    match e.replayAll A I entries with
    | (.error err, e) => (.error err, e)
    | (.ok _, e) =>
      let maxSeq := entries.foldl (fun m x => max m x.seq) e.wal.dir.appliedSeq
      (.ok (), { e with wal := e.wal.truncateTo maxSeq })

/-- The vector part of `Engine::open`: a schema opens the index, otherwise it is
    reopened if `vec_meta` exists. -/
def openVec (d : VecDir) (schema : Option VectorSchema) (order : MapOrder) :
    Except StoreError (Slot VecDir VectorIndex) × VecDir :=
  match schema with
  | some s =>
    let (r, left) := VectorIndex.open d s 0
    (r.map .opened, left)
  | none =>
    match d.vecMeta with
    | some _ =>
      let (r, left) := VectorIndex.reopen A d 0 order
      (r.map .opened, left)
    | none => (.ok (.closed d), d)

/-- `Engine::open`.  The second component is what the call leaves on disk. -/
def «open» (d : EngineDir) (schema : Option VectorSchema) (quotaLimit : Nat)
    (order : MapOrder) : Except StoreError Engine × EngineDir :=
  let kv := KvStore.open d.kv 0 quotaLimit
  match openVec A d.vec schema order with
  | (.error err, vec) => (.error err, { d with kv := kv.dir, vec })
  | (.ok vec, _) =>
    let e : Engine := { kv, vec, col := .closed d.col, wal := WalLog.open d.wal, quotaLimit }
    match e.recoverInner A I with
    | (.error err, e) => (.error err, e.dir)
    | (.ok _, e) => (.ok e, e.dir)

/-- `put_kv`; `locked` is the outcome of the KV write lock within the timeout. -/
def putKv (e : Engine) (key value : Bytes) (locked : Bool) : Except StoreError Unit × Engine :=
  match e.wal.append (.putKv key value) with
  | .error err => (.error err, e)
  | .ok (_, wal) =>
    let (r, kv) := e.kv.putKv key value locked none
    (r, { e with wal, kv })

/-- `get_kv_zero_copy`. -/
def getKvZeroCopy (e : Engine) (key : Bytes) : Except StoreError (Option Bytes) :=
  e.kv.getKvZeroCopy key

/-- `delete_kv`. -/
def deleteKv (e : Engine) (key : Bytes) (locked : Bool) : Except StoreError Bool × Engine :=
  match e.wal.append (.deleteKv key) with
  | .error err => (.error err, e)
  | .ok (_, wal) =>
    let (r, kv) := e.kv.deleteKv key locked none
    (r, { e with wal, kv })

/-- `insert_vector`. -/
def insertVector (e : Engine) (id : NodeId) (vector : List F32) :
    Except StoreError Unit × Engine :=
  match e.wal.append (.insertVector id vector) with
  | .error err => (.error err, e)
  | .ok (_, wal) =>
    let e := { e with wal }
    match e.ensureVec with
    | .error err => (.error err, e)
    | .ok x =>
      let (r, x) := x.insert A id vector
      (r, { e with vec := .opened x })

/-- `insert_vector_batch`: one log write for the whole batch. -/
def insertVectorBatch (e : Engine) (items : List (NodeId × List F32)) :
    Except StoreError Unit × Engine :=
  match e.wal.appendBatch (items.map fun i => .insertVector i.1 i.2) with
  | .error err => (.error err, e)
  | .ok (_, wal) =>
    let e := { e with wal }
    match e.ensureVec with
    | .error err => (.error err, e)
    | .ok x =>
      let (r, x) := x.insertBatch A items
      (r, { e with vec := .opened x })

/-- `search_knn`. -/
def searchKnn (e : Engine) (query : List F32) (topK : Nat) (expired : Nat → Bool) :
    Except StoreError (List (NodeId × F32)) := do
  (← e.ensureVec).searchKnn A query topK expired

/-- `delete_vector`. -/
def deleteVector (e : Engine) (id : NodeId) : Except StoreError Bool × Engine :=
  match e.wal.append (.deleteVector id) with
  | .error err => (.error err, e)
  | .ok (_, wal) =>
    let e := { e with wal }
    match e.ensureVec with
    | .error err => (.error err, e)
    | .ok x =>
      let (removed, x) := x.delete id
      (.ok removed, { e with vec := .opened x })

/-- `get_vector`. -/
def getVector (e : Engine) (id : NodeId) : Except StoreError (Option (List F32)) := do
  (← e.ensureVec).getVector id

/-- `list_vector_ids`. -/
def listVectorIds (e : Engine) : Except StoreError (List NodeId) := do
  return (← e.ensureVec).listVectorIds

/-- `run_compact` on the index of the engine (`vec_index`). -/
def compact (e : Engine) (order : MapOrder) (avail : Option Nat) :
    Except StoreError Nat × Engine :=
  match e.ensureVec with
  | .error err => (.error err, e)
  | .ok x =>
    let (r, x) := x.compact A order avail
    (r, { e with vec := .opened x })

/-- `put_columnar`: the columnar store is opened on the first call. -/
def putColumnar (e : Engine) (tableId : String) (batch : RecordBatch) (locked : Bool) :
    Except StoreError Unit × Engine :=
  match I.encode batch with
  | .error err => (.error err, e)
  | .ok ipc =>
    match e.wal.append (.putColumnar tableId ipc) with
    | .error err => (.error err, e)
    | .ok (_, wal) =>
      -- `ensure_col` opens it on first use
      let c := match e.col with
        | .closed d => ColumnarStore.open d 0 e.quotaLimit
        | .opened c => c
      let (r, c) := c.putColumnar tableId batch locked none
      (r, { e with wal, col := .opened c })

/-- `get_columnar_zero_copy`. -/
def getColumnarZeroCopy (e : Engine) (tableId : String) (columns : List String) :
    Except StoreError (Option RecordBatch) := do
  (← e.ensureCol).getColumnarZeroCopy tableId columns

/-- Step 1 of `checkpoint`: flush the KV store. -/
def flushKv (e : Engine) : Engine := { e with kv := e.kv.flush }

/-- Step 2: flush the columnar store if it is open. -/
def flushCol (e : Engine) : Engine :=
  match e.ensureCol with
  | .ok c => { e with col := .opened c.flush }
  | .error _ => e

/-- Step 3: the vector snapshot if there is an index. -/
def checkpointVec (e : Engine) : Engine :=
  match e.ensureVec with
  | .ok x => { e with vec := .opened x.checkpoint }
  | .error _ => e

/-- Step 4: the WAL marker. -/
def writeMarker (e : Engine) (appliedSeq : Nat) : Engine :=
  { e with wal := e.wal.writeMarker (Wal.checkpointMarker appliedSeq) }

/-- Step 5: the truncation. -/
def truncateWal (e : Engine) (appliedSeq : Nat) : Engine :=
  { e with wal := e.wal.truncateTo appliedSeq }

/-- `Engine::checkpoint`: `applied_seq` is read first, the log is shortened last. -/
def checkpoint (e : Engine) : Engine :=
  let appliedSeq := e.wal.nextSeq - 1
  ((e.flushKv.flushCol.checkpointVec.writeMarker appliedSeq).truncateWal appliedSeq)

/-- `recover`. -/
def recover (e : Engine) : Except StoreError Unit × Engine := e.recoverInner A I

/-- `close` is a checkpoint. -/
def close (e : Engine) : Engine := e.checkpoint

end Engine

end FusionStore
