import FusionStore.Native.Sharded

/-!
# Opening and closing a sharded engine

`ShardedEngine::open` puts one engine on each of the directories `shard_0`, `shard_1` and so on
below its home.  The first shard that does not open ends the call; the engines that were open by
then are dropped without a `close`.  `checkpoint` and `close` go over all shards.
-/

namespace FusionStore

namespace ShardedEngine

variable (A : F32Arith) (I : Ipc)

/-- The loop of `open_with_router` from shard `i` on, with what it leaves of the directories. -/
def openLoop (schema : Option VectorSchema) (quotaLimit : Nat) (orders : Nat → MapOrder) :
    Nat → List EngineDir → Except StoreError (List Engine) × List EngineDir
  | _, [] => (.ok [], [])
  | i, d :: dirs =>
    match Engine.open A I d schema quotaLimit (orders i) with
    | (.error err, left) => (.error err, left :: dirs)
    | (.ok e, left) =>
      match openLoop schema quotaLimit orders (i + 1) dirs with
      | (.error err, lefts) => (.error err, left :: lefts)
      | (.ok shards, lefts) => (.ok (e :: shards), left :: lefts)

/-- `open_with_router`, with one directory for each of the `num_shards`; `orders i` is the order
    of the rebuild at shard `i`. -/
def openWithRouter (home : List EngineDir) (schema : Option VectorSchema) (quotaLimit : Nat)
    (router : ShardRouter) (orders : Nat → MapOrder) :
    Except StoreError (ShardedEngine Engine) × List EngineDir :=
  if home.length = 0 then (.error (.corrupt "num_shards must be >= 1"), home)
  else
    match openLoop A I schema quotaLimit orders 0 home with
    | (.error err, left) => (.error err, left)
    | (.ok shards, left) => (.ok { shards, router }, left)

/-- `checkpoint`, of every shard. -/
def checkpoint (se : ShardedEngine Engine) : ShardedEngine Engine :=
  { se with shards := se.shards.map Engine.checkpoint }

/-- `close`, of every shard. -/
def close (se : ShardedEngine Engine) : ShardedEngine Engine :=
  { se with shards := se.shards.map Engine.close }

/-- What `search_knn` sorts; the answer of a single shard is not sorted again. -/
def mergedHits (se : ShardedEngine Engine) (query : List F32) (topK : Nat)
    (expired : Nat → Nat → Bool) : List (NodeId × F32) :=
  match se.shards with
  | [_] => []
  | shards => collectHits (shards.mapIdx fun i e => e.searchKnn A query topK (expired i))

end ShardedEngine

/-! ### Callers -/

/-- The calls of a process that works on one home; `create` opens it with the schema.
    `sortPanics` is what `sort_by` does where a NaN leaves it without a total order. -/
inductive StoreCall where
  | create (quotaLimit : Nat) (orders : Nat → MapOrder)
  | reopen (quotaLimit : Nat) (orders : Nat → MapOrder)
  | close
  | checkpoint
  | putKv (key value : Bytes) (locked : Bool)
  | getKv (key : Bytes)
  | deleteKv (key : Bytes) (locked : Bool)
  | insertVector (id : NodeId) (vector : List F32)
  | insertVectorBatch (items : List (NodeId × List F32))
  | searchKnn (query : List F32) (topK : Nat) (expired : Nat → Nat → Bool) (sortPanics : Bool)
  | deleteVector (id : NodeId)
  | getVector (id : NodeId)
  | listVectorIds
  | vectorCount

/-- The results of the calls; `skipped` is a call that the process does not make. -/
inductive StoreReply where
  | unit (r : Except StoreError Unit)
  | value (r : Except StoreError (Option Bytes))
  | removed (r : Except StoreError Bool)
  | hits (r : Except StoreError (List (NodeId × F32)))
  | vector (r : Except StoreError (Option (List F32)))
  | ids (r : Except StoreError (List NodeId))
  | count (n : Nat)
  | skipped

/-- The call has panicked. -/
def StoreReply.panicked : StoreReply → Bool
  | .unit r => panics r
  | .value r => panics r
  | .removed r => panics r
  | .hits r => panics r
  | .vector r => panics r
  | .ids r => panics r
  | .count _ | .skipped => false

/-- The shards' directories, and the engine if it is open.  A panic ends the process: the lock
    of the shard it came from is poisoned. -/
inductive ShardHost where
  | closed (home : List EngineDir)
  | opened (se : ShardedEngine Engine)
  | aborted

namespace ShardHost

variable (A : F32Arith) (I : Ipc) (schema : VectorSchema) (router : ShardRouter)

/-- After `open` on `home`. -/
def start (r : Except StoreError (ShardedEngine Engine) × List EngineDir) :
    ShardHost × StoreReply :=
  match r with
  | (.ok se, _) => (.opened se, .unit (.ok ()))
  | (.error err, left) => (.closed left, .unit (.error err))

/-- One call on an open engine. -/
def onEngine (se : ShardedEngine Engine) : StoreCall → ShardHost × StoreReply
  | .create _ _ | .reopen _ _ => (.opened se, .skipped)
  | .close => (.closed (se.close.shards.map Engine.dir), .unit (.ok ()))
  | .checkpoint => (.opened se.checkpoint, .unit (.ok ()))
  | .putKv key value locked =>
    let (r, se) := se.putKv (Engine.ops A) key value locked
    (.opened se, .unit r)
  | .getKv key => (.opened se, .value (se.getKvZeroCopy (Engine.ops A) key))
  | .deleteKv key locked =>
    let (r, se) := se.deleteKv (Engine.ops A) key locked
    (.opened se, .removed r)
  | .insertVector id vector =>
    let (r, se) := se.insertVector (Engine.ops A) id vector true
    (.opened se, .unit r)
  | .insertVectorBatch items =>
    let (r, se) := se.insertVectorBatch (Engine.ops A) items fun _ => true
    (.opened se, .unit r)
  | .searchKnn query topK expired sortPanics =>
    if sortPanics && (se.mergedHits A query topK expired).any fun r => F32.isNaN r.2 then
      (.opened se, .hits (.error (.panicked
        "user-provided comparison function does not correctly implement a total order")))
    else (.opened se, .hits (se.searchKnn (fun e => e.searchKnn A) query topK expired))
  | .deleteVector id =>
    let (r, se) := se.deleteVector (Engine.ops A) id true
    (.opened se, .removed r)
  | .getVector id => (.opened se, .vector (se.getVector (Engine.ops A) id))
  | .listVectorIds => (.opened se, .ids (se.listVectorIds (Engine.ops A)))
  | .vectorCount => (.opened se, .count (se.vectorCount (Engine.ops A)))

/-- One call.  The process closes its engine before it opens it again. -/
def step (s : ShardHost) (call : StoreCall) : ShardHost × StoreReply :=
  match s, call with
  | .opened se, call =>
    let (s, r) := onEngine A se call
    if r.panicked then (.aborted, r) else (s, r)
  | .closed home, .create quotaLimit orders =>
    start (ShardedEngine.openWithRouter A I home (some schema) quotaLimit router orders)
  | .closed home, .reopen quotaLimit orders =>
    start (ShardedEngine.openWithRouter A I home none quotaLimit router orders)
  | .closed home, _ => (.closed home, .skipped)
  | .aborted, _ => (.aborted, .skipped)

end ShardHost

end FusionStore
