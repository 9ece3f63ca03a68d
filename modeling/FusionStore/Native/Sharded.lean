import FusionStore.ForStd.Routed
import FusionStore.ForStd.Run
import FusionStore.Native.Engine

/-!
# Sharded engine

`ShardedEngine` of `sharded.rs`: a list of engines and a router that names the engine of
every key and of every vector id.  The engines are taken through their operations
(`EngineOps`), so that the layer can be studied over any engine; `Engine.ops` are those of
the engine of this store.  Outcomes the caller does not control, such as the write lock, are
an argument of type `O` of each operation.
-/

namespace FusionStore

/-- `ShardRouter`. -/
structure ShardRouter where
  shardForVector : NodeId → Nat → Nat
  shardForKey : Bytes → Nat → Nat

/-- `HashRouter`, over the standard library's hash of a key. -/
def hashRouter (defaultHash : Bytes → UInt64) : ShardRouter where
  shardForVector id numShards := if numShards = 0 then 0 else id.toNat % numShards
  shardForKey key numShards := if numShards = 0 then 0 else (defaultHash key).toNat % numShards

/-- What the sharded layer calls of an engine. -/
structure EngineOps (S O : Type) where
  putKv : S → Bytes → Bytes → O → Except StoreError Unit × S
  getKvZeroCopy : S → Bytes → Except StoreError (Option Bytes)
  deleteKv : S → Bytes → O → Except StoreError Bool × S
  insertVector : S → NodeId → List F32 → O → Except StoreError Unit × S
  insertVectorBatch : S → List (NodeId × List F32) → O → Except StoreError Unit × S
  deleteVector : S → NodeId → O → Except StoreError Bool × S
  getVector : S → NodeId → Except StoreError (Option (List F32))
  listVectorIds : S → Except StoreError (List NodeId)
  /-- `VectorIndex::len`, if there is an index. -/
  vecLen : S → Option Nat

/-- The operations of `Engine`; the outcome of a call is that of the KV write lock. -/
def Engine.ops (A : F32Arith) : EngineOps Engine Bool where
  putKv e key value locked := e.putKv key value locked
  getKvZeroCopy e key := e.getKvZeroCopy key
  deleteKv e key locked := e.deleteKv key locked
  insertVector e id vector _ := e.insertVector A id vector
  insertVectorBatch e items _ := e.insertVectorBatch A items
  deleteVector e id _ := e.deleteVector id
  getVector e id := e.getVector id
  listVectorIds e := e.listVectorIds
  vecLen e := match e.ensureVec with
    | .ok x => some x.len
    | .error _ => none

/-- `ShardedEngine`. -/
structure ShardedEngine (S : Type) where
  shards : List S
  router : ShardRouter

namespace ShardedEngine

variable {S O : Type} (ops : EngineOps S O) (se : ShardedEngine S)

/-- `num_shards`. -/
def numShards : Nat := se.shards.length

/-- `router.shard_for_vector(id, self.shards.len())`. -/
def vectorShard (id : NodeId) : Nat := se.router.shardForVector id se.numShards

/-- `router.shard_for_key(key, self.shards.len())`. -/
def keyShard (key : Bytes) : Nat := se.router.shardForKey key se.numShards

/-- Indexing `self.shards` past its end. -/
def outOfBounds {α : Type} : Except StoreError α := .error (.panicked "index out of bounds")

/-- A call on the shard at `idx`. -/
def onShard {α : Type} (idx : Nat) (call : S → Except StoreError α × S) :
    Except StoreError α × ShardedEngine S :=
  match se.shards[idx]? with
  | none => (outOfBounds, se)
  | some s =>
    let (r, s) := call s
    (r, { se with shards := se.shards.set idx s })

/-- `put_kv`. -/
def putKv (key value : Bytes) (o : O) : Except StoreError Unit × ShardedEngine S :=
  se.onShard (se.keyShard key) fun s => ops.putKv s key value o

/-- `get_kv_zero_copy`. -/
def getKvZeroCopy (key : Bytes) : Except StoreError (Option Bytes) :=
  match se.shards[se.keyShard key]? with
  | none => outOfBounds
  | some s => ops.getKvZeroCopy s key

/-- `delete_kv`. -/
def deleteKv (key : Bytes) (o : O) : Except StoreError Bool × ShardedEngine S :=
  se.onShard (se.keyShard key) fun s => ops.deleteKv s key o

/-- `insert_vector`. -/
def insertVector (id : NodeId) (vector : List F32) (o : O) :
    Except StoreError Unit × ShardedEngine S :=
  se.onShard (se.vectorShard id) fun s => ops.insertVector s id vector o

/-- The first loop of `insert_vector_batch`: push every item to the bucket of its shard. -/
def bucketLoop (route : NodeId → Nat) :
    List (NodeId × List F32) → List (List (NodeId × List F32)) →
      Except StoreError (List (List (NodeId × List F32)))
  | [], buckets => .ok buckets
  | item :: items, buckets =>
    if route item.1 < buckets.length then
      bucketLoop route items (buckets.modify (route item.1) (· ++ [item]))
    else outOfBounds

/-- The second loop: hand every bucket that is not empty to its shard, up to the first one
    that fails.  `o i` is the outcome at shard `i`. -/
def insertLoop (o : Nat → O) :
    Nat → List S → List (List (NodeId × List F32)) → Except StoreError Unit × List S
  | i, s :: shards, bucket :: buckets =>
    if bucket.isEmpty then
      let (r, shards) := insertLoop o (i + 1) shards buckets
      (r, s :: shards)
    else
      match ops.insertVectorBatch s bucket (o i) with
      -- the shards after this one get nothing
      | (.error e, s) => (.error e, s :: shards)
      | (.ok _, s) =>
        let (r, shards) := insertLoop o (i + 1) shards buckets
        (r, s :: shards)
  | _, shards, _ => (.ok (), shards)

/-- `insert_vector_batch`. -/
def insertVectorBatch (items : List (NodeId × List F32)) (o : Nat → O) :
    Except StoreError Unit × ShardedEngine S :=
  match bucketLoop se.vectorShard items (List.replicate se.numShards []) with
  | .error e => (.error e, se)
  | .ok buckets =>
    let (r, shards) := insertLoop ops o 0 se.shards buckets
    (r, { se with shards })

/-- The loop over the joined threads of `search_knn`: a shard that failed or panicked is
    logged and adds nothing. -/
def collectHits : List (Except StoreError (List (NodeId × F32))) → List (NodeId × F32)
  | [] => []
  | .ok part :: parts => part ++ collectHits parts
  | .error _ :: parts => collectHits parts

/-- `a.1.partial_cmp(&b.1).unwrap_or(Equal)` is not `Greater`. -/
def hitLe (a b : NodeId × F32) : Bool := !F32.lt b.2 a.2

/-- `search_knn`, over that of a shard; `o i` is the outcome at shard `i`.  The sort is
    stable; the source leaves its result open if a distance is NaN. -/
def searchKnn (knn : S → List F32 → Nat → O → Except StoreError (List (NodeId × F32)))
    (query : List F32) (topK : Nat) (o : Nat → O) : Except StoreError (List (NodeId × F32)) :=
  match se.shards with
  | [s] => knn s query topK (o 0)
  | shards =>
    let all := collectHits (shards.mapIdx fun i s => knn s query topK (o i))
    .ok ((all.insertionSort fun a b => hitLe a b).take topK)

/-- `delete_vector`. -/
def deleteVector (id : NodeId) (o : O) : Except StoreError Bool × ShardedEngine S :=
  se.onShard (se.vectorShard id) fun s => ops.deleteVector s id o

/-- `get_vector`. -/
def getVector (id : NodeId) : Except StoreError (Option (List F32)) :=
  match se.shards[se.vectorShard id]? with
  | none => outOfBounds
  | some s => ops.getVector s id

/-- `list_vector_ids`: the ids of all shards, one shard after the other. -/
def listVectorIds : Except StoreError (List NodeId) :=
  (se.shards.mapM ops.listVectorIds).map List.flatten

/-- `vector_count`: a shard without an index counts as empty. -/
def vectorCount : Nat := (se.shards.map fun s => (ops.vecLen s).getD 0).sum

end ShardedEngine

end FusionStore
