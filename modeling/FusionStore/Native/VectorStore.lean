import FusionStore.Native.Segment
import FusionStore.Native.Snapshot
import FusionStore.Native.WalCodec

/-!
# Vector index

`VectorIndex` of `vector/store.rs`: raw vectors in append-only segments, the
`id → locator` table and the schema in one heed environment, the NSW graph in
memory with its snapshot file.  The read-side handle cache and the locks are left
out; every call is one atomic step here.
-/

namespace FusionStore

open LittleEndian

/-- `VectorSchema`. -/
structure VectorSchema where
  dim : Nat
  metric : MetricKind
  efSearch : Nat
  deriving DecidableEq, Repr

namespace VectorSchema

/-- `VectorSchema::new`. -/
def new (dim : Nat) (metric : MetricKind) : VectorSchema := ⟨dim, metric, defaultEfSearch⟩

/-- `validate_dim`. -/
def validateDim (s : VectorSchema) (vector : List F32) : Except StoreError Unit :=
  if vector.length = s.dim then .ok () else .error (.dimensionMismatch s.dim vector.length)

end VectorSchema

/-- The `id → locator` table. -/
abbrev LocatorDb := AList (fun _ : NodeId => ValueLocator)

/-- `Iterator` over a heed table keyed by `id.to_le_bytes()`: byte order of the keys. -/
def heedIter (db : LocatorDb) : List (NodeId × ValueLocator) :=
  (db.entries.map fun e => (e.1, e.2)).insertionSort fun a b =>
    ofLE (toLE 8 a.1.toNat).reverse ≤ ofLE (toLE 8 b.1.toNat).reverse

/-- The order in which a `HashMap` enumerates its entries. -/
structure MapOrder where
  run : List (NodeId × List F32) → List (NodeId × List F32)
  perm : ∀ xs, (run xs).Perm xs

/-- The order that lists the entries as they were collected. -/
def MapOrder.id : MapOrder := ⟨fun xs => xs, fun _ => .rfl⟩

/-- The heed environment `vec_meta`. -/
structure VecEnv where
  schema : Option VectorSchema
  locatorDb : LocatorDb

/-- The files of the vector directory; `vecMeta` is `none` until `vec_meta` exists. -/
structure VecDir where
  vecMeta : Option (Stored VecEnv)
  segs : SegDir
  snapshot : Option Snapshot

/-- A vector directory without files. -/
def VecDir.empty : VecDir := ⟨none, .empty, none⟩

/-- What a power loss leaves of the vector directory. -/
def VecDir.powerLoss (d : VecDir) : VecDir :=
  { d with vecMeta := d.vecMeta.map Stored.powerLoss, segs := d.segs.powerLoss }

/-- `DEFAULT_VEC_SEGMENT_SIZE` (128 MB). -/
def defaultVecSegmentSize : Nat := 128 * 1024 * 1024

/-- `VecSegmentPool`. -/
structure VecSegmentPool where
  dir : SegDir
  segSize : Nat
  dim : Nat
  activeId : Nat
  activeCursor : Nat

namespace VecSegmentPool

/-- `VecSegmentPool::open`: always a new segment. -/
def «open» (d : SegDir) (segSize dim : Nat) : VecSegmentPool where
  dir := d.createSeg d.nextSegId
  segSize := if segSize = 0 then defaultVecSegmentSize else segSize
  dim := dim
  activeId := d.nextSegId
  activeCursor := 0

/-- `byte_len`. -/
def byteLen (p : VecSegmentPool) : Nat := p.dim * 4

/-- `remaining`. -/
def remaining (p : VecSegmentPool) : Nat := p.segSize - p.activeCursor

/-- The segments' part of `disk_bytes`: each file has its full size. -/
def diskBytes (p : VecSegmentPool) : Nat := p.dir.files.length * p.segSize

/-- `seal_and_rotate`. -/
def sealAndRotate (p : VecSegmentPool) : VecSegmentPool :=
  { p with
    dir := (p.dir.flushSeg p.activeId).createSeg (p.activeId + 1)
    activeId := p.activeId + 1
    activeCursor := 0 }

/-- `VecSegmentPool::append`; offset and length are cut to 32 bits, and the slot is as
    long as the pool's vectors are, not as `vector` is. -/
def append (p : VecSegmentPool) (vector : List F32) :
    Except StoreError ValueLocator × VecSegmentPool :=
  -- a vector never crosses segments
  let p := if p.byteLen > p.remaining then p.sealAndRotate else p
  let stop := p.activeCursor + p.byteLen
  if stop > p.segSize then (.error (.panicked "range end index out of range for slice"), p)
  else if (encodeF32s vector).length ≠ p.byteLen then
    (.error (.panicked
      "copy_from_slice: source slice length does not match destination slice length"), p)
  else
    -- `as u32`
    (.ok ⟨p.activeId, p.activeCursor % 2 ^ 32, p.byteLen % 2 ^ 32⟩,
      { p with
        dir := p.dir.store p.activeId p.activeCursor (encodeF32s vector)
        activeCursor := stop })

/-- `all_seg_ids`: the segments in the handle cache and the active one. -/
def allSegIds (p : VecSegmentPool) (cached : List Nat) : List Nat := cached ++ [p.activeId]

/-- `fs::remove_file` of one segment; its mappings in this process stay as they are. -/
def removeFile (p : VecSegmentPool) (segId : Nat) : VecSegmentPool :=
  { p with dir := { p.dir with files := p.dir.files.filter fun f => f ≠ segId } }

/-- `flush`: the active segment only. -/
def flush (p : VecSegmentPool) : VecSegmentPool := { p with dir := p.dir.flushSeg p.activeId }

/-- `read_vec`. -/
def readVec (p : VecSegmentPool) (loc : ValueLocator) : Except StoreError (List F32) :=
  if loc.segId = p.activeId then
    if loc.offset + p.byteLen > p.segSize then
      .error (.panicked "range end index out of range for slice")
    else .ok (decodeF32s (p.dir.mem.volatile.read loc.segId loc.offset p.byteLen))
  else if loc.segId ∉ p.dir.files then
    .error (.corrupt s!"sealed vec segment {loc.segId} missing")
  -- of a sealed segment the end of the slice is computed in `u32`
  else if loc.offset + loc.len > u32Max then .error (.panicked "attempt to add with overflow")
  else if loc.offset + loc.len > p.segSize then
    .error (.panicked "range end index out of range for slice")
  else .ok (decodeF32s (p.dir.mem.volatile.read loc.segId loc.offset loc.len))

/-- `vec_slice` with the bounds check of `ZeroCopyVec::new`. -/
def vecSlice (p : VecSegmentPool) (loc : ValueLocator) : Except StoreError (List F32) :=
  let byteLen := loc.len / 4 * 4
  if loc.segId ≠ p.activeId ∧ loc.segId ∉ p.dir.files then
    .error (.corrupt s!"sealed vec segment {loc.segId} missing")
  else if loc.offset + byteLen > p.segSize then
    .error (.corrupt s!"zero-copy vec [{loc.offset}..{loc.offset + byteLen}] out of mmap region len {p.segSize}")
  else .ok (decodeF32s (p.dir.mem.volatile.read loc.segId loc.offset byteLen))

end VecSegmentPool

/-- `VectorIndex`, with the snapshot file beside its segments. -/
structure VectorIndex where
  schema : VectorSchema
  env : Stored VecEnv
  pool : VecSegmentPool
  graph : NswGraph
  locators : LocatorDb
  snapshot : Option Snapshot

namespace VectorIndex

/-- The files an open index leaves when its process dies. -/
def dir (x : VectorIndex) : VecDir := ⟨some x.env, x.pool.dir, x.snapshot⟩

variable (A : F32Arith)

/-- The graph `rebuild_graph_from_data` and `compact` build from the vectors read back. -/
def buildGraph (metric : MetricKind) (order : MapOrder) (live : List (NodeId × List F32)) :
    Except StoreError NswGraph :=
  (order.run live).foldlM (fun g e => g.insert e.1 fun nid =>
    match live.lookup nid with
    | some v => Simd.distance A metric e.2 v
    | none => F32.infinity) NswGraph.new

/-- The scan over the locator table: the vectors of all ids that are not in `deleted`. -/
def readLive (x : VectorIndex) (deleted : List NodeId) :
    Except StoreError (List (NodeId × List F32)) :=
  ((heedIter x.env.volatile.locatorDb).filter fun e => e.1 ∉ deleted).mapM fun e => do
    return (e.1, ← x.pool.readVec e.2)

/-- `rebuild_graph_from_data`. -/
def rebuildGraphFromData (x : VectorIndex) (order : MapOrder) :
    Except StoreError VectorIndex := do
  let live ← x.readLive []
  return { x with graph := ← buildGraph A x.schema.metric order live }

/-- `VectorIndex::open`: the snapshot must load, and the graph is never rebuilt.
    The second component is what the call leaves on disk. -/
def «open» (d : VecDir) (schema : VectorSchema) (segSize : Nat) :
    Except StoreError VectorIndex × VecDir :=
  let old := d.vecMeta.getD (.synced ⟨none, ∅⟩)
  let env := old.write { old.volatile with schema := some schema }
  let pool := VecSegmentPool.open d.segs segSize schema.dim
  let left : VecDir := ⟨some env, pool.dir, d.snapshot⟩
  match Snapshot.load d.snapshot with
  | .error e => (.error e, left)
  | .ok g =>
    (.ok { schema, env, pool, graph := g.getD NswGraph.new,
           locators := env.volatile.locatorDb, snapshot := d.snapshot }, left)

/-- The graph `reopen` starts from: a snapshot that does not load is dropped. -/
def snapshotOrNew (snapshot : Option Snapshot) : NswGraph :=
  match Snapshot.load snapshot with
  | .ok (some g) => g
  | .ok none => NswGraph.new
  | .error _ => NswGraph.new

/-- `VectorIndex::reopen`: the graph is rebuilt when it has fewer live nodes than
    there are locators. -/
def reopen (d : VecDir) (segSize : Nat) (order : MapOrder) :
    Except StoreError VectorIndex × VecDir :=
  let env := d.vecMeta.getD (.synced ⟨none, ∅⟩)
  match env.volatile.schema with
  | none => (.error (.corrupt "vector schema not persisted"), { d with vecMeta := some env })
  | some schema =>
    let pool := VecSegmentPool.open d.segs segSize schema.dim
    let graph := snapshotOrNew d.snapshot
    let x : VectorIndex :=
      { schema, env, pool, graph, locators := env.volatile.locatorDb, snapshot := d.snapshot }
    -- the snapshot is older than the table
    if graph.len < x.locators.entries.length then (x.rebuildGraphFromData A order, x.dir)
    else (.ok x, x.dir)

/-- `VectorIndex::vec_slice`: the cached locator, else the one in heed. -/
def vecSlice (x : VectorIndex) (id : NodeId) : Except StoreError (List F32) :=
  match x.locators.lookup id with
  | some loc => x.pool.vecSlice loc
  | none =>
    match x.env.volatile.locatorDb.lookup id with
    | some loc => x.pool.vecSlice loc
    | none => .error .notFound

/-- The distance closure of `insert`, `insert_batch` and `search_knn`: a vector that
    cannot be read is infinitely far. -/
def distTo (x : VectorIndex) (query : List F32) (id : NodeId) : F32 :=
  match x.vecSlice id with
  | .ok v => Simd.distance A x.schema.metric query v
  | .error _ => F32.infinity

/-- `put_locator` inside a write transaction that will commit: table and cache. -/
def putLocator (x : VectorIndex) (id : NodeId) (loc : ValueLocator) : VectorIndex :=
  { x with
    env := x.env.write
      { x.env.volatile with locatorDb := x.env.volatile.locatorDb.insert id loc }
    locators := x.locators.insert id loc }

/-- `VectorIndex::insert`: segment, locator, then the graph. -/
def insert (x : VectorIndex) (id : NodeId) (vector : List F32) :
    Except StoreError Unit × VectorIndex :=
  match x.schema.validateDim vector with
  | .error e => (.error e, x)
  | .ok _ =>
    if (x.env.volatile.locatorDb.lookup id).isSome then (.error (.duplicateVector id), x)
    else
      match x.pool.append vector with
      | (.error e, pool) => (.error e, { x with pool })
      | (.ok loc, pool) =>
        -- the locator is committed before the graph is asked
        let x := { x with pool }.putLocator id loc
        match x.graph.insert id (x.distTo A vector) with
        | .error e => (.error e, x)
        | .ok graph => (.ok (), { x with graph })

/-- The append loop of `insert_batch`, inside its write transaction.  An error aborts
    the transaction: the table keeps its old contents, the cache does not. -/
def appendItems (x : VectorIndex) :
    List (NodeId × List F32) → Except StoreError Unit × VectorIndex
  | [] => (.ok (), x)
  | (id, vector) :: items =>
    match x.pool.append vector with
    | (.error e, pool) => (.error e, { x with pool })
    | (.ok loc, pool) => appendItems ({ x with pool }.putLocator id loc) items

/-- The graph loop of `insert_batch`; it stops at the first id that is in the graph. -/
def linkItems (x : VectorIndex) :
    List (NodeId × List F32) → Except StoreError Unit × VectorIndex
  | [] => (.ok (), x)
  | (id, vector) :: items =>
    match x.graph.insert id (x.distTo A vector) with
    | .error e => (.error e, x)
    | .ok graph => linkItems { x with graph } items

/-- `VectorIndex::insert_batch`: all dimensions, then all ids against the table, then
    the appends with one commit, then the graph. -/
def insertBatch (x : VectorIndex) (items : List (NodeId × List F32)) :
    Except StoreError Unit × VectorIndex :=
  match items.findSome? fun e => match x.schema.validateDim e.2 with
      | .error err => some err
      | .ok _ => none with
  | some err => (.error err, x)
  | none =>
    match items.find? fun e => (x.env.volatile.locatorDb.lookup e.1).isSome with
    | some e => (.error (.duplicateVector e.1), x)
    | none =>
      match x.appendItems items with
      -- the write transaction is dropped, what was appended stays
      | (.error e, y) => (.error e, { y with env := x.env })
      | (.ok _, y) => y.linkItems A items

/-- `VectorIndex::search_knn`; a failed read of any visited vector is reported. -/
def searchKnn (x : VectorIndex) (query : List F32) (topK : Nat) (expired : Nat → Bool) :
    Except StoreError (List (NodeId × F32)) := do
  x.schema.validateDim query
  let dist := x.distTo A query
  let visited := match x.graph.entryPoint with
    | some entry =>
      (x.graph.searchState dist (max x.schema.efSearch topK) entry expired).visited
    | none => []
  if visited.any fun id => (x.vecSlice id).toOption.isNone then
    .error (.corrupt "vector segment read failed during knn — result unreliable")
  else .ok (x.graph.searchKnn dist topK x.schema.efSearch expired)

/-- `VectorIndex::delete`: only the flag in the graph. -/
def delete (x : VectorIndex) (id : NodeId) : Bool × VectorIndex :=
  let (removed, graph) := x.graph.delete id
  (removed, { x with graph })

/-- `VectorIndex::get_vector`. -/
def getVector (x : VectorIndex) (id : NodeId) : Except StoreError (Option (List F32)) :=
  if x.graph.isDeleted id then .ok none
  else (x.vecSlice id).map some

/-- `VectorIndex::len`. -/
def len (x : VectorIndex) : Nat := x.graph.len

/-- `list_vector_ids`. -/
def listVectorIds (x : VectorIndex) : List NodeId := x.graph.allIds

/-- `VectorIndex::checkpoint`: the graph snapshot and the active segment; the heed
    environment is not synced. -/
def checkpoint (x : VectorIndex) : VectorIndex :=
  { x with snapshot := some (Snapshot.serialize x.graph), pool := x.pool.flush }

/-- `disk_bytes`: all `.mmap` files of the data directory, which are the segments and the graph
    snapshot. -/
def diskBytes (x : VectorIndex) : Nat := x.pool.diskBytes + x.snapshot.elim 0 Snapshot.fileLen

/-- `ensure_disk_available`; `avail` is the free space, `none` if it cannot be read. -/
def ensureDiskAvailable (avail : Option Nat) (needed : Nat) : Except StoreError Unit :=
  match avail with
  | none => .ok ()
  | some a =>
    if a < needed then
      .error (.io s!"compact needs ~{needed}B disk for COW rewrite but only {a}B available")
    else .ok ()

/-- The append loop of `compact`: the new locators, in order. -/
def appendAll (p : VecSegmentPool) :
    List (NodeId × List F32) → Except StoreError (List (NodeId × ValueLocator)) × VecSegmentPool
  | [] => (.ok [], p)
  | (id, vector) :: live =>
    match p.append vector with
    | (.error e, p) => (.error e, p)
    | (.ok loc, p) =>
      match appendAll p live with
      | (.error e, p) => (.error e, p)
      | (.ok locs, p) => (.ok ((id, loc) :: locs), p)

/-- The locator table `compact` switches to. -/
def newLocatorDb (locs : List (NodeId × ValueLocator)) : LocatorDb :=
  locs.foldl (fun db e => db.insert e.1 e.2) ∅

/-- `VectorIndex::compact`: the number of live vectors. -/
def compact (x : VectorIndex) (order : MapOrder) (avail : Option Nat) :
    Except StoreError Nat × VectorIndex :=
  match ensureDiskAvailable avail x.diskBytes with
  | .error e => (.error e, x)
  | .ok _ =>
    -- step 2: scan what is live
    match x.readLive x.graph.allDeletedIds with
    | .error e => (.error e, x)
    | .ok live =>
      -- step 3: append it behind what is there
      match appendAll x.pool live with
      | (.error e, pool) => (.error e, { x with pool })
      | (.ok locs, pool) =>
        let pool := pool.flush
        -- step 4: a graph over the copies
        match buildGraph A x.schema.metric order live with
        | .error e => (.error e, { x with pool })
        | .ok graph =>
          -- steps 5 and 6: one commit, then the tables in memory
          (.ok live.length,
            { x with
              pool := pool
              env := x.env.write { x.env.volatile with locatorDb := newLocatorDb locs }
              locators := newLocatorDb locs
              graph := graph
              snapshot := some (Snapshot.serialize graph) })

/-- `reclaim_segments`; `safe` is the outcome of `reclaim_safe` for each segment. -/
def reclaimSegments (x : VectorIndex) (safe : Nat → Bool) : List Nat → Nat × VectorIndex
  | [] => (0, x)
  | segId :: segIds =>
    if safe segId then
      let (n, y) := reclaimSegments { x with pool := x.pool.removeFile segId } safe segIds
      (if segId ∈ x.pool.dir.files then n + 1 else n, y)
    else reclaimSegments x safe segIds

end VectorIndex

end FusionStore
