import FusionStore.Native.VectorStore

/-!
# Compaction step by step

`VectorIndex.compact` runs as one step.  Here are the steps inside it: the points
between its persistent writes, where a kill leaves a directory of its own, and its
lock-protected sections, between which other threads get at the index.
-/

namespace FusionStore

/-- How far the persistent steps of `compact` have got. -/
inductive CompactPoint where
  /-- The first `k` live vectors are in their new place. -/
  | appended (k : Nat)
  /-- The heed transaction has switched the locators. -/
  | swapped
  /-- The new snapshot has replaced the old one. -/
  | persisted
  deriving DecidableEq, Repr

namespace VectorIndex

variable (A : F32Arith)

/-- The directory a kill at `point` leaves; `none` if the call does not get there. -/
def compactDir (x : VectorIndex) (order : MapOrder) (avail : Option Nat) (point : CompactPoint) :
    Option VecDir :=
  match ensureDiskAvailable avail x.diskBytes with
  | .error _ => none
  | .ok _ =>
    match x.readLive x.graph.allDeletedIds with
    | .error _ => none
    | .ok live =>
      match point with
      | .appended k =>
        if k ≤ live.length then
          some ⟨some x.env, (appendAll x.pool (live.take k)).2.dir, x.snapshot⟩
        else none
      | .swapped =>
        match appendAll x.pool live with
        | (.error _, _) => none
        | (.ok locs, pool) =>
          match buildGraph A x.schema.metric order live with
          | .error _ => none
          | .ok _ =>
            let env := x.env.write { x.env.volatile with locatorDb := newLocatorDb locs }
            some ⟨some env, pool.flush.dir, x.snapshot⟩
      | .persisted =>
        match x.compact A order avail with
        | (.error _, _) => none
        | (.ok _, y) => some y.dir

end VectorIndex

/-- What `compact` holds when it has left one of its lock-protected sections. -/
inductive CompactPhase where
  | idle
  | checked
  | collected (deleted : List NodeId)
  | scanned (live : List (NodeId × List F32))
  | appended (live : List (NodeId × List F32)) (locs : List (NodeId × ValueLocator))
  | rebuilt (liveCount : Nat) (locs : List (NodeId × ValueLocator)) (graph : NswGraph)
  | swapped (liveCount : Nat) (locs : List (NodeId × ValueLocator)) (graph : NswGraph)
  | replaced (liveCount : Nat) (locs : List (NodeId × ValueLocator))
  | cached (liveCount : Nat)
  | returned (r : Except StoreError Nat)

namespace VectorIndex

variable (A : F32Arith)

/-- The next section of `compact`. -/
def compactSection (x : VectorIndex) (order : MapOrder) (avail : Option Nat) :
    CompactPhase → VectorIndex × CompactPhase
  | .idle =>
    match ensureDiskAvailable avail x.diskBytes with
    | .error e => (x, .returned (.error e))
    | .ok _ => (x, .checked)
  | .checked => (x, .collected x.graph.allDeletedIds)
  | .collected deleted =>
    match x.readLive deleted with
    | .error e => (x, .returned (.error e))
    | .ok live => (x, .scanned live)
  | .scanned live =>
    match appendAll x.pool live with
    | (.error e, pool) => ({ x with pool }, .returned (.error e))
    | (.ok locs, pool) => ({ x with pool := pool.flush }, .appended live locs)
  | .appended live locs =>
    -- the only section without a lock
    match buildGraph A x.schema.metric order live with
    | .error e => (x, .returned (.error e))
    | .ok graph => (x, .rebuilt live.length locs graph)
  | .rebuilt liveCount locs graph =>
    -- `put_locator` fills the cache as well
    ({ x with
        env := x.env.write { x.env.volatile with locatorDb := newLocatorDb locs }
        locators := locs.foldl (fun db e => db.insert e.1 e.2) x.locators },
      .swapped liveCount locs graph)
  | .swapped liveCount locs graph => ({ x with graph }, .replaced liveCount locs)
  | .replaced liveCount locs => ({ x with locators := newLocatorDb locs }, .cached liveCount)
  | .cached liveCount =>
    ({ x with snapshot := some (Snapshot.serialize x.graph) }, .returned (.ok liveCount))
  | .returned r => (x, .returned r)

end VectorIndex

/-- What the threads on one index do: the calls of the others, and the next section of
    the compaction. -/
inductive RaceEvent where
  | insert (id : NodeId) (vector : List F32)
  | delete (id : NodeId)
  | compact

/-- An index that one thread compacts, with the inserts and deletes that were
    acknowledged on it, oldest first. -/
structure CompactRace where
  index : VectorIndex
  phase : CompactPhase
  acked : List WalOp

/-- One atomic step.  A delete counts when it returns `true`. -/
def CompactRace.step (A : F32Arith) (order : MapOrder) (avail : Option Nat) (σ : CompactRace) :
    RaceEvent → CompactRace
  | .insert id vector =>
    match σ.index.insert A id vector with
    | (.ok _, index) => { σ with index, acked := σ.acked ++ [.insertVector id vector] }
    | (.error _, index) => { σ with index }
  | .delete id =>
    match σ.index.delete id with
    | (true, index) => { σ with index, acked := σ.acked ++ [.deleteVector id] }
    | (false, index) => { σ with index }
  | .compact =>
    let (index, phase) := σ.index.compactSection A order avail σ.phase
    { σ with index, phase }

end FusionStore
