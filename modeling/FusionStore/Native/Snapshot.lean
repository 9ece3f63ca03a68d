import FusionStore.Native.Nsw

/-!
# Graph snapshots

`vector/snapshot.rs` above its byte layout: a `Snapshot` is what the CSR file
holds once its header, offsets and checksum have been decoded.  The file is
replaced by tmp + fsync + rename, so it is always a complete one.
-/

namespace FusionStore

/-- The contents of `graph_snapshot.mmap`: id, neighbours and deleted flag of each
    node, and the entry point (`0` for none). -/
structure Snapshot where
  nodes : List (NodeId × List NodeId × Bool)
  entryPoint : NodeId
  deriving DecidableEq, Repr

namespace Snapshot

/-- `snapshot::serialize`. -/
def serialize (g : NswGraph) : Snapshot where
  nodes := g.nodes.entries.map fun n => (n.1, n.2.neighbors, n.2.deleted)
  entryPoint := g.entryPoint.getD 0

/-- The length of the file: header, ids, offsets, edges and flags. -/
def fileLen (s : Snapshot) : Nat :=
  28 + s.nodes.length * 8 + (s.nodes.length + 1) * 4 +
    (s.nodes.map fun n => n.2.1.length).sum * 8 + s.nodes.length

/-- The graph the restore loop of `snapshot::load` builds. -/
def restore (s : Snapshot) : NswGraph :=
  (s.nodes.foldl (fun g n => g.restoreNode n.1 n.2.1 n.2.2) NswGraph.new).restoreEntryPoint
    s.entryPoint

/-- `snapshot::load`: `none` without a file. -/
def load : Option Snapshot → Except StoreError (Option NswGraph)
  | none => .ok none
  | some s =>
    if s.nodes.isEmpty then .ok (some NswGraph.new)
    else do
      s.restore.validateEdges
      .ok (some s.restore)

end Snapshot

end FusionStore
