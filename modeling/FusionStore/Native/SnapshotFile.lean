import FusionStore.ForStd.LittleEndian
import FusionStore.Native.Snapshot

/-!
# The snapshot file

The CSR bytes of `vector/snapshot.rs`: a header of 28 bytes and four regions.

- `[0, 4)` magic, `[4, 8)` node count, `[8, 12)` edge count, `[12, 20)` entry point,
  `[20, 24)` CRC-32 of the regions, `[24, 28)` zero
- ids (`u64`), offsets (`u32`, one more than nodes), edges (`u64`), deleted flags (`u8`)

The encoder writes into a zeroed buffer at hand-computed offsets, the decoder reads at
offsets it computes from the header.  An access outside the buffer and an overflow of a
64-bit `usize` panic (`StoreError.panicked`); `u32` sums wrap.  Logging is left out.
-/

namespace FusionStore

namespace SnapshotFile

open LittleEndian

/-- `MAGIC`. -/
def magic : Nat := 0xF5C504

/-! ### CRC-32 -/

/-- One round of the inner loop of `crc32_update`. -/
def crc32Round (crc : UInt32) : UInt32 :=
  if crc &&& 1 ≠ 0 then (crc >>> 1) ^^^ 0xEDB88320 else crc >>> 1

/-- One byte of `crc32_update`. -/
def crc32Byte (crc : UInt32) (b : UInt8) : UInt32 := crc32Round^[8] (crc ^^^ b.toUInt32)

/-- `crc32_update`. -/
def crc32Update (crc : UInt32) (data : Bytes) : UInt32 := data.foldl crc32Byte crc

/-- `crc32_finalize`. -/
def crc32Finalize (crc : UInt32) : UInt32 := ~~~crc

/-- The checksum of the regions. -/
def bodyCrc (body : Bytes) : UInt32 := crc32Finalize (crc32Update 0xFFFFFFFF body)

/-! ### The encoder -/

/-- `buf[off..off + bytes.len()].copy_from_slice(bytes)`. -/
def copyAt (buf : Bytes) (off : Nat) (bytes : Bytes) : Except StoreError Bytes :=
  if off + bytes.length ≤ buf.length then
    .ok (buf.take off ++ bytes ++ buf.drop (off + bytes.length))
  else .error (.panicked "range end index out of range for slice")

/-- The buffer and the cursors of `serialize`. -/
structure Csr where
  buf : Bytes
  idsCursor : Nat
  offCursor : Nat
  edgeCursor : Nat
  acc : UInt32
  index : Nat

/-- The inner loop: the neighbours of one node. -/
def writeEdges (c : Csr) (neighbors : List NodeId) : Except StoreError Csr :=
  neighbors.foldlM (fun c nb => do
    let buf ← copyAt c.buf c.edgeCursor (toLE 8 nb.toNat)
    return { c with buf, edgeCursor := c.edgeCursor + 8 }) c

/-- One turn of the node loop. -/
def writeNode (flagsOff : Nat) (c : Csr) (n : NodeId × List NodeId × Bool) :
    Except StoreError Csr := do
  let buf ← copyAt c.buf c.idsCursor (toLE 8 n.1.toNat)
  let acc := c.acc + UInt32.ofNat n.2.1.length
  let buf ← copyAt buf c.offCursor (toLE 4 acc.toNat)
  let c ← writeEdges
    { c with buf, acc, idsCursor := c.idsCursor + 8, offCursor := c.offCursor + 4 } n.2.1
  let buf ← copyAt c.buf (flagsOff + c.index) [if n.2.2 then 1 else 0]
  return { c with buf, index := c.index + 1 }

/-- The sum of `neighbors.len() as u32`. -/
def edgeCount (nodes : List (NodeId × List NodeId × Bool)) : UInt32 :=
  nodes.foldl (fun sum n => sum + UInt32.ofNat n.2.1.length) 0

/-- `snapshot::serialize`, from what `snapshot_nodes_with_deleted` and
    `snapshot_entry_point` return. -/
def encode (s : Snapshot) : Except StoreError Bytes := do
  let nodeCount := (UInt32.ofNat s.nodes.length).toNat
  let edgeCount := (edgeCount s.nodes).toNat
  let idsOff := 28
  let offsetsOff := idsOff + nodeCount * 8
  let edgesOff := offsetsOff + (nodeCount + 1) * 4
  let flagsOff := edgesOff + edgeCount * 8
  let total := flagsOff + nodeCount
  let buf := List.replicate total 0
  -- the checksum comes last
  let buf ← copyAt buf 0 (toLE 4 magic)
  let buf ← copyAt buf 4 (toLE 4 nodeCount)
  let buf ← copyAt buf 8 (toLE 4 edgeCount)
  let buf ← copyAt buf 12 (toLE 8 s.entryPoint.toNat)
  let buf ← copyAt buf offsetsOff (toLE 4 0)
  let c ← s.nodes.foldlM (writeNode flagsOff) ⟨buf, idsOff, offsetsOff + 4, edgesOff, 0, 0⟩
  let body := (c.buf.take total).drop idsOff
  copyAt c.buf 20 (toLE 4 (bodyCrc body).toNat)

/-! ### The decoder -/

/-- `from_le_bytes` of the `n` bytes at `off`. -/
def readLE (bytes : Bytes) (off n : Nat) : Except StoreError Nat :=
  if off + n ≤ bytes.length then .ok (ofLE ((bytes.drop off).take n))
  else .error (.panicked "index out of bounds")

/-- `usize` multiplication. -/
def mulUsize (a b : Nat) : Except StoreError Nat :=
  if a * b ≤ u64Max then .ok (a * b)
  else .error (.panicked "attempt to multiply with overflow")

/-- `checked_add`, with the error for an overflow. -/
def checkedAdd (a b : Nat) (msg : String) : Except StoreError Nat :=
  if a + b ≤ u64Max then .ok (a + b) else .error (.corrupt msg)

/-- A number as `{:#x}` prints it. -/
def hex (n : Nat) : String := "0x" ++ String.ofList (Nat.toDigits 16 n)

/-- The header fields and the offsets `load` computes from them. -/
structure Layout where
  nodeCount : Nat
  edgeCount : Nat
  entryPoint : NodeId
  idsOff : Nat
  offsetsOff : Nat
  edgesOff : Nat
  flagsOff : Nat
  total : Nat

/-- The first half of `load`: the header, the size of the file and the checksum. -/
def readHeader (bytes : Bytes) : Except StoreError Layout := do
  if bytes.length < 28 then
    throw (.corrupt s!"graph snapshot too small: {bytes.length} < 28")
  let mag ← readLE bytes 0 4
  if mag ≠ magic then
    throw (.corrupt s!"graph snapshot magic mismatch: {hex mag}")
  let nodeCount ← readLE bytes 4 4
  let edgeCount ← readLE bytes 8 4
  let entryPoint ← readLE bytes 12 8
  let storedCrc ← readLE bytes 20 4
  -- the regions follow one another
  let idsOff := 28
  let offsetsOff ← checkedAdd idsOff (← mulUsize nodeCount 8) "node_count overflow"
  let edgesOff ← checkedAdd offsetsOff (← mulUsize (nodeCount + 1) 4) "offsets region overflow"
  let flagsOff ← checkedAdd edgesOff (← mulUsize edgeCount 8) "edges region overflow"
  let total ← checkedAdd flagsOff nodeCount "flags region overflow"
  if bytes.length < total then
    throw (.corrupt s!"graph snapshot truncated: file {bytes.length} < expected {total}")
  -- only the body is covered, not the header
  let calcCrc := (bodyCrc ((bytes.take total).drop idsOff)).toNat
  if calcCrc ≠ storedCrc then
    throw (.corrupt s!"graph snapshot crc mismatch: stored {hex storedCrc} != calc {hex calcCrc} (corrupt/half-written)")
  return { nodeCount, edgeCount, entryPoint := UInt64.ofNat entryPoint, idsOff, offsetsOff,
           edgesOff, flagsOff, total }

/-- Node `i`: its id, its neighbours and its deleted flag. -/
def readNode (bytes : Bytes) (l : Layout) (i : Nat) :
    Except StoreError (NodeId × List NodeId × Bool) := do
  let id := UInt64.ofNat (← readLE bytes (l.idsOff + i * 8) 8)
  let lo ← readLE bytes (l.offsetsOff + i * 4) 4
  let hi ← readLE bytes (l.offsetsOff + (i + 1) * 4) 4
  if hi < lo ∨ l.edgeCount < hi then
    throw (.corrupt s!"node {id} edge range [{lo}, {hi}) invalid (edge_count={l.edgeCount})")
  let neighbors ← (List.range' lo (hi - lo)).mapM fun j => do
    return UInt64.ofNat (← readLE bytes (l.edgesOff + j * 8) 8)
  let deleted ← readLE bytes (l.flagsOff + i) 1
  return (id, neighbors, deleted ≠ 0)

/-- The restore loop. -/
def readGraph (bytes : Bytes) (l : Layout) : Except StoreError NswGraph :=
  (List.range l.nodeCount).foldlM (fun g i => do
    let n ← readNode bytes l i
    return g.restoreNode n.1 n.2.1 n.2.2) NswGraph.new

/-- `snapshot::load`, from the contents of the file if there is one. -/
def load : Option Bytes → Except StoreError (Option NswGraph)
  | none => .ok none
  | some bytes => do
    let l ← readHeader bytes
    if l.nodeCount = 0 then return some NswGraph.new
    let graph ← readGraph bytes l
    let graph := graph.restoreEntryPoint l.entryPoint
    graph.validateEdges
    return some graph

end SnapshotFile

end FusionStore
