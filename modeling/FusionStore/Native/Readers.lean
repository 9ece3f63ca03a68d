import FusionStore.Native.StoreSession

/-!
# Zero-copy buffers

`ZeroCopyBuffer` of `mem/mmap.rs` and the reads that hand one out.  A buffer is a range of a
mapping and keeps the mapping alive; it is not a copy, so what it shows is what the segment
file contains at that moment.
-/

namespace FusionStore

/-- `ZeroCopyBuffer`. -/
structure ZeroCopyBuffer where
  handle : MmapHandle
  offset : Nat
  len : Nat

namespace ZeroCopyBuffer

/-- `ZeroCopyBuffer::new`; the end of the range is computed in 64 bits. -/
def new (handle : MmapHandle) (offset len : Nat) : Except StoreError ZeroCopyBuffer :=
  if offset + len > u64Max then
    .error (.corrupt s!"buffer region offset {offset} + {len} overflow usize")
  else if offset + len > handle.len then
    .error (.corrupt
      s!"zero-copy buffer [{offset}..{offset + len}] out of mmap region len {handle.len}")
  else .ok ⟨handle, offset, len⟩

/-- `as_bytes`, with the segment files as they are in `p`. -/
def asBytes (b : ZeroCopyBuffer) (p : SegmentPool) : Bytes :=
  p.dir.mem.volatile.read b.handle.segId b.offset b.len

end ZeroCopyBuffer

/-- `get_kv_zero_copy` with the buffer it returns; `KvSession.get` is what the buffer shows at
    once. -/
def KvSession.getBuffer (σ : KvSession) (key : Bytes) (held : Nat → Bool) :
    Except StoreError (Option ZeroCopyBuffer) × KvSession :=
  match KvStore.heedGet σ.store.env.volatile.db key with
  | .error e => (.error e, σ)
  | .ok none => (.ok none, σ)
  | .ok (some loc) =>
    if σ.poisoned then (.error .lockPoisoned, σ)
    else
      match σ.cache.sealedHandle held σ.store.pool loc.segId with
      | (.error e, cache) => (.error e, { σ with cache })
      | (.ok handle, cache) =>
        ((ZeroCopyBuffer.new handle loc.offset loc.len).map some, { σ with cache })

/-- The buffer under the array `build_primitive_array` makes of a column: its owner is the
    mapping of the segment, and its end is not checked. -/
def ColumnarStore.columnBuffer (s : ColumnarStore) (rows : Nat) (m : ColumnMeta) :
    ZeroCopyBuffer :=
  ⟨⟨m.segId, s.pool.segSize⟩, m.offset, m.dtype.bufferLen rows⟩

/-- The buffers under the columns `get_columnar_zero_copy` selects. -/
def ColumnarStore.tableBuffers (s : ColumnarStore) (tableId : String) (columns : List String) :
    List ZeroCopyBuffer :=
  match s.env.volatile.tableDb.lookup tableId with
  | none => []
  | some tbl =>
    (tbl.columns.filter fun c => columns.isEmpty || c.name ∈ columns).map
      (s.columnBuffer tbl.rowCount)

end FusionStore
