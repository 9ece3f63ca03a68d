import FusionStore.ForStd.SegMem
import FusionStore.ForStd.Stored
import FusionStore.Native.Error

/-!
# Append-only payload segments

`SegmentPool` of `mem/segment.rs`.  A segment file is a mapped region of
`seg_size` bytes; the mappings are shared, so a byte written through the active
mapping is in the file at once and survives the death of the process, while
`flush` makes it durable.  The read-only handle cache is left out: all mappings of
a file show the same bytes.
-/

namespace FusionStore

/-- `ValueLocator`. -/
structure ValueLocator where
  segId : Nat
  offset : Nat
  len : Nat
  deriving DecidableEq, Repr

/-- `DEFAULT_SEGMENT_SIZE` (64 MB). -/
def defaultSegmentSize : Nat := 64 * 1024 * 1024

/-- One data directory: the segment files that exist, their bytes, and the
    `active.cursor` sidecar `(seg_id, cursor)`, which is replaced by
    tmp + fsync + rename. -/
structure SegDir where
  files : List Nat
  mem : Stored SegMem
  cursor : Option (Nat × Nat)

namespace SegDir

/-- A directory without files. -/
def empty : SegDir := ⟨[], .synced fun _ _ => 0, none⟩

/-- `open_or_create_segment`: a missing file is created with zeros. -/
def createSeg (d : SegDir) (id : Nat) : SegDir :=
  if id ∈ d.files then d
  else { d with
    files := id :: d.files
    mem := ⟨d.mem.volatile.clear id, d.mem.durable.clear id⟩ }

/-- `next_seg_id`: one more than the largest segment number in the directory. -/
def nextSegId (d : SegDir) : Nat :=
  match d.files.max? with
  | some m => m + 1
  | none => 0

/-- `MmapMut::flush` of one segment. -/
def flushSeg (d : SegDir) (id : Nat) : SegDir :=
  { d with mem := { d.mem with durable := d.mem.durable.copySeg d.mem.volatile id } }

/-- `write_active_cursor`. -/
def writeCursor (d : SegDir) (segId cursor : Nat) : SegDir :=
  { d with cursor := some (segId, cursor) }

/-- A store of `bs` through the active mapping. -/
def store (d : SegDir) (segId off : Nat) (bs : Bytes) : SegDir :=
  { d with mem := d.mem.write (d.mem.volatile.write segId off bs) }

/-- What a power loss leaves of the directory. -/
def powerLoss (d : SegDir) : SegDir := { d with mem := d.mem.powerLoss }

end SegDir

/-- `SegmentPool`. -/
structure SegmentPool where
  dir : SegDir
  segSize : Nat
  activeId : Nat
  activeCursor : Nat

namespace SegmentPool

/-- `SegmentPool::open`: resume at the recorded cursor, or start a new segment. -/
def «open» (d : SegDir) (segSize : Nat) : SegmentPool :=
  let segSize := if segSize = 0 then defaultSegmentSize else segSize
  let (activeId, cursor) :=
    match d.cursor with
    | some (sid, c) => if sid ∈ d.files ∧ c ≤ segSize then (sid, c) else (d.nextSegId, 0)
    | none => (d.nextSegId, 0)
  { dir := d.createSeg activeId, segSize, activeId, activeCursor := cursor }

/-- `SegmentPool::remaining`. -/
def remaining (p : SegmentPool) : Nat := p.segSize - p.activeCursor

/-- `SegmentPool::seal_and_rotate`: flush, open the next segment, record its cursor. -/
def sealAndRotate (p : SegmentPool) : SegmentPool :=
  let newId := p.activeId + 1
  { p with
    dir := (((p.dir.flushSeg p.activeId).createSeg newId).writeCursor newId 0)
    activeId := newId
    activeCursor := 0 }

/-- `SegmentPool::append`. -/
def append (p : SegmentPool) (payload : Bytes) :
    Except StoreError ValueLocator × SegmentPool :=
  if payload.length > u32Max then (.error (.valueTooLarge payload.length), p)
  else
    let p := if payload.length > p.remaining then p.sealAndRotate else p
    if p.activeCursor > u32Max then
      (.error (.corrupt
        s!"active cursor {p.activeCursor} exceeds u32 max, segment overflow"), p)
    -- the slice `active_mmap[cursor..end]` of the mapped segment panics past its end
    else if p.activeCursor + payload.length > p.segSize then
      (.error (.panicked "range end index out of range for slice"), p)
    else
      (.ok ⟨p.activeId, p.activeCursor, payload.length⟩,
        { p with
          dir := p.dir.store p.activeId p.activeCursor payload
          activeCursor := p.activeCursor + payload.length })

/-- `SegmentPool::append_aligned`. -/
def appendAligned (p : SegmentPool) (payload : Bytes) (align : Nat) :
    Except StoreError ValueLocator × SegmentPool :=
  if align ≤ 1 then p.append payload
  else
    let pad := (align - p.activeCursor % align) % align
    if pad > 0 then
      -- a new segment starts aligned
      if pad > p.remaining then p.sealAndRotate.append payload
      else
        match p.append (List.replicate pad 0) with
        | (.error e, p) => (.error e, p)
        | (.ok _, p) => p.append payload
    else p.append payload

/-- `SegmentPool::rewind_active_to`. -/
def rewindActiveTo (p : SegmentPool) (segId offset : Nat) : Except StoreError SegmentPool :=
  if segId ≠ p.activeId then .ok p
  else if offset > p.activeCursor then
    .error (.corrupt s!"rewind target {offset} > active cursor {p.activeCursor}")
  else .ok { p with activeCursor := offset }

/-- `SegmentPool::flush`: the active segment, then the cursor sidecar. -/
def flush (p : SegmentPool) : SegmentPool :=
  { p with dir := (p.dir.flushSeg p.activeId).writeCursor p.activeId p.activeCursor }

/-- `disk_bytes`: every segment file has the full size from its creation on. -/
def diskBytes (p : SegmentPool) : Nat := p.dir.files.length * p.segSize

/-! ### What a kill inside a call leaves

Each list holds the directory before the call and after each of its steps.  The bytes of
a payload arrive one after the other. -/

/-- Inside `seal_and_rotate`. -/
def rotateTrace (p : SegmentPool) : List SegDir :=
  let flushed := p.dir.flushSeg p.activeId
  let created := flushed.createSeg (p.activeId + 1)
  [p.dir, flushed, created, created.writeCursor (p.activeId + 1) 0]

/-- Inside `append`. -/
def appendTrace (p : SegmentPool) (payload : Bytes) : List SegDir :=
  if payload.length > u32Max then [p.dir]
  else
    let rotating := if payload.length > p.remaining then p.rotateTrace else [p.dir]
    let p := if payload.length > p.remaining then p.sealAndRotate else p
    if p.activeCursor > u32Max ∨ p.activeCursor + payload.length > p.segSize then rotating
    else
      rotating ++ (List.range (payload.length + 1)).map fun k =>
        p.dir.store p.activeId p.activeCursor (payload.take k)

/-- Inside `append_aligned`. -/
def appendAlignedTrace (p : SegmentPool) (payload : Bytes) (align : Nat) : List SegDir :=
  if align ≤ 1 then p.appendTrace payload
  else
    let pad := (align - p.activeCursor % align) % align
    if pad > 0 then
      if pad > p.remaining then p.rotateTrace ++ p.sealAndRotate.appendTrace payload
      else
        match p.append (List.replicate pad 0) with
        | (.error _, _) => p.appendTrace (List.replicate pad 0)
        | (.ok _, padded) => p.appendTrace (List.replicate pad 0) ++ padded.appendTrace payload
    else p.appendTrace payload

/-- Inside `flush`. -/
def flushTrace (p : SegmentPool) : List SegDir :=
  [p.dir, p.dir.flushSeg p.activeId, p.flush.dir]

/-- `sealed_handle` followed by `ZeroCopyBuffer::new`: the bytes behind a locator. -/
def view (p : SegmentPool) (loc : ValueLocator) : Except StoreError Bytes :=
  if loc.segId ∉ p.dir.files then .error (.corrupt s!"sealed segment {loc.segId} missing")
  else if loc.offset + loc.len > p.segSize then
    .error (.corrupt s!"zero-copy buffer [{loc.offset}..{loc.offset + loc.len}] out of mmap region len {p.segSize}")
  else .ok (p.dir.mem.volatile.read loc.segId loc.offset loc.len)

end SegmentPool

end FusionStore
