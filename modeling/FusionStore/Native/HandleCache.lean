import Mathlib.Data.List.AList
import FusionStore.Native.Segment

/-!
# Read-only mappings of segments

The read side of `SegmentPool` (`mem/segment.rs`): `sealed` holds a mapping for each segment
that was sealed or read, `sealed_lru` the order of their last use.  Beyond
`SEALED_CACHE_CAP` mappings the oldest ones are dropped, except those a reader still holds.
A mapping shows the bytes of its file as they are now.
-/

namespace FusionStore

/-- `SEALED_CACHE_CAP`. -/
def sealedCacheCap : Nat := 64

/-- `MmapHandle`: the file that is mapped and the length of the mapping. -/
structure MmapHandle where
  segId : Nat
  len : Nat

/-- The fields `sealed` and `sealed_lru` of `SegmentPool`. -/
structure HandleCache where
  handles : AList (fun _ : Nat => MmapHandle)
  lru : List Nat

namespace HandleCache

/-- The cache of a pool that was just opened. -/
def empty : HandleCache := ⟨∅, []⟩

/-- `touch_sealed`. -/
def touchSealed (c : HandleCache) (segId : Nat) : HandleCache :=
  if segId ∈ c.lru then { c with lru := c.lru.erase segId ++ [segId] } else c

/-- The loop of `evict_sealed`; `held` are the segments whose mapping is shared with a
    reader (`strong_count > 1`).  A candidate without a mapping counts as held. -/
def evictLoop (held : Nat → Bool) (queueLen touched : Nat) (c : HandleCache) : HandleCache :=
  if c.lru.length > sealedCacheCap ∧ touched < queueLen then
    match hlru : c.lru with
    | [] => c
    | candidate :: rest =>
      if (c.handles.lookup candidate).isSome ∧ ¬held candidate then
        evictLoop held queueLen touched ⟨c.handles.erase candidate, rest⟩
      else
        -- held by a reader, or not mapped: back to the end of the queue
        evictLoop held queueLen (touched + 1) { c with lru := rest ++ [candidate] }
  else c
termination_by (queueLen - touched) + c.lru.length
decreasing_by
  · simp only [hlru, List.length_cons]
    omega
  · simp only [hlru, List.length_cons, List.length_append, List.length_nil]
    omega

/-- `evict_sealed`. -/
def evictSealed (c : HandleCache) (held : Nat → Bool) : HandleCache :=
  evictLoop held c.lru.length 0 c

/-- A new mapping under `segId`, at the end of the queue. -/
def add (c : HandleCache) (held : Nat → Bool) (segId : Nat) (h : MmapHandle) : HandleCache :=
  HandleCache.evictSealed ⟨c.handles.insert segId h, c.lru ++ [segId]⟩ held

/-- The cache after `seal_and_rotate`: the segment that was active is mapped for reading.
    No reader has the new mapping yet. -/
def sealActive (c : HandleCache) (held : Nat → Bool) (p : SegmentPool) : HandleCache :=
  c.add (fun s => s ≠ p.activeId && held s) p.activeId ⟨p.activeId, p.segSize⟩

/-- The cache after a call that took the pool from `p` to `p'`.  A put rotates at most
    once, and then the active segment is another one. -/
def follow (c : HandleCache) (held : Nat → Bool) (p p' : SegmentPool) : HandleCache :=
  if p'.activeId = p.activeId then c else c.sealActive held p

/-- `sealed_handle`: a segment that is not cached is mapped on demand.  The caller holds
    the mapping it gets. -/
def sealedHandle (c : HandleCache) (held : Nat → Bool) (p : SegmentPool) (segId : Nat) :
    Except StoreError MmapHandle × HandleCache :=
  match c.handles.lookup segId with
  | some h => (.ok h, c.touchSealed segId)
  | none =>
    if segId ∉ p.dir.files then (.error (.corrupt s!"sealed segment {segId} missing"), c)
    else
      let h : MmapHandle := ⟨segId, p.segSize⟩
      (.ok h, c.add (fun s => s = segId || held s) segId h)

end HandleCache

/-- `ZeroCopyBuffer::new`: the bytes of a range of a mapping. -/
def MmapHandle.zeroCopy (h : MmapHandle) (p : SegmentPool) (offset len : Nat) :
    Except StoreError Bytes :=
  if offset + len > h.len then
    .error (.corrupt
      s!"zero-copy buffer [{offset}..{offset + len}] out of mmap region len {h.len}")
  else .ok (p.dir.mem.volatile.read h.segId offset len)

end FusionStore
