import FusionStore.Native.HandleCache

/-!
# Pools with their readers

`SegmentPool` of `mem/segment.rs` as its callers drive it: appends that seal segments, reads of
sealed segments and of the one that is being written (`get_kv_zero_copy` hands the number in its
locator to `sealed_handle`, whichever it is), and readers that let go of their mapping.  Beside
it `HandleCache::evict` of `vector/store.rs`, the other loop that bounds a cache.
-/

namespace FusionStore

/-- `VEC_SEALED_CACHE_CAP`. -/
def vecSealedCacheCap : Nat := 64

namespace HandleCache

/-- The loop of `HandleCache::evict`, over the queue from its head: it ends at the first
    mapping that is held, which goes to the end of the queue. -/
def evictQueue (held : Nat → Bool) :
    List Nat → AList (fun _ : Nat => MmapHandle) → HandleCache
  | [], handles => ⟨handles, []⟩
  | candidate :: rest, handles =>
    if (candidate :: rest).length > vecSealedCacheCap then
      if (handles.lookup candidate).isSome ∧ ¬held candidate then
        evictQueue held rest (handles.erase candidate)
      else ⟨handles, rest ++ [candidate]⟩
    else ⟨handles, candidate :: rest⟩

/-- `HandleCache::evict` of the vector pool. -/
def evict (c : HandleCache) (held : Nat → Bool) : HandleCache := evictQueue held c.lru c.handles

end HandleCache

/-- A pool, its mappings, and for each reader with a mapping of the cache its segment.  A reader
    of a mapping that was replaced in the cache is not listed: the cache does not see it. -/
structure MappedPool where
  pool : SegmentPool
  cache : HandleCache
  readers : List Nat

/-- What the callers of a pool do. -/
inductive PoolUse where
  | append (payload : Bytes)
  | appendAligned (payload : Bytes) (align : Nat)
  | sealedHandle (segId : Nat)
  | drop (reader : Nat)
  deriving DecidableEq

namespace MappedPool

/-- `SegmentPool::open`: nothing is mapped for reading yet. -/
def «open» (d : SegDir) (segSize : Nat) : MappedPool := ⟨.open d segSize, .empty, []⟩

/-- The mappings with `strong_count > 1`. -/
def held (s : MappedPool) (segId : Nat) : Bool := segId ∈ s.readers

/-- `seal_and_rotate`.  Readers that had mapped the segment while it was written keep a mapping
    that is not in the cache any more. -/
def sealAndRotate (s : MappedPool) : MappedPool where
  pool := s.pool.sealAndRotate
  cache := s.cache.sealActive s.held s.pool
  readers := s.readers.filter fun segId => segId ≠ s.pool.activeId

/-- `append` seals the active segment. -/
def Rotates (s : MappedPool) (payload : Bytes) : Prop :=
  payload.length ≤ u32Max ∧ payload.length > s.pool.remaining

instance (s : MappedPool) (payload : Bytes) : Decidable (s.Rotates payload) :=
  inferInstanceAs (Decidable (_ ∧ _))

/-- `append`. -/
def append (s : MappedPool) (payload : Bytes) : Except StoreError ValueLocator × MappedPool :=
  let (res, pool) := s.pool.append payload
  let rotated := if s.Rotates payload then s.sealAndRotate else s
  (res, { rotated with pool })

/-- `append_aligned`. -/
def appendAligned (s : MappedPool) (payload : Bytes) (align : Nat) :
    Except StoreError ValueLocator × MappedPool :=
  if align ≤ 1 then s.append payload
  else
    let pad := (align - s.pool.activeCursor % align) % align
    if pad > 0 then
      if pad > s.pool.remaining then s.sealAndRotate.append payload
      else
        match s.append (List.replicate pad 0) with
        | (.error e, s) => (.error e, s)
        | (.ok _, s) => s.append payload
    else s.append payload

/-- `sealed_handle`; the caller is a reader from here on. -/
def sealedHandle (s : MappedPool) (segId : Nat) : Except StoreError MmapHandle × MappedPool :=
  match s.cache.sealedHandle s.held s.pool segId with
  | (.error e, cache) => (.error e, { s with cache })
  | (.ok handle, cache) => (.ok handle, { s with cache, readers := s.readers ++ [segId] })

/-- One use of the pool, whatever it returns. -/
def step (s : MappedPool) : PoolUse → MappedPool
  | .append payload => (s.append payload).2
  | .appendAligned payload align => (s.appendAligned payload align).2
  | .sealedHandle segId => (s.sealedHandle segId).2
  | .drop reader => { s with readers := s.readers.eraseIdx reader }

end MappedPool

end FusionStore
