import FusionStore.Native.StoreSession
import FusionStore.Spec.KvCorrect

/-!
# A KV session is a map

From an empty directory on, as long as every call returns, the store behaves as the map of
the values its callers were told are stored: whatever the segment size, through rotations,
failed commits and evicted mappings.  Three facts carry this: the pool holds every locator
of the table, the bytes behind it are the value, and every cached mapping is the one of its
own segment.

## Key results

- `KvSession.refines_map`: reads and deletes of a session answer as the map
-/

namespace FusionStore

/-! ### The cache of mappings -/

namespace HandleCache

variable {c : HandleCache} {n : Nat}

/-- Every mapping is of its own segment, at full length. -/
def Faithful (c : HandleCache) (segSize : Nat) : Prop :=
  ∀ seg h, c.handles.lookup seg = some h → h = ⟨seg, segSize⟩

/-- An empty cache. -/
theorem faithful_empty (segSize : Nat) : empty.Faithful segSize := by
  intro seg h hl
  exact nomatch hl

/-- An eviction. -/
private theorem Faithful.erase (h : c.Faithful n) (seg : Nat) (lru : List Nat) :
    Faithful ⟨c.handles.erase seg, lru⟩ n := by
  intro s hd hl
  by_cases hs : s = seg
  · subst hs
    rw [AList.lookup_erase] at hl
    exact nomatch hl
  · rw [AList.lookup_erase_ne hs] at hl
    exact h s hd hl

/-- Eviction only drops mappings. -/
theorem Faithful.evictLoop (h : c.Faithful n) (held : Nat → Bool) (queueLen touched : Nat) :
    (c.evictLoop held queueLen touched).Faithful n := by
  fun_induction HandleCache.evictLoop held queueLen touched c with
  | case1 => exact h
  | case2 touched c _ candidate rest _ _ ih => exact ih (h.erase candidate rest)
  | case3 touched c _ candidate rest _ _ ih => exact ih h
  | case4 => exact h

/-- A new mapping. -/
theorem Faithful.add (h : c.Faithful n) (held : Nat → Bool) (seg : Nat) :
    (c.add held seg ⟨seg, n⟩).Faithful n := by
  apply Faithful.evictLoop
  intro s hd hl
  by_cases hs : s = seg
  · subst hs
    rw [AList.lookup_insert] at hl
    exact (Option.some.inj hl).symm
  · rw [AList.lookup_insert_ne hs] at hl
    exact h s hd hl

/-- A touch. -/
theorem Faithful.touchSealed (h : c.Faithful n) (seg : Nat) : (c.touchSealed seg).Faithful n := by
  unfold HandleCache.touchSealed
  split
  · exact h
  · exact h

/-- The cache after the pool has moved on. -/
theorem Faithful.follow {p : SegmentPool} (h : c.Faithful p.segSize) (held : Nat → Bool)
    (p' : SegmentPool) : (c.follow held p p').Faithful p.segSize := by
  unfold HandleCache.follow
  split
  · exact h
  · exact h.add _ p.activeId

/-- A segment file that exists is found, cached or not. -/
theorem Faithful.sealedHandle {p : SegmentPool} (h : c.Faithful p.segSize) (held : Nat → Bool)
    {seg : Nat} (hmem : seg ∈ p.dir.files) :
    (c.sealedHandle held p seg).1 = .ok ⟨seg, p.segSize⟩ ∧
      (c.sealedHandle held p seg).2.Faithful p.segSize := by
  unfold HandleCache.sealedHandle
  cases hl : c.handles.lookup seg with
  | some hd =>
    rw [h seg hd hl]
    exact ⟨rfl, h.touchSealed seg⟩
  | none =>
    simp only [hmem, not_true_eq_false, ↓reduceIte, true_and]
    exact h.add _ seg

end HandleCache

/-- A locator of the pool is inside the mapping of its segment. -/
theorem zeroCopy_of_holds {p : SegmentPool} {loc : ValueLocator} (h : p.writer.Holds loc) :
    MmapHandle.zeroCopy ⟨loc.segId, p.segSize⟩ p loc.offset loc.len =
      .ok (p.writer.bytesAt loc) := by
  have hlen : loc.offset + loc.len ≤ p.segSize := h.2.1
  unfold MmapHandle.zeroCopy
  rw [if_neg (Nat.not_lt.mpr hlen)]
  rfl

/-- A pool that was just created. -/
theorem SegmentPool.writer_inv_open_empty (segSize : Nat) :
    («open» .empty segSize).writer.Inv where
  cursor_le := Nat.zero_le _
  mem := SegDir.mem_createSeg.mpr (.inl rfl)
  le := by
    intro f hf
    rcases SegDir.mem_createSeg.mp hf with rfl | hf
    · exact Nat.le_refl _
    · exact nomatch hf

/-! ### Sessions -/

namespace KvSession

variable {σ : KvSession}

/-- What holds of a session whose calls have all returned. -/
structure Inv (σ : KvSession) : Prop where
  pool : σ.store.pool.writer.Inv
  holds : ∀ key loc, σ.store.env.volatile.db.lookup key = some loc →
    σ.store.pool.writer.Holds loc
  values : ∀ key, σ.store.view key = σ.values.lookup key
  key_ne : σ.values.lookup [] = none
  cache : σ.cache.Faithful σ.store.pool.segSize
  poisoned : σ.poisoned = false

/-- The empty directory. -/
theorem inv_start (segSize quotaLimit : Nat) : (start segSize quotaLimit).Inv where
  pool := SegmentPool.writer_inv_open_empty segSize
  holds := by
    intro key loc hl
    exact nomatch hl
  values _ := rfl
  key_ne := rfl
  cache := HandleCache.faithful_empty _
  poisoned := rfl

/-- A key shows nothing if it has no locator. -/
theorem view_eq_none_iff {s : KvStore} {key : Bytes} :
    s.view key = none ↔ s.env.volatile.db.lookup key = none :=
  Option.map_eq_none_iff

/-- The pool moves on and the table stays. -/
private theorem Inv.of_keeps (h : σ.Inv) {pool : SegmentPool} (hinv : pool.writer.Inv)
    (hk : σ.store.pool.writer.Keeps pool.writer) {cache : HandleCache}
    (hc : cache.Faithful σ.store.pool.segSize) :
    Inv ⟨{ σ.store with pool }, cache, false, σ.values⟩ where
  pool := hinv
  holds key loc hl := hk.holds loc (h.holds key loc hl)
  values key := (KvStore.good_of_keeps hk (h.holds key)).2.trans (h.values key)
  key_ne := h.key_ne
  cache := by
    rw [← show pool.segSize = σ.store.pool.segSize from hk.segSize] at hc
    exact hc
  poisoned := rfl

/-- A value was appended and its locator entered. -/
private theorem Inv.stored (h : σ.Inv) {key value : Bytes} (hne : key ≠ []) {loc : ValueLocator}
    {pool : SegmentPool} (ha : σ.store.pool.Appended value loc pool) {cache : HandleCache}
    (hc : cache.Faithful σ.store.pool.segSize) :
    Inv ⟨σ.store.stored key value loc pool, cache, false, σ.values.insert key value⟩ where
  pool := ha.inv
  holds := by
    intro k l hl
    -- the key that was put points at the new bytes, any other at bytes that were kept
    by_cases hk : k = key
    · subst hk
      obtain rfl : loc = l := by simpa [KvStore.stored, Stored.write] using hl
      exact ha.holds
    · have hl' : σ.store.env.volatile.db.lookup k = some l := by
        simpa [KvStore.stored, Stored.write, AList.lookup_insert_ne hk] using hl
      exact ha.keeps.holds l (h.holds k l hl')
  values := by
    intro k
    show ((σ.store.env.volatile.db.insert key loc).lookup k).map pool.writer.bytesAt = _
    by_cases hk : k = key
    · subst hk
      rw [AList.lookup_insert, AList.lookup_insert, Option.map_some, ha.bytesAt]
    · rw [AList.lookup_insert_ne hk, AList.lookup_insert_ne hk]
      exact (KvStore.good_of_keeps ha.keeps (h.holds k)).2.trans (h.values k)
  key_ne := by
    -- the empty key is not the one that was put
    rw [AList.lookup_insert_ne (Ne.symm hne)]
    exact h.key_ne
  cache := by
    rw [← show pool.segSize = σ.store.pool.segSize from ha.keeps.segSize] at hc
    exact hc
  poisoned := rfl

/-- The invariant through a put that returns. -/
theorem Inv.put (h : σ.Inv) (key value : Bytes) (locked : Bool) (commit : Option StoreError)
    (held : Nat → Bool) (hret : Returns (σ.put key value locked commit held).1) :
    (σ.put key value locked commit held).2.Inv := by
  have hcache := h.cache.follow held
  unfold KvSession.put at hret ⊢
  simp only [h.poisoned, Bool.false_and, Bool.false_eq_true, ↓reduceIte, Bool.false_or] at hret ⊢
  obtain ⟨-, ht, -, loc, pool, hput, ha⟩ | ⟨-, err, pool, hput, hinv, hk, -⟩ :=
    KvStore.putKv_outcome h.pool key value locked commit
  · rw [hput]
    exact h.stored ht.key_ne ha (hcache _)
  · rw [hput] at hret ⊢
    -- a panic is not a return, so the mutex stays usable
    have hlive : isPanic (.error err : Except StoreError Unit) = false := by
      cases err with
      | panicked msg => exact absurd rfl (hret msg)
      | _ => rfl
    simp only [hlive]
    exact h.of_keeps hinv hk (hcache _)

/-- A key is taken out on both sides. -/
private theorem Inv.erased (h : σ.Inv) (key : Bytes) :
    Inv { σ with store := σ.store.erased key, values := σ.values.erase key } where
  pool := h.pool
  holds := by
    intro k l hl
    by_cases hk : k = key
    · subst hk
      -- the erased key has no locator to check
      simp [KvStore.erased, Stored.write] at hl
    · have hl' : σ.store.env.volatile.db.lookup k = some l := by
        simpa [KvStore.erased, Stored.write, AList.lookup_erase_ne hk] using hl
      exact h.holds k l hl'
  values := by
    intro k
    show ((σ.store.env.volatile.db.erase key).lookup k).map σ.store.pool.writer.bytesAt = _
    by_cases hk : k = key
    · subst hk
      rw [AList.lookup_erase, AList.lookup_erase]
      rfl
    · rw [AList.lookup_erase_ne hk, AList.lookup_erase_ne hk]
      exact h.values k
  key_ne := by
    -- the empty key was not there before, and is not now
    by_cases hk : [] = key
    · subst hk
      exact AList.lookup_erase _ _
    · rw [AList.lookup_erase_ne hk]
      exact h.key_ne
  cache := h.cache
  poisoned := h.poisoned

/-- Erasing a key that is not there changes nothing a lookup can see. -/
private theorem Inv.erase_absent (h : σ.Inv) {key : Bytes}
    (hnone : σ.store.env.volatile.db.lookup key = none) :
    Inv { σ with values := σ.values.erase key } where
  pool := h.pool
  holds := h.holds
  values := by
    intro k
    by_cases hk : k = key
    · subst hk
      rw [AList.lookup_erase]
      exact view_eq_none_iff.mpr hnone
    · rw [AList.lookup_erase_ne hk]
      exact h.values k
  key_ne := by
    by_cases hk : [] = key
    · subst hk
      exact AList.lookup_erase _ _
    · rw [AList.lookup_erase_ne hk]
      exact h.key_ne
  cache := h.cache
  poisoned := h.poisoned

/-- The invariant through a delete. -/
theorem Inv.delete (h : σ.Inv) (key : Bytes) (locked : Bool) (commit : Option StoreError) :
    (σ.delete key locked commit).2.Inv := by
  unfold KvSession.delete
  obtain ⟨-, -, -, -, hdel⟩ | ⟨-, -, hnone, hdel⟩ | ⟨-, err, hdel⟩ :=
    σ.store.deleteKv_outcome key locked commit
  · rw [hdel]
    exact h.erased key
  · rw [hdel]
    exact h.erase_absent hnone
  · rw [hdel]
    exact h

/-- A lookup finds the value and at most changes the cache. -/
theorem Inv.get (h : σ.Inv) (key : Bytes) (held : Nat → Bool) :
    (σ.get key held).1 =
      (if key = [] then .error (.heed "MDB_BAD_VALSIZE") else .ok (σ.values.lookup key)) ∧
    (σ.get key held).2.Inv := by
  unfold KvSession.get KvStore.heedGet
  -- heed refuses the empty key before the pool is asked
  by_cases hne : key = []
  · subst hne
    exact ⟨rfl, h⟩
  rw [if_neg (by simpa using hne), if_neg hne, ← h.values key]
  cases hl : σ.store.env.volatile.db.lookup key with
  | none => exact ⟨by rw [view_eq_none_iff.mpr hl], h⟩
  | some loc =>
    -- the locator is of a file that exists, so a mapping of it is found or made
    have hh := h.holds key loc hl
    obtain ⟨hfound, hfaithful⟩ := h.cache.sealedHandle held hh.1
    cases hs : σ.cache.sealedHandle held σ.store.pool loc.segId with
    | mk res cache =>
      simp only [hs] at hfound hfaithful
      subst hfound
      simp only [h.poisoned, Bool.false_eq_true, ↓reduceIte, hs, zeroCopy_of_holds hh]
      refine ⟨?_, h.pool, h.holds, h.values, h.key_ne, hfaithful, rfl⟩
      rw [show σ.store.view key = some (σ.store.pool.writer.bytesAt loc) by
        rw [KvStore.view, hl, Option.map_some]]
      rfl

/-- The invariant through a flush. -/
theorem Inv.flush (h : σ.Inv) : σ.flush.2.Inv := by
  unfold KvSession.flush
  simp only [h.poisoned, Bool.false_eq_true, ↓reduceIte]
  exact ⟨⟨h.pool.cursor_le, h.pool.mem, h.pool.le⟩, h.holds, h.values, h.key_ne, h.cache,
    rfl⟩

/-- One call that returns. -/
theorem inv_step (h : σ.Inv) (call : KvCall) (hret : σ.CallReturns call) : (σ.step call).Inv := by
  cases call with
  | put key value locked commit held => exact h.put key value locked commit held hret
  | delete key locked commit => exact h.delete key locked commit
  | get key held => exact (h.get key held).2
  | flush => exact h.flush

/-- The keys of the map are those with a locator. -/
theorem Inv.mem_values_iff (h : σ.Inv) (key : Bytes) :
    key ∈ σ.values ↔ σ.store.env.volatile.db.lookup key ≠ none := by
  rw [← AList.lookup_isSome, ← h.values key, ← Option.ne_none_iff_isSome, ne_eq, view_eq_none_iff]

/-- A delete that returns `Ok` tells whether the key was there. -/
theorem Inv.delete_ok (h : σ.Inv) {key : Bytes} {locked : Bool} {commit : Option StoreError}
    {removed : Bool} (hdel : (σ.delete key locked commit).1 = .ok removed) :
    removed = decide (key ∈ σ.values) := by
  unfold KvSession.delete at hdel
  obtain ⟨-, -, -, ⟨loc, hl⟩, hres⟩ | ⟨-, -, hnone, hres⟩ | ⟨-, err, hres⟩ :=
    σ.store.deleteKv_outcome key locked commit
  · obtain rfl : true = removed := by simpa [hres] using hdel
    have hmem : key ∈ σ.values := by
      rw [h.mem_values_iff, hl]
      exact Option.some_ne_none loc
    exact (decide_eq_true hmem).symm
  · obtain rfl : false = removed := by simpa [hres] using hdel
    have hmem : key ∉ σ.values := by
      rw [h.mem_values_iff]
      exact fun hn => hn hnone
    exact (decide_eq_false hmem).symm
  · simp [hres] at hdel

/-- With the lock taken and a commit that succeeds, a delete returns `Ok`. -/
theorem delete_returns_ok (σ : KvSession) {key : Bytes} (hne : key ≠ []) :
    ∃ removed, (σ.delete key true none).1 = .ok removed := by
  unfold KvSession.delete
  obtain ⟨-, -, -, -, hres⟩ | ⟨-, -, -, hres⟩ | ⟨hno, -⟩ := σ.store.deleteKv_outcome key true none
  · exact ⟨true, by rw [hres]⟩
  · exact ⟨false, by rw [hres]⟩
  · exact absurd ⟨rfl, hne, .inl rfl⟩ hno

/-- In every session whose calls return, a lookup answers with the value of the last put
    under the key that returned `Ok` and was not deleted since, and a delete that returns
    `Ok` says whether there was one.  LMDB has no empty key: no put under it succeeds and
    its lookup is refused. -/
theorem refines_map (segSize quotaLimit : Nat) (calls : List KvCall)
    (hret : Run.Guarded step CallReturns (start segSize quotaLimit) calls) :
    let σ := Run.exec step (start segSize quotaLimit) calls
    (∀ key held, (σ.get key held).1 =
      if key = [] then .error (.heed "MDB_BAD_VALSIZE") else .ok (σ.values.lookup key)) ∧
    σ.values.lookup [] = none ∧
    (∀ key locked commit removed, (σ.delete key locked commit).1 = .ok removed →
      removed = decide (key ∈ σ.values)) ∧
    ∀ key, key ≠ [] → (σ.delete key true none).1 = .ok (decide (key ∈ σ.values)) := by
  intro σ
  have h : σ.Inv := hret.invariant Inv (fun _ call h hr => inv_step h call hr)
    (inv_start segSize quotaLimit)
  refine ⟨fun key held => (h.get key held).1, h.key_ne, fun _ _ _ _ hdel => h.delete_ok hdel, ?_⟩
  intro key hne
  obtain ⟨removed, hdel⟩ := σ.delete_returns_ok hne
  rw [hdel, h.delete_ok hdel]

/-- Two values in segments of four bytes, the second behind a rotation, and an overwrite of
    the first whose commit fails. -/
theorem refines_map_rotated :
    let calls : List KvCall :=
      [.put [1] [1, 2, 3] true none (fun _ => false), .put [2] [4, 5] true none (fun _ => false),
        .put [1] [9] true (some (.heed "commit")) (fun _ => false)]
    let σ := Run.exec step (start 4 0) calls
    σ.store.pool.activeId = 1 ∧ (∀ held, (σ.get [1] held).1 = .ok (some [1, 2, 3])) ∧
      (σ.delete [2] true none).1 = .ok true := by
  intro calls σ
  obtain ⟨hget, -, -, hdel⟩ := refines_map 4 0 calls (by decide)
  exact ⟨by decide, fun held => (hget [1] held).trans rfl, (hdel [2] (by decide)).trans rfl⟩

end KvSession

end FusionStore
