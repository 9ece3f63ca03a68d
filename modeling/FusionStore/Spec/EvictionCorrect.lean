import FusionStore.ForStd.Run
import FusionStore.Native.PoolHandles

/-!
# The queue of the mapped segments

The queue of a cache of mappings should list every mapped segment once (`InStep`).  Eviction
keeps that, whichever entry it takes.  What breaks it is the seal of a segment that a read has
already put into the cache: it is queued a second time, and no eviction ever repairs that
(`Stray`).

Of a queue in step, `evict_sealed` leaves at most 64 mappings or only held ones.  The eviction of
the vector pool stops at the first held mapping, which may be too soon.

## Key results

- `MappedPool.queue_in_step_iff`: which runs of a pool keep its queue in step
- `HandleCache.InStep.evictSealed`: what `evict_sealed` reaches, by counting the rounds
- `HandleCache.evictions_bound_iff`: when both pools reach it
-/

namespace FusionStore

namespace HandleCache

variable {c : HandleCache} {held : Nat → Bool}

/-- The queue lists each mapped segment exactly once, and nothing else. -/
def InStep (c : HandleCache) : Prop := c.lru.Nodup ∧ ∀ seg, seg ∈ c.lru ↔ seg ∈ c.handles

/-- The queue has an entry too many for `seg`. -/
def Stray (c : HandleCache) (seg : Nat) : Prop :=
  (2 ≤ c.lru.count seg ∧ seg ∈ c.handles) ∨ (1 ≤ c.lru.count seg ∧ seg ∉ c.handles)

/-- An empty cache. -/
theorem inStep_empty : empty.InStep := by
  refine ⟨List.nodup_nil, fun seg => ?_⟩
  simp [empty]

/-- An entry too many is one too many. -/
theorem Stray.not_inStep {seg : Nat} (h : c.Stray seg) : ¬c.InStep := by
  rintro ⟨hnodup, hmem⟩
  rcases h with ⟨htwo, -⟩ | ⟨hone, hnot⟩
  · have hle := List.nodup_iff_count_le_one.mp hnodup seg
    omega
  · exact hnot ((hmem seg).mp (List.count_pos_iff.mp hone))

/-! ### One entry -/

/-- A mapping that is dropped leaves queue and map. -/
theorem InStep.pop {seg : Nat} {rest : List Nat} (h : c.InStep) (hlru : c.lru = seg :: rest) :
    InStep ⟨c.handles.erase seg, rest⟩ := by
  obtain ⟨hnodup, hmem⟩ := h
  rw [hlru] at hnodup hmem
  obtain ⟨hnot, hrest⟩ := List.nodup_cons.mp hnodup
  refine ⟨hrest, fun s => ?_⟩
  have hs := hmem s
  rw [List.mem_cons] at hs
  rw [AList.mem_erase, ← hs]
  by_cases heq : s = seg
  · simp [heq, hnot]
  · simp [heq]

/-- A mapping that is kept goes to the end. -/
theorem InStep.requeue {seg : Nat} {rest : List Nat} (h : c.InStep)
    (hlru : c.lru = seg :: rest) : InStep { c with lru := rest ++ [seg] } := by
  obtain ⟨hnodup, hmem⟩ := h
  have hperm : (rest ++ [seg]).Perm c.lru := hlru ▸ List.perm_append_singleton seg rest
  exact ⟨hperm.nodup_iff.mpr hnodup, fun s => hperm.mem_iff.trans (hmem s)⟩

/-- A segment that was not mapped enters both. -/
theorem InStep.push {seg : Nat} (h : c.InStep) (hnew : seg ∉ c.handles) (hd : MmapHandle) :
    InStep ⟨c.handles.insert seg hd, c.lru ++ [seg]⟩ := by
  obtain ⟨hnodup, hmem⟩ := h
  refine ⟨?_, fun s => ?_⟩
  · have hnot : seg ∉ c.lru := fun hin => hnew ((hmem seg).mp hin)
    exact (List.perm_append_singleton seg c.lru).nodup_iff.mpr (List.nodup_cons.mpr ⟨hnot, hnodup⟩)
  · rw [List.mem_append, List.mem_singleton, AList.mem_insert, hmem s, or_comm]

/-! ### Eviction -/

/-- The eviction takes a segment out of both. -/
theorem InStep.evictLoop (h : c.InStep) (queueLen touched : Nat) :
    (c.evictLoop held queueLen touched).InStep := by
  fun_induction HandleCache.evictLoop held queueLen touched c with
  | case1 => exact h
  | case2 touched c hrun candidate rest hlru hsafe ih => exact ih (h.pop hlru)
  | case3 touched c hrun candidate rest hlru hsafe ih => exact ih (h.requeue hlru)
  | case4 => exact h

/-- No eviction removes an entry too many. -/
theorem Stray.evictLoop {seg : Nat} (h : c.Stray seg) (queueLen touched : Nat) :
    (c.evictLoop held queueLen touched).Stray seg := by
  fun_induction HandleCache.evictLoop held queueLen touched c with
  | case1 => exact h
  | case2 touched c hrun candidate rest hlru hsafe ih =>
    -- the candidate was mapped; its other entry, if it is `seg`, has no mapping from here on
    refine ih ?_
    simp only [Stray, hlru, List.count_cons, beq_iff_eq, AList.mem_erase] at h ⊢
    by_cases hc : candidate = seg
    · subst hc
      have hmapped : candidate ∈ c.handles := AList.lookup_isSome.mp hsafe.1
      simp only [hmapped, ↓reduceIte, and_true, not_true_eq_false, and_false, or_false, ne_eq,
        not_false_eq_true, false_or] at h ⊢
      omega
    · simpa [hc, Ne.symm hc] using h
  | case3 touched c hrun candidate rest hlru hsafe ih =>
    -- a held candidate goes to the back, which keeps the counts
    refine ih ?_
    have hcount : (rest ++ [candidate]).count seg = c.lru.count seg := by
      rw [hlru]
      exact (List.perm_append_singleton candidate rest).count_eq seg
    simp only [Stray, hcount]
    exact h
  -- the loop is over
  | case4 => exact h

/-- What a reader holds is not dropped. -/
theorem lookup_evictLoop {seg : Nat} (hheld : held seg = true) (queueLen touched : Nat) :
    (c.evictLoop held queueLen touched).handles.lookup seg = c.handles.lookup seg := by
  fun_induction HandleCache.evictLoop held queueLen touched c with
  | case1 => rfl
  | case2 touched c hrun candidate rest hlru hsafe ih =>
    rw [ih]
    refine AList.lookup_erase_ne fun heq => ?_
    subst heq
    exact hsafe.2 hheld
  | case3 touched c hrun candidate rest hlru hsafe ih => exact ih
  | case4 => rfl

/-- A new handle gets one entry. -/
theorem InStep.add {seg : Nat} (h : c.InStep) (hnew : seg ∉ c.handles) (hd : MmapHandle) :
    (c.add held seg hd).InStep :=
  (h.push hnew hd).evictLoop _ _

/-- A mapped segment that is sealed is queued twice. -/
theorem InStep.stray_add {seg : Nat} (h : c.InStep) (hold : seg ∈ c.handles) (hd : MmapHandle) :
    (c.add held seg hd).Stray seg := by
  refine Stray.evictLoop (.inl ⟨?_, (AList.mem_insert _).mpr (.inl rfl)⟩) _ _
  have hone := List.count_pos_iff.mpr ((h.2 seg).mpr hold)
  simp only [List.count_append, List.count_singleton_self]
  omega

/-- Other handles do not mend a stray entry. -/
theorem Stray.add {seg other : Nat} (h : c.Stray seg) (hne : other ≠ seg) (hd : MmapHandle) :
    (c.add held other hd).Stray seg := by
  refine Stray.evictLoop ?_ _ _
  simp only [Stray, List.count_append, List.count_singleton, beq_iff_eq, hne, ↓reduceIte,
    AList.mem_insert, Ne.symm hne, false_or] at h ⊢
  exact h

/-- A touch moves an entry to the back. -/
theorem InStep.touchSealed (h : c.InStep) (seg : Nat) : (c.touchSealed seg).InStep := by
  unfold HandleCache.touchSealed
  split
  · rename_i hin
    have hperm : (c.lru.erase seg ++ [seg]).Perm c.lru :=
      (List.perm_append_singleton seg _).trans (List.perm_cons_erase hin).symm
    exact ⟨hperm.nodup_iff.mpr h.1, fun s => hperm.mem_iff.trans (h.2 s)⟩
  · exact h

/-- A segment that was read is mapped. -/
theorem mem_sealedHandle {p : SegmentPool} {seg : Nat} (hmem : seg ∈ p.dir.files) :
    seg ∈ (c.sealedHandle held p seg).2.handles := by
  unfold HandleCache.sealedHandle
  cases hl : c.handles.lookup seg with
  | some hd =>
    simp only [touchSealed]
    split <;> exact AList.lookup_isSome.mp (by rw [hl]; rfl)
  | none =>
    simp only [hmem, not_true_eq_false, ↓reduceIte]
    rw [← AList.lookup_isSome, HandleCache.add, evictSealed, lookup_evictLoop (by simp),
      AList.lookup_insert]
    rfl

/-- A lookup, whether it hits, maps the file or fails. -/
theorem InStep.sealedHandle (h : c.InStep) (p : SegmentPool) (seg : Nat) :
    (c.sealedHandle held p seg).2.InStep := by
  unfold HandleCache.sealedHandle
  cases hl : c.handles.lookup seg with
  | some hd => exact h.touchSealed seg
  | none =>
    simp only
    split
    · exact h
    · exact h.add (AList.lookup_eq_none.mp hl) _

end HandleCache

/-! ### Runs of a pool -/

namespace MappedPool

open HandleCache

variable {s : MappedPool}

/-- The segment that is being written is not mapped for reading. -/
def Unmapped (s : MappedPool) : Prop := s.pool.activeId ∉ s.cache.handles

/-- Whenever this use of the pool seals a segment, the segment is not mapped for reading. -/
def SealsUnmapped (s : MappedPool) : PoolUse → Prop
  | .append payload => s.Rotates payload → s.Unmapped
  | .appendAligned payload align =>
    let pad := (align - s.pool.activeCursor % align) % align
    if align ≤ 1 ∨ pad = 0 then s.Rotates payload → s.Unmapped
    -- the padding opens a segment, and a payload larger than a segment the next one
    else if pad > s.pool.remaining then
      s.Unmapped ∧ (s.sealAndRotate.Rotates payload → s.sealAndRotate.Unmapped)
    -- the payload goes behind the padding, if that is written
    else
      pad ≤ u32Max ∧ s.pool.activeCursor ≤ u32Max ∧ payload.length ≤ u32Max ∧
        payload.length + pad > s.pool.remaining → s.Unmapped
  | .sealedHandle _ | .drop _ => True

/-- Sealing appends an entry whether there is one or not. -/
theorem inStep_sealAndRotate_iff (h : s.cache.InStep) :
    s.sealAndRotate.cache.InStep ↔ s.Unmapped := by
  constructor
  · intro hseal hmapped
    exact (h.stray_add hmapped _).not_inStep hseal
  · exact fun hnew => h.add hnew _

/-- An append changes the cache only by sealing. -/
theorem append_cache (s : MappedPool) (payload : Bytes) :
    (s.append payload).2.cache = if s.Rotates payload then s.sealAndRotate.cache else s.cache := by
  simp only [append]
  split <;> rfl

/-- When an append keeps queue and mappings in step. -/
theorem inStep_append_iff (h : s.cache.InStep) (payload : Bytes) :
    (s.append payload).2.cache.InStep ↔ (s.Rotates payload → s.Unmapped) := by
  rw [append_cache]
  split
  · rename_i hrot
    rw [inStep_sealAndRotate_iff h]
    exact ⟨fun hnew _ => hnew, fun hnew => hnew hrot⟩
  · rename_i hrot
    exact iff_of_true h fun hr => absurd hr hrot

/-- An append does not repair the queue. -/
theorem stray_append {seg : Nat} (h : s.cache.Stray seg) (hne : s.pool.activeId ≠ seg)
    (payload : Bytes) : (s.append payload).2.cache.Stray seg := by
  rw [append_cache]
  split
  · exact h.add hne _
  · exact h

/-- Padding that fits is written, or refused; either way no segment is sealed. -/
theorem append_pad {pad : Nat} (hpos : 0 < pad) (hroom : pad ≤ s.pool.remaining) :
    (¬(pad ≤ u32Max ∧ s.pool.activeCursor ≤ u32Max) ∧
      ∃ err, s.append (List.replicate pad 0) = (.error err, s)) ∨
    ((pad ≤ u32Max ∧ s.pool.activeCursor ≤ u32Max) ∧
      ∃ loc t, s.append (List.replicate pad 0) = (.ok loc, t) ∧ t.cache = s.cache ∧
        t.pool.activeId = s.pool.activeId ∧ t.pool.remaining = s.pool.remaining - pad) := by
  have hstay : ¬s.Rotates (List.replicate pad 0) := by
    rw [Rotates, List.length_replicate]
    omega
  have hend : s.pool.activeCursor + pad ≤ s.pool.segSize := by
    rw [SegmentPool.remaining] at hroom
    omega
  simp only [append, hstay, ↓reduceIte, SegmentPool.append, List.length_replicate,
    if_neg (Nat.not_lt.mpr hroom)]
  -- a pad this long does not fit the locator's length
  by_cases hlen : pad > u32Max
  · left
    simp only [hlen, ↓reduceIte]
    exact ⟨by omega, _, rfl⟩
  -- a cursor this far does not fit its offset
  by_cases hcur : s.pool.activeCursor > u32Max
  · left
    simp only [hlen, hcur, ↓reduceIte]
    exact ⟨by omega, _, rfl⟩
  right
  simp only [hlen, hcur, show ¬s.pool.activeCursor + pad > s.pool.segSize by omega, ↓reduceIte]
  refine ⟨by omega, _, _, rfl, rfl, rfl, ?_⟩
  simp only [SegmentPool.remaining]
  omega

/-- The same for an aligned append, which may seal twice. -/
theorem inStep_appendAligned_iff (h : s.cache.InStep) (payload : Bytes) (align : Nat) :
    (s.appendAligned payload align).2.cache.InStep ↔
      s.SealsUnmapped (.appendAligned payload align) := by
  simp only [SealsUnmapped, appendAligned]
  generalize (align - s.pool.activeCursor % align) % align = pad
  by_cases halign : align ≤ 1
  · -- without an alignment it is a plain append
    simp only [halign, true_or, ↓reduceIte]
    exact inStep_append_iff h payload
  by_cases hzero : pad = 0
  · -- so it is at an aligned cursor
    simp only [halign, hzero, or_true, ↓reduceIte, gt_iff_lt, Nat.lt_irrefl]
    exact inStep_append_iff h payload
  have hpos := Nat.pos_of_ne_zero hzero
  simp only [halign, hzero, or_self, ↓reduceIte, gt_iff_lt, hpos]
  by_cases hfull : s.pool.remaining < pad
  · -- the segment is sealed before the payload comes
    simp only [hfull, ↓reduceIte]
    by_cases hnew : s.Unmapped
    · rw [inStep_append_iff ((inStep_sealAndRotate_iff h).mpr hnew)]
      exact (and_iff_right hnew).symm
    · -- the old mapping of the sealed segment stays for good
      have hstray : s.sealAndRotate.cache.Stray s.pool.activeId :=
        h.stray_add (not_not.mp hnew) _
      have hnext : s.sealAndRotate.pool.activeId ≠ s.pool.activeId := Nat.succ_ne_self _
      exact iff_of_false (stray_append hstray hnext payload).not_inStep fun hc => hnew hc.1
  · simp only [hfull, ↓reduceIte]
    rcases append_pad hpos (Nat.not_lt.mp hfull) with ⟨hno, err, happ⟩ |
      ⟨hyes, loc, t, happ, hcache, hid, hrem⟩
    · simp only [happ]
      -- the padding is refused, and nothing changes
      exact iff_of_true h fun hc => absurd ⟨hc.1, hc.2.1⟩ hno
    · -- the padding is written, and the payload may open the next segment
      simp only [happ]
      rw [inStep_append_iff (hcache ▸ h), Rotates, Unmapped, hid, hcache, hrem]
      constructor
      · intro hall hc
        exact hall ⟨hc.2.2.1, by omega⟩
      · intro hall hrot
        exact hall ⟨hyes.1, hyes.2, hrot.1, by omega⟩

/-- The pool of a run is the pool of the same calls without a cache. -/
theorem appendAligned_pool (s : MappedPool) (payload : Bytes) (align : Nat) :
    (s.appendAligned payload align).1 = (s.pool.appendAligned payload align).1 ∧
      (s.appendAligned payload align).2.pool = (s.pool.appendAligned payload align).2 := by
  simp only [appendAligned, SegmentPool.appendAligned]
  generalize (align - s.pool.activeCursor % align) % align = pad
  -- the alignment is refused
  split
  · exact ⟨rfl, rfl⟩
  split
  · split
    · -- no room for the pad: rotate, then append
      exact ⟨rfl, rfl⟩
    · -- the padding has the same outcome on both sides
      have hres : (s.append (List.replicate pad 0)).1 =
        (s.pool.append (List.replicate pad 0)).1 := rfl
      have hpool : (s.append (List.replicate pad 0)).2.pool =
        (s.pool.append (List.replicate pad 0)).2 := rfl
      cases happ : s.append (List.replicate pad 0) with
      | mk res t =>
        rw [happ] at hres hpool
        cases hout : s.pool.append (List.replicate pad 0) with
        | mk res' q =>
          rw [hout] at hres hpool
          obtain rfl : res = res' := hres
          obtain rfl : t.pool = q := hpool
          cases res with
          | error err => exact ⟨rfl, rfl⟩
          | ok loc => exact ⟨rfl, rfl⟩
  · -- the cursor is aligned already
    exact ⟨rfl, rfl⟩

/-- A read changes the cache and the list of the readers. -/
theorem sealedHandle_frame (s : MappedPool) (segId : Nat) :
    (s.sealedHandle segId).2.pool = s.pool ∧
      (s.sealedHandle segId).2.cache = (s.cache.sealedHandle s.held s.pool segId).2 := by
  simp only [sealedHandle]
  split
  · rename_i heq
    rw [heq]
    exact ⟨rfl, rfl⟩
  · rename_i heq
    rw [heq]
    exact ⟨rfl, rfl⟩

/-- One use of the pool. -/
theorem inStep_step_iff (h : s.cache.InStep) (use : PoolUse) :
    (s.step use).cache.InStep ↔ s.SealsUnmapped use := by
  cases use with
  | append payload => exact inStep_append_iff h payload
  | appendAligned payload align => exact inStep_appendAligned_iff h payload align
  | sealedHandle segId =>
    refine iff_of_true ?_ trivial
    rw [step, (sealedHandle_frame s segId).2]
    exact h.sealedHandle s.pool segId
  | drop reader => exact iff_of_true h trivial

/-- In all states of a run the queue lists each mapped segment exactly once, if and only if the
    run never seals a segment that is mapped for reading. -/
theorem queue_in_step_iff (d : SegDir) (segSize : Nat) (uses : List PoolUse) :
    Run.Guarded step SealsUnmapped («open» d segSize) uses ↔
      ∀ pre, pre <+: uses → (Run.exec step («open» d segSize) pre).cache.InStep := by
  have hstep : ∀ (s : MappedPool) (use : PoolUse), True → s.cache.InStep →
      ((s.step use).cache.InStep ↔ s.SealsUnmapped use) := fun s use _ h => inStep_step_iff h use
  exact Run.guarded_iff (fun _ _ _ => trivial) hstep trivial inStep_empty

/-- A segment that is read while it is written is queued twice once it is sealed, whether or
    not its readers are still there. -/
theorem not_inStep_of_read (h : s.cache.InStep) (hmem : s.pool.activeId ∈ s.pool.dir.files)
    {payload : Bytes} (hrot : s.Rotates payload) (readers : List Nat) :
    ¬({ (s.sealedHandle s.pool.activeId).2 with readers }.append payload).2.cache.InStep := by
  obtain ⟨hpool, hcache⟩ := sealedHandle_frame s s.pool.activeId
  intro hlater
  rw [inStep_append_iff (hcache ▸ h.sealedHandle s.pool _)] at hlater
  refine hlater ?_ ?_
  · rw [Rotates, hpool]
    exact hrot
  · rw [hpool, hcache]
    exact mem_sealedHandle hmem

/-- Segment `0` is read while it is written, and then the next append seals it. -/
theorem queued_twice : ¬(Run.exec step («open» .empty 16) [.append (List.replicate 16 0),
    .sealedHandle 0, .drop 0, .append (List.replicate 16 0)]).cache.InStep := by
  have hstay : ¬(«open» .empty 16).Rotates (List.replicate 16 0) := by decide
  have hfull : (step («open» .empty 16) (.append (List.replicate 16 0))).cache.InStep :=
    (inStep_append_iff inStep_empty _).mpr fun hrot => absurd hrot hstay
  exact not_inStep_of_read hfull (by decide) (by decide) _

end MappedPool

/-! ### The bound -/

namespace HandleCache

variable {c : HandleCache} {held : Nat → Bool}

/-- What an eviction of `c` that ends in `c'` is for: no held mapping is dropped, queue and map
    are in step, and at most 64 segments are mapped or all that are left are held. -/
structure Evicted (held : Nat → Bool) (c c' : HandleCache) : Prop where
  kept : ∀ seg, held seg = true → c'.handles.lookup seg = c.handles.lookup seg
  inStep : c'.InStep
  bounded : c'.handles.keys.length ≤ 64 ∨ ∀ seg ∈ c'.handles, held seg = true

/-- A queue in step is as long as there are mappings. -/
theorem InStep.length_keys (h : c.InStep) : c.handles.keys.length = c.lru.length :=
  ((List.perm_ext_iff_of_nodup h.1 c.handles.keys_nodup).mpr fun seg => h.2 seg).length_eq.symm

/-- What is at the end of the queue has been found held since the loop began, and the rest of the
    queue shortens with every round. -/
theorem InStep.evictLoop_bound (h : c.InStep) {queueLen touched : Nat} {front back : List Nat}
    (hlru : c.lru = front ++ back) (hback : ∀ seg ∈ back, held seg = true)
    (hrounds : front.length + touched ≤ queueLen) :
    (c.evictLoop held queueLen touched).lru.length ≤ sealedCacheCap ∨
      ∀ seg ∈ (c.evictLoop held queueLen touched).lru, held seg = true := by
  fun_induction HandleCache.evictLoop held queueLen touched c generalizing front back with
  | case1 touched c hrun hnil =>
    -- the queue is empty
    left
    rw [hnil]
    exact Nat.zero_le _
  | case2 touched c hrun candidate rest hcons hsafe ih =>
    -- it is not held, so it is not one of those that were seen
    cases front with
    | nil =>
      rw [hcons, List.nil_append] at hlru
      exact absurd (hback candidate (hlru ▸ List.mem_cons_self)) hsafe.2
    | cons head front =>
      obtain ⟨rfl, hrest⟩ := List.cons.inj (hcons.symm.trans hlru)
      rw [List.length_cons] at hrounds
      exact ih (h.pop hcons) hrest hback (by omega)
  | case3 touched c hrun candidate rest hcons hsafe ih =>
    -- the candidate is mapped, so it can only have been held
    have hin : candidate ∈ c.handles := (h.2 candidate).mp (hcons ▸ List.mem_cons_self)
    have hheld : held candidate = true := by
      by_contra hfree
      exact hsafe ⟨AList.lookup_isSome.mpr hin, hfree⟩
    cases front with
    -- a second round: all of them have been seen to be held
    | nil =>
      refine ih (h.requeue hcons) (List.nil_append _).symm (fun seg hseg => ?_) (by simp; omega)
      rcases List.mem_append.mp hseg with hseg | hseg
      · refine hback seg ?_
        rw [List.nil_append] at hlru
        rw [← hlru, hcons]
        exact List.mem_cons_of_mem _ hseg
      · rw [List.mem_singleton.mp hseg]
        exact hheld
    | cons head front =>
      -- it joins those that were seen
      obtain ⟨rfl, hrest⟩ := List.cons.inj (hcons.symm.trans hlru)
      rw [List.length_cons] at hrounds
      have hqueue : rest ++ [candidate] = front ++ (back ++ [candidate]) := by
        rw [hrest]
        exact List.append_assoc front back [candidate]
      refine ih (h.requeue hcons) hqueue (fun seg hseg => ?_) (by omega)
      rcases List.mem_append.mp hseg with hseg | hseg
      · exact hback seg hseg
      · rw [List.mem_singleton.mp hseg]
        exact hheld
  | case4 touched c hstop =>
    by_cases hcap : c.lru.length ≤ sealedCacheCap
    · exact .inl hcap
    · -- the whole queue has been seen
      right
      have hnone : front = [] := List.length_eq_zero_iff.mp (by omega)
      rw [hlru, hnone]
      exact hback

/-- The eviction of the segment pool does what it is for. -/
theorem InStep.evictSealed (h : c.InStep) (held : Nat → Bool) :
    Evicted held c (c.evictSealed held) := by
  have hin : (c.evictSealed held).InStep := h.evictLoop _ _
  refine ⟨fun seg hheld => lookup_evictLoop hheld _ _, hin, ?_⟩
  rw [hin.length_keys]
  have hqueue : c.lru = c.lru ++ [] := (List.append_nil _).symm
  have hbound : (c.evictSealed held).lru.length ≤ sealedCacheCap ∨
      ∀ seg ∈ (c.evictSealed held).lru, held seg = true :=
    h.evictLoop_bound hqueue (by simp) (Nat.le_refl _)
  exact hbound.imp_right fun hall seg hseg => hall seg ((hin.2 seg).mpr hseg)

section Queue

variable {queue : List Nat} {handles : AList (fun _ : Nat => MmapHandle)}

/-- One pass over the queue takes segments out of both. -/
theorem InStep.evictQueue (h : InStep ⟨handles, queue⟩) :
    (evictQueue held queue handles).InStep := by
  induction queue generalizing handles with
  | nil => exact h
  | cons candidate rest ih =>
    simp only [HandleCache.evictQueue]
    split
    · split
      · exact ih (h.pop rfl)
      · exact h.requeue rfl
    · exact h

/-- A held mapping stays. -/
theorem lookup_evictQueue {seg : Nat} (hheld : held seg = true) :
    (evictQueue held queue handles).handles.lookup seg = handles.lookup seg := by
  induction queue generalizing handles with
  | nil => rfl
  | cons candidate rest ih =>
    simp only [HandleCache.evictQueue]
    split
    · split
      · rename_i hsafe
        rw [ih]
        refine AList.lookup_erase_ne fun heq => ?_
        subst heq
        exact hsafe.2 hheld
      · rfl
    · rfl

/-- No held mapping is among those that are too many, or all of them are held from the first
    held one on. -/
def Suffices (held : Nat → Bool) (queue : List Nat) : Prop :=
  (∀ seg ∈ queue.take (queue.length - 64), held seg = false) ∨
    ∀ seg ∈ queue.dropWhile fun seg => !held seg, held seg = true

/-- When the pass brings the queue to its bound, or finds only held mappings. -/
theorem evictQueue_bound (h : InStep ⟨handles, queue⟩) :
    ((evictQueue held queue handles).lru.length ≤ vecSealedCacheCap ∨
      ∀ seg ∈ (evictQueue held queue handles).lru, held seg = true) ↔ Suffices held queue := by
  induction queue generalizing handles with
  -- an empty queue is short enough
  | nil =>
    refine iff_of_true (.inl (Nat.zero_le _)) (.inl fun seg hseg => ?_)
    simp at hseg
  | cons candidate rest ih =>
    have hin : candidate ∈ handles := (h.2 candidate).mp List.mem_cons_self
    simp only [HandleCache.evictQueue, Suffices, AList.lookup_isSome.mpr hin, true_and]
    by_cases hfull : (candidate :: rest).length > vecSealedCacheCap
    · rw [if_pos hfull]
      rw [List.length_cons, vecSealedCacheCap] at hfull
      have hover : (candidate :: rest).length - 64 = rest.length - 64 + 1 := by
        rw [List.length_cons]
        omega
      rw [hover, List.take_succ_cons]
      cases hheld : held candidate with
      | false =>
        -- it is dropped
        rw [if_pos Bool.false_ne_true, ih (h.pop rfl)]
        simp [Suffices, hheld]
      | true =>
        -- the loop ends here
        have hperm := List.perm_append_singleton candidate rest
        have hlong : ¬(rest ++ [candidate]).length ≤ vecSealedCacheCap := by
          rw [hperm.length_eq, List.length_cons, vecSealedCacheCap]
          omega
        have hhead : ¬∀ seg ∈ candidate :: rest.take (rest.length - 64), held seg = false := by
          intro hfree
          rw [hfree candidate List.mem_cons_self] at hheld
          cases hheld
        have hdrop : (candidate :: rest).dropWhile (fun seg => !held seg) = candidate :: rest :=
          List.dropWhile_cons_of_neg (by simp [hheld])
        rw [if_neg (fun hc => hc rfl), or_iff_right hlong, or_iff_right hhead, hdrop]
        exact forall_congr' fun seg => imp_congr_left hperm.mem_iff
    · -- short enough, so the loop does nothing
      rw [if_neg hfull]
      rw [vecSealedCacheCap] at hfull
      refine iff_of_true (.inl (Nat.not_lt.mp hfull)) (.inl fun seg hseg => ?_)
      rw [show (candidate :: rest).length - 64 = 0 by omega] at hseg
      simp at hseg

end Queue

/-- The eviction of the vector pool does what it is for, if the loop does not end too soon. -/
theorem InStep.evict_iff (h : c.InStep) (held : Nat → Bool) :
    Evicted held c (c.evict held) ↔ Suffices held c.lru := by
  have hin : (c.evict held).InStep := h.evictQueue
  have hbound : ((c.evict held).lru.length ≤ vecSealedCacheCap ∨
      ∀ seg ∈ (c.evict held).lru, held seg = true) ↔ Suffices held c.lru := evictQueue_bound h
  rw [← hbound]
  constructor
  · intro hdone
    have hend := hdone.bounded
    rw [hin.length_keys] at hend
    exact hend.imp_right fun hall seg hseg => hall seg ((hin.2 seg).mp hseg)
  · intro hend
    refine ⟨fun seg hheld => lookup_evictQueue hheld, hin, ?_⟩
    rw [hin.length_keys]
    exact hend.imp_right fun hall seg hseg => hall seg ((hin.2 seg).mpr hseg)

/-- For every cache with its queue in step and all sets of held mappings, the evictions of both
    pools reach their bound if and only if that of the vector pool does not end too soon. -/
theorem evictions_bound_iff (c : HandleCache) (h : c.InStep) (held : Nat → Bool) :
    (Evicted held c (c.evictSealed held) ∧ Evicted held c (c.evict held)) ↔
      Suffices held c.lru := by
  rw [h.evict_iff held]
  exact and_iff_right (h.evictSealed held)

/-- The segments of the cache below. -/
private theorem map_fst_range (n : Nat) :
    ((List.range n).map fun seg => (⟨seg, ⟨seg, 16⟩⟩ : Sigma fun _ : Nat => MmapHandle)).keys =
      List.range n := by
  rw [List.keys, List.map_map]
  exact List.map_id _

/-- The cache after `n` segments were mapped, one after the other. -/
def ofRange (n : Nat) : HandleCache where
  handles := ⟨(List.range n).map fun seg => ⟨seg, ⟨seg, 16⟩⟩,
    by rw [List.NodupKeys, map_fst_range]; exact List.nodup_range⟩
  lru := List.range n

/-- A cache filled in order is in step. -/
theorem inStep_ofRange (n : Nat) : (ofRange n).InStep := by
  refine ⟨List.nodup_range, fun seg => ?_⟩
  have hkeys : (ofRange n).handles.keys = List.range n := map_fst_range n
  show seg ∈ List.range n ↔ seg ∈ (ofRange n).handles.keys
  rw [hkeys]

/-- Nobody reads: both caches go down to their bound. -/
theorem evictions_bound_free :
    Evicted (fun _ => false) (ofRange 66) ((ofRange 66).evictSealed fun _ => false) ∧
      Evicted (fun _ => false) (ofRange 66) ((ofRange 66).evict fun _ => false) :=
  (evictions_bound_iff (ofRange 66) (inStep_ofRange 66) _).mpr (.inl fun _ _ => rfl)

/-- One reader of the oldest mapping keeps all 66 of the vector pool. -/
theorem evict_stops_at_held : (ofRange 66).InStep ∧
    ¬(Evicted (fun seg => seg = 0) (ofRange 66) ((ofRange 66).evictSealed fun seg => seg = 0) ∧
      Evicted (fun seg => seg = 0) (ofRange 66) ((ofRange 66).evict fun seg => seg = 0)) := by
  refine ⟨inStep_ofRange 66, fun hboth => ?_⟩
  have hsuff := ((inStep_ofRange 66).evict_iff _).mp hboth.2
  exact absurd hsuff (by unfold Suffices; decide)

end HandleCache

end FusionStore
