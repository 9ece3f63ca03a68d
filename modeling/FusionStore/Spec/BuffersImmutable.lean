import FusionStore.Native.Readers
import FusionStore.Spec.ColumnarRefines

/-!
# A buffer shows the same bytes for ever

Readers keep zero-copy buffers for as long as they like, while the store goes on: the key is
overwritten or deleted, segments are sealed and their mappings evicted, commits fail and the
cursor goes back, a call panics.  The range of a buffer lies before the position of the pool,
and no call of a session writes before it (`Writer.Keeps`), so what the buffer shows is the
value its reader asked for.

## Key results

- `KvSession.buffer_stays`: the buffers of `get_kv_zero_copy`
- `ColSession.buffers_stay`: the buffers under the columns of `get_columnar_zero_copy`
-/

namespace FusionStore

/-- A buffer of a range that is held shows the bytes of the range, and goes on to do so. -/
theorem ZeroCopyBuffer.asBytes_of_keeps {p q : SegmentPool} {loc : ValueLocator} (n : Nat)
    (h : p.writer.Holds loc) (hk : p.writer.Keeps q.writer) :
    asBytes ⟨⟨loc.segId, n⟩, loc.offset, loc.len⟩ q = p.writer.bytesAt loc :=
  hk.bytesAt loc h

/-- The 64-bit sum cannot overflow where the range ends inside the mapping. -/
theorem ZeroCopyBuffer.new_of_le {segId n offset len : Nat} (hle : offset + len ≤ n)
    (hn : n ≤ u64Max) : new ⟨segId, n⟩ offset len = .ok ⟨⟨segId, n⟩, offset, len⟩ := by
  have hsum : offset + len ≤ u64Max := Nat.le_trans hle hn
  rw [new, if_neg (Nat.not_lt.mpr hsum), if_neg (Nat.not_lt.mpr hle)]

/-! ### The KV store -/

/-- What heed finds is what the map holds. -/
theorem KvStore.lookup_of_heedGet {db : AList (fun _ : Bytes => ValueLocator)} {key : Bytes}
    {found : Option ValueLocator} (h : heedGet db key = .ok found) : db.lookup key = found := by
  unfold heedGet at h
  split at h
  · exact nomatch h
  · exact Except.ok.inj h

namespace KvSession

variable {σ : KvSession}

/-- What holds of a session after any calls, also after one that panicked. -/
structure Sound (σ : KvSession) : Prop where
  pool : σ.store.pool.writer.Inv
  segSize_le : σ.store.pool.segSize ≤ u64Max
  holds : ∀ key, σ.store.Good key
  values : ∀ key, σ.store.view key = σ.values.lookup key
  cache : σ.cache.Faithful σ.store.pool.segSize

/-- An empty store is sound. -/
theorem sound_start {segSize : Nat} (hsize : segSize ≤ u64Max) (quotaLimit : Nat) :
    (start segSize quotaLimit).Sound where
  pool := SegmentPool.writer_inv_open_empty segSize
  segSize_le := by
    show (if segSize = 0 then defaultSegmentSize else segSize) ≤ u64Max
    split
    · decide
    · exact hsize
  holds key loc hl := nomatch hl
  values _ := rfl
  cache := HandleCache.faithful_empty _

/-- The pool moves on and the table stays. -/
private theorem Sound.of_keeps (h : σ.Sound) {pool : SegmentPool} (hinv : pool.writer.Inv)
    (hk : σ.store.pool.writer.Keeps pool.writer) {cache : HandleCache}
    (hc : cache.Faithful σ.store.pool.segSize) (poisoned : Bool) :
    Sound ⟨{ σ.store with pool }, cache, poisoned, σ.values⟩ := by
  have hsize : pool.segSize = σ.store.pool.segSize := hk.segSize
  have hgood := fun key => KvStore.good_of_keeps hk (h.holds key)
  rw [← hsize] at hc
  exact ⟨hinv, hsize ▸ h.segSize_le, fun key => (hgood key).1,
    fun key => (hgood key).2.trans (h.values key), hc⟩

/-- A value was appended and its locator entered. -/
private theorem Sound.stored (h : σ.Sound) {key value : Bytes} {loc : ValueLocator}
    {pool : SegmentPool} (ha : σ.store.pool.Appended value loc pool) {cache : HandleCache}
    (hc : cache.Faithful σ.store.pool.segSize) (poisoned : Bool) :
    Sound ⟨σ.store.stored key value loc pool, cache, poisoned, σ.values.insert key value⟩ := by
  have hsize : pool.segSize = σ.store.pool.segSize := ha.keeps.segSize
  rw [← hsize] at hc
  refine ⟨ha.inv, hsize ▸ h.segSize_le, fun k l hl => ?_, fun k => ?_, hc⟩
  · by_cases hk : k = key
    · subst hk
      obtain rfl : loc = l := by simpa [KvStore.stored, Stored.write] using hl
      exact ha.holds
    · have hl' : σ.store.env.volatile.db.lookup k = some l := by
        simpa [KvStore.stored, Stored.write, AList.lookup_insert_ne hk] using hl
      exact ha.keeps.holds l (h.holds k l hl')
  · show ((σ.store.env.volatile.db.insert key loc).lookup k).map pool.writer.bytesAt = _
    by_cases hk : k = key
    · subst hk
      rw [AList.lookup_insert, AList.lookup_insert, Option.map_some, ha.bytesAt]
    · rw [AList.lookup_insert_ne hk, AList.lookup_insert_ne hk]
      exact (KvStore.good_of_keeps ha.keeps (h.holds k)).2.trans (h.values k)

/-- The table loses a key, or had none of it. -/
private theorem Sound.erased (h : σ.Sound) {key : Bytes} {store : KvStore}
    (hstore : store = σ.store.erased key ∨
      store = σ.store ∧ σ.store.env.volatile.db.lookup key = none) :
    Sound { σ with store, values := σ.values.erase key } := by
  -- either way the key has no locator now
  have hlookup : ∀ k, store.env.volatile.db.lookup k =
      if k = key then none else σ.store.env.volatile.db.lookup k := by
    intro k
    obtain rfl | ⟨rfl, hnone⟩ := hstore
    · by_cases hk : k = key
      · subst hk
        simp [KvStore.erased, Stored.write]
      · simp [KvStore.erased, Stored.write, hk, AList.lookup_erase_ne hk]
    · split
      · rename_i hk
        rw [hk, hnone]
      · rfl
  have hpool : store.pool = σ.store.pool := by
    obtain rfl | ⟨rfl, -⟩ := hstore <;> rfl
  -- the pool is not touched by a delete
  refine ⟨hpool ▸ h.pool, hpool ▸ h.segSize_le, fun k l hl => ?_, fun k => ?_, hpool ▸ h.cache⟩
  · simp only [hlookup k] at hl
    split at hl
    · cases hl
    · exact hpool ▸ h.holds k l hl
  · show (store.env.volatile.db.lookup k).map store.pool.writer.bytesAt = _
    rw [hlookup k, hpool]
    split
    · rename_i hk
      rw [hk, AList.lookup_erase]
      rfl
    · rename_i hk
      rw [AList.lookup_erase_ne hk]
      exact h.values k

/-- The session finds the buffer of a stored value, and reading it changes the cache only. -/
theorem Sound.getBuffer (h : σ.Sound) (key : Bytes) (held : Nat → Bool) :
    (σ.getBuffer key held).2.Sound ∧ (σ.getBuffer key held).2.store = σ.store ∧
    ∀ b, (σ.getBuffer key held).1 = .ok (some b) →
      ∃ loc, σ.store.env.volatile.db.lookup key = some loc ∧
        b = ⟨⟨loc.segId, σ.store.pool.segSize⟩, loc.offset, loc.len⟩ := by
  unfold KvSession.getBuffer
  split
  · rename_i hget
    -- the empty key
    exact ⟨h, rfl, fun b hb => nomatch hb⟩
  · -- the key is not there
    exact ⟨h, rfl, fun b hb => by simp at hb⟩
  · rename_i loc hget
    have hl := KvStore.lookup_of_heedGet hget
    split
    · exact ⟨h, rfl, fun b hb => nomatch hb⟩
    · -- the locator is inside its segment, so the buffer is built
      have hh := h.holds key loc hl
      obtain ⟨hfound, hfaithful⟩ := h.cache.sealedHandle held hh.1
      cases hs : σ.cache.sealedHandle held σ.store.pool loc.segId with
      | mk res cache =>
        simp only [hs] at hfound hfaithful
        subst hfound
        refine ⟨⟨h.pool, h.segSize_le, h.holds, h.values, hfaithful⟩, rfl, ?_⟩
        intro b (hb : (ZeroCopyBuffer.new _ _ _).map some = .ok (some b))
        have hnew : ZeroCopyBuffer.new ⟨loc.segId, σ.store.pool.segSize⟩ loc.offset loc.len =
            .ok ⟨⟨loc.segId, σ.store.pool.segSize⟩, loc.offset, loc.len⟩ :=
          ZeroCopyBuffer.new_of_le hh.2.1 h.segSize_le
        rw [hnew] at hb
        exact ⟨loc, hl, (Option.some.inj (Except.ok.inj hb)).symm⟩

/-- `KvSession.get` is `getBuffer` with the bytes the buffer shows at once. -/
theorem Sound.get_eq (h : σ.Sound) (key : Bytes) (held : Nat → Bool) :
    σ.get key held = ((σ.getBuffer key held).1.map (Option.map (·.asBytes σ.store.pool)),
      (σ.getBuffer key held).2) := by
  unfold KvSession.get KvSession.getBuffer
  cases hget : KvStore.heedGet σ.store.env.volatile.db key with
  | error e => rfl
  | ok found =>
    cases found with
    | none => rfl
    | some loc =>
      have hh := h.holds key loc (KvStore.lookup_of_heedGet hget)
      obtain ⟨hfound, -⟩ := h.cache.sealedHandle held hh.1
      cases hs : σ.cache.sealedHandle held σ.store.pool loc.segId with
      | mk res cache =>
        rw [hs] at hfound
        obtain rfl : res = .ok ⟨loc.segId, σ.store.pool.segSize⟩ := hfound
        have hnew : ZeroCopyBuffer.new ⟨loc.segId, σ.store.pool.segSize⟩ loc.offset loc.len =
            .ok ⟨⟨loc.segId, σ.store.pool.segSize⟩, loc.offset, loc.len⟩ :=
          ZeroCopyBuffer.new_of_le hh.2.1 h.segSize_le
        simp only [hs, zeroCopy_of_holds hh, hnew]
        split <;> rfl

/-- One call, with or without a panic: the session stays sound, and what its pool held it
    still holds. -/
theorem Sound.step (h : σ.Sound) (call : KvCall) :
    (σ.step call).Sound ∧ σ.store.pool.writer.Keeps (σ.step call).store.pool.writer := by
  cases call with
  | put key value locked commit held =>
    simp only [KvSession.step, KvSession.put]
    split
    · -- the mutex of the pool is poisoned
      exact ⟨h, .refl _⟩
    · have hcache := h.cache.follow held
      obtain ⟨-, -, -, loc, pool, hput, ha⟩ | ⟨-, err, pool, hput, hinv, hk, -⟩ :=
        KvStore.putKv_outcome h.pool key value locked commit
      · rw [hput]
        -- the put went through, behind the bytes there were
        exact ⟨h.stored ha (hcache _) _, ha.keeps⟩
      · -- it failed, perhaps after an append and a rewind
        rw [hput]
        exact ⟨h.of_keeps hinv hk (hcache _) _, hk⟩
  | delete key locked commit =>
    simp only [KvSession.step, KvSession.delete]
    obtain ⟨-, -, -, -, hdel⟩ | ⟨-, -, hnone, hdel⟩ | ⟨-, err, hdel⟩ :=
      σ.store.deleteKv_outcome key locked commit
    · -- the key was there, it was not, or the delete failed
      rw [hdel]
      exact ⟨h.erased (.inl rfl), .refl _⟩
    · rw [hdel]
      exact ⟨h.erased (.inr ⟨rfl, hnone⟩), .refl _⟩
    · rw [hdel]
      exact ⟨h, .refl _⟩
  | get key held =>
    obtain ⟨hs, hstore, -⟩ := h.getBuffer key held
    simp only [KvSession.step, h.get_eq key held]
    exact ⟨hs, by rw [hstore]; exact .refl _⟩
  | flush =>
    simp only [KvSession.step, KvSession.flush]
    split
    · exact ⟨h, .refl _⟩
    · -- a flush records the cursor and leaves the bytes
      have hk := SegmentPool.keeps_flush σ.store.pool
      have hgood := fun key => KvStore.good_of_keeps hk (h.holds key)
      exact ⟨⟨⟨h.pool.cursor_le, h.pool.mem, h.pool.le⟩, h.segSize_le, fun key => (hgood key).1,
        fun key => (hgood key).2.trans (h.values key), h.cache⟩, hk⟩

/-- Any calls keep the store sound and the bytes it has handed out. -/
theorem Sound.exec (h : σ.Sound) (calls : List KvCall) :
    (Run.exec KvSession.step σ calls).Sound ∧
      σ.store.pool.writer.Keeps (Run.exec KvSession.step σ calls).store.pool.writer := by
  induction calls generalizing σ with
  | nil => exact ⟨h, .refl _⟩
  | cons call calls ih =>
    obtain ⟨hs, hk⟩ := h.step call
    exact ⟨(ih hs).1, hk.trans (ih hs).2⟩

/-- Whatever a session did before and does after a read, the buffer it handed out shows the
    value that was last put under the key before the read and not deleted since. -/
theorem buffer_stays (segSize quotaLimit : Nat) (hsize : segSize ≤ u64Max)
    (before after : List KvCall) (key : Bytes) (held : Nat → Bool) (b : ZeroCopyBuffer)
    (hb : ((Run.exec step (start segSize quotaLimit) before).getBuffer key held).1 =
      .ok (some b)) :
    let σ := Run.exec step (start segSize quotaLimit) before
    let later := Run.exec step (σ.getBuffer key held).2 after
    some (b.asBytes later.store.pool) = σ.values.lookup key := by
  intro σ later
  have h : σ.Sound := ((sound_start hsize quotaLimit).exec before).1
  obtain ⟨hs, hstore, hfound⟩ := h.getBuffer key held
  obtain ⟨loc, hl, rfl⟩ := hfound b hb
  have hk : σ.store.pool.writer.Keeps later.store.pool.writer := by
    have := (hs.exec after).2
    rwa [hstore] at this
  rw [ZeroCopyBuffer.asBytes_of_keeps _ (h.holds key loc hl) hk, ← h.values key, KvStore.view, hl,
    Option.map_some]

/-- A buffer taken under a key shows its value while the key is overwritten, the segment is
    sealed, the key deleted, and a put that did not commit written over. -/
theorem buffer_stays_overwritten :
    let before : List KvCall := [.put [1] [7, 8] true none fun _ => false]
    let after : List KvCall :=
      [.put [1] [9, 9, 9] true none fun _ => true, .delete [1] true none,
        .put [2] [5] true (some .notFound) fun _ => true, .put [2] [6, 6] true none fun _ => true]
    let σ := Run.exec step (start 4 0) before
    some ((⟨⟨0, 4⟩, 0, 2⟩ : ZeroCopyBuffer).asBytes
        (Run.exec step (σ.getBuffer [1] fun _ => false).2 after).store.pool) =
      σ.values.lookup [1] :=
  buffer_stays 4 0 (by decide) [.put [1] [7, 8] true none fun _ => false]
    [.put [1] [9, 9, 9] true none fun _ => true, .delete [1] true none,
      .put [2] [5] true (some .notFound) fun _ => true, .put [2] [6, 6] true none fun _ => true]
    [1] (fun _ => false) ⟨⟨0, 4⟩, 0, 2⟩ rfl

end KvSession

/-! ### The columnar store -/

namespace ColumnarStore

/-- The buffers of the selected columns of a held table, read in a later state of the pool. -/
theorem tableBuffers_held {s : ColumnarStore} {q : SegmentPool} (rows : Nat)
    (hk : s.pool.writer.Keeps q.writer) (pick : String → Bool) {metas : List ColumnMeta}
    {cs : List Column} (h : List.Forall₂ (ColumnHeld s.pool.writer) metas cs)
    (hsize : ∀ c ∈ cs, c.WellSized rows) :
    ((metas.filter fun m => pick m.name).map (s.columnBuffer rows)).map (·.asBytes q) =
      (cs.filter fun c => pick c.name).map Column.values := by
  induction h with
  | nil => rfl
  | @cons m c metas cs hm _ ih =>
    have htail := ih fun c hc => hsize c (List.mem_cons_of_mem _ hc)
    have hlen : m.dtype.bufferLen rows = m.len := by
      rw [← hsize c List.mem_cons_self m.dtype hm.dtype, ← hm.bytesAt]
      exact SegMem.length_read _ _ _ _
    have hhead : (s.columnBuffer rows m).asBytes q = c.values := by
      unfold columnBuffer
      rw [hlen]
      exact (ZeroCopyBuffer.asBytes_of_keeps _ hm.holds hk).trans hm.bytesAt
    simp only [List.filter_cons, hm.name]
    cases pick c.name with
    | false => exact htail
    | true => simp only [↓reduceIte, List.map_cons, hhead, htail]

end ColumnarStore

namespace ColSession

variable {σ : ColSession}

/-- One call, with or without a panic. -/
theorem ready_step (h : σ.store.pool.Ready) (call : ColCall) :
    (σ.step call).store.pool.Ready ∧
      σ.store.pool.writer.Keeps (σ.step call).store.pool.writer := by
  cases call with
  | putColumnar tableId batch locked commit =>
    simp only [step, putColumnar]
    split
    · exact ⟨h, .refl _⟩
    · obtain ⟨metas, pool, used, hput, -, hr, hk, -⟩ | ⟨err, pool, hput, hr, hk⟩ :=
        ColumnarStore.putColumnar_spec h tableId batch locked commit
      · rw [hput]
        exact ⟨hr, hk⟩
      · rw [hput]
        exact ⟨hr, hk⟩
  | flush =>
    simp only [step, flush]
    split
    · exact ⟨h, .refl _⟩
    · have hk := SegmentPool.keeps_flush σ.store.pool
      exact ⟨h.of_keeps ⟨h.writer.cursor_le, h.writer.mem, h.writer.le⟩ hk, hk⟩

/-- Any calls on the tables keep the bytes, too. -/
theorem keeps_exec (h : σ.store.pool.Ready) (calls : List ColCall) :
    σ.store.pool.writer.Keeps (Run.exec step σ calls).store.pool.writer := by
  induction calls generalizing σ with
  | nil => exact .refl _
  | cons call calls ih =>
    obtain ⟨hr, hk⟩ := ready_step h call
    exact hk.trans (ih hr)

/-- The columns of a table that was read show the last batch put as the table, whatever the
    session does afterwards: another batch under the same name, rejected tables that are taken
    back, rotations, a panic. -/
theorem buffers_stay (segSize quotaLimit : Nat) (hsize : segSize ≤ u32Max)
    (before after : List ColCall)
    (hret : Run.Guarded step CallReturns (start segSize quotaLimit) before)
    (tableId : String) (columns : List String) :
    let σ := Run.exec step (start segSize quotaLimit) before
    let later := Run.exec step σ after
    (σ.store.tableBuffers tableId columns).map (·.asBytes later.store.pool) =
      match (σ.tables.lookup tableId).bind fun b => b.select columns with
      | some b => b.columns.map Column.values
      | none => [] := by
  intro σ later
  -- what was stored before the read, and what the pool keeps after it
  have h : σ.Inv := hret.invariant Inv (fun _ call h hr => inv_step h call hr)
    (inv_start hsize quotaLimit)
  have hk : σ.store.pool.writer.Keeps later.store.pool.writer := keeps_exec h.pool after
  unfold ColumnarStore.tableBuffers
  cases hl : σ.tables.lookup tableId with
  -- the table was never put
  | none => rw [h.absent tableId hl]; rfl
  | some b =>
    obtain ⟨⟨rows, metas⟩, ht, hrows, hcols⟩ := h.stored tableId b hl
    obtain rfl : rows = b.numRows := hrows
    -- the buffers show the columns of the stored batch
    have hheld := ColumnarStore.tableBuffers_held b.numRows hk
      (fun name => columns.isEmpty || name ∈ columns) hcols b.wellSized
    rw [ht]
    simp only [hheld, Option.bind_some, RecordBatch.select]
    split
    · rename_i hsel
      -- some columns were selected
      split at hsel
      · cases hsel
      · exact congrArg (List.map Column.values) (congrArg RecordBatch.columns
          (Option.some.inj hsel))
    · rename_i hsel
      split at hsel
      · -- none was, so there is no buffer
        rename_i hempty
        rw [List.isEmpty_iff.mp hempty, List.map_nil]
      · cases hsel

/-- One row of a number, and one of another number beside a flag. -/
private def oneNumber : RecordBatch := ⟨1, [⟨"a", .int32, 0, [1, 2, 3, 4]⟩], by decide⟩

private def numberAndFlag : RecordBatch :=
  ⟨1, [⟨"a", .int32, 0, [5, 6, 7, 8]⟩, ⟨"f", .boolean, 0, [1]⟩], by decide⟩

/-- In segments of eight bytes the table is replaced, first without a commit. -/
theorem buffers_stay_replaced :
    let before : List ColCall := [.putColumnar "t" oneNumber true none]
    let after : List ColCall :=
      [.putColumnar "t" numberAndFlag true (some .notFound), .flush,
        .putColumnar "t" numberAndFlag true none]
    let σ := Run.exec step (start 8 0) before
    (σ.store.tableBuffers "t" ["a"]).map (·.asBytes (Run.exec step σ after).store.pool) =
      match (σ.tables.lookup "t").bind fun b => b.select ["a"] with
      | some b => b.columns.map Column.values
      | none => [] :=
  buffers_stay 8 0 (by decide) [.putColumnar "t" oneNumber true none]
    [.putColumnar "t" numberAndFlag true (some .notFound), .flush,
      .putColumnar "t" numberAndFlag true none]
    (by decide) "t" ["a"]

end ColSession

end FusionStore
