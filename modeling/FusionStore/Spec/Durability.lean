import FusionStore.Native.DiskTrace
import FusionStore.Spec.Rejected

/-!
# Power loss

A power loss keeps the log, the marker, the cursor sidecar and the snapshot file, which
are synced when they are written, and of everything else the durable copy only.  That is
enough to get back every acknowledged operation as long as the log is never shortened by
an entry whose effect is volatile.  `checkpoint` flushes the KV store before it truncates,
but never the heed table of the vector index; recovery truncates without any flush.
-/

namespace FusionStore

variable (A : F32Arith) (I : Ipc)

/-! ### The disk states of an event -/

namespace Engine

/-- The last state inside a write is the one after it. -/
private theorem getLast_writeTrace (e : Engine) (locked : Bool) (w : Write) :
    (e.writeTrace A locked w).getLast? = some (e.call A I (w.call locked)).2 := by
  rw [call_write]
  unfold writeTrace
  cases e.wal.append w.op with
  | error err => rfl
  | ok p => rfl

/-- The same for any call. -/
private theorem getLast_callTrace (e : Engine) (c : Call) :
    (e.callTrace A I c).getLast? = some (e.call A I c).2 := by
  cases c with
  | putKv key value locked => exact getLast_writeTrace A I e locked (.putKv key value)
  | deleteKv key locked => exact getLast_writeTrace A I e locked (.deleteKv key)
  | insertVector id vector => exact getLast_writeTrace A I e true (.insertVector id vector)
  | deleteVector id => exact getLast_writeTrace A I e true (.deleteVector id)
  | checkpoint => exact List.getLast?_append
  | close => exact List.getLast?_append
  | recover => exact List.getLast?_append
  | insertVectorBatch items => rfl
  | putColumnar tableId batch locked => rfl
  | compact order avail => rfl

/-- And for an open. -/
private theorem getLast_openTrace (d : EngineDir) (schema : Option VectorSchema) (quota : Nat)
    (order : MapOrder) :
    (openTrace A I d schema quota order).getLast? =
      some («open» A I d schema quota order).2 := by
  unfold openTrace «open»
  cases openVec A d.vec schema order with
  | mk r left =>
    cases r with
    | error err => rfl
    | ok vec =>
      simp only [recoverTrace, List.map_append, List.map_cons, List.map_nil, ← List.cons_append,
        List.getLast?_append, List.getLast?_singleton, Option.some_or]
      split <;> simp_all

/-- An open that succeeds leaves the files of its engine. -/
private theorem open_left {d : EngineDir} {schema : Option VectorSchema} {quota : Nat}
    {order : MapOrder} {e : Engine} {left : EngineDir}
    (hop : «open» A I d schema quota order = (.ok e, left)) : left = e.dir := by
  unfold «open» at hop
  split at hop
  · exact nomatch (Prod.mk.inj hop).1
  · simp only at hop
    split at hop
    · exact nomatch (Prod.mk.inj hop).1
    · obtain ⟨he, hd⟩ := Prod.mk.inj hop
      rw [← hd, Except.ok.inj he]

end Engine

/-- The trace of an event ends in the state the event leaves. -/
theorem Session.getLast_trace (σ : Session) (ev : Event) :
    (σ.trace A I ev).getLast? = some (σ.step A I ev).host.dir := by
  cases ev with
  | restart schema quota order =>
    simp only [trace, Engine.getLast_openTrace, step]
    cases hop : Engine.open A I σ.host.dir schema quota order with
    | mk r left =>
      cases r with
      | error err => rfl
      | ok e => exact congrArg some (Engine.open_left A I hop)
  | call c =>
    cases hh : σ.host with
    | down d => simp [trace, step, hh, Host.dir]
    | up e =>
      simp only [trace, hh, List.getLast?_map, Engine.getLast_callTrace A I e c, Option.map_some]
      rcases Session.step_call A I hh c with ⟨e', he, hst⟩ | ⟨err, e', he, hst | ⟨-, hst⟩⟩ <;>
        rw [hst, he] <;> rfl

/-! ### The KV store -/

/-- Files in which every locator lies before the recorded cursor. -/
structure KvDir.Whole (d : KvDir) : Prop where
  inv : d.Inv
  covered : ∀ key, d.Covered key

/-- What a power loss would find is in order: the durable table points to bytes that are
    durable and behind which the next process resumes, and the next flush makes the rest
    durable. -/
structure KvStore.Backed (s : KvStore) : Prop where
  holds : ∀ key loc, s.env.durable.db.lookup key = some loc → s.pool.writer.Holds loc
  synced : ∀ key loc, s.env.durable.db.lookup key = some loc → s.pool.writer.Synced loc
  recorded : ∀ key loc, s.env.durable.db.lookup key = some loc →
    SegmentPool.Recorded s.pool.dir loc
  settled : ∀ key loc, s.env.volatile.db.lookup key = some loc → s.pool.writer.Settled loc

namespace KvStore

variable {s s' : KvStore}

/-- The value a power loss leaves of a key. -/
def kept (s : KvStore) (key : Bytes) : Option Bytes :=
  (s.env.durable.db.lookup key).map s.pool.writer.bytesAt

/-- With nothing unflushed a power loss leaves a whole store. -/
theorem Backed.whole (h : s.Backed) (hs : s.Inv) : s.dir.powerLoss.Whole where
  inv := by
    refine ⟨⟨hs.dir.segs.recorded⟩, fun key loc hl => ?_⟩
    obtain ⟨hmem, hle, -⟩ := h.holds key loc hl
    exact ⟨hmem, hs.segSize ▸ hle⟩
  covered := fun key loc hl => h.recorded key loc hl

/-- After a power loss a key shows its durable value. -/
theorem Backed.view_powerLoss (h : s.Backed) (key : Bytes) :
    s.dir.powerLoss.view key = s.kept key := by
  unfold KvDir.view kept
  show (s.env.durable.db.lookup key).map _ = _
  cases hl : s.env.durable.db.lookup key with
  | none => rfl
  | some loc => exact congrArg some (h.synced key loc hl)

/-- One operation leaves the durable copy as it is. -/
theorem Backed.effect (h : s.Backed) (hgood : ∀ key, s.Good key) {op : WalOp}
    (heff : s.Effect s' op) : s'.Backed ∧ ∀ key, s'.kept key = s.kept key := by
  have hkeep := heff.keeps
  refine ⟨⟨?_, ?_, ?_, ?_⟩, ?_⟩
  · -- the durable map is untouched, so each clause is about locators that were there before
    intro key loc hl
    rw [heff.durable] at hl
    exact hkeep.holds loc (h.holds key loc hl)
  · intro key loc hl
    rw [heff.durable] at hl
    exact hkeep.synced loc (h.holds key loc hl) (h.synced key loc hl)
  · intro key loc hl
    rw [heff.durable] at hl
    exact hkeep.recorded loc (h.holds key loc hl) (h.recorded key loc hl)
  · intro key loc hl
    -- the operation's own key: the new value was written to the active segment
    cases hk : kvEffect key op with
    | some eff => exact Or.inl (heff.active key eff hk loc hl)
    | none =>
      rw [heff.lookup key hk] at hl
      exact hkeep.settled loc (hgood key loc hl) (h.settled key loc hl)
  · intro key
    unfold kept
    rw [heff.durable]
    cases hl : s.env.durable.db.lookup key with
    | none => rfl
    | some loc => exact congrArg some (hkeep.bytesAt loc (h.holds key loc hl))

/-- The first two steps of a flush make more bytes durable and move the cursor up. -/
theorem Backed.flushSeg (h : s.Backed) :
    KvStore.Backed
      { s with pool := { s.pool with dir := s.pool.dir.flushSeg s.pool.activeId } } where
  holds := h.holds
  synced key loc hl := Writer.synced_flushSeg (Or.inr (h.synced key loc hl))
  recorded := h.recorded
  settled key loc hl := Or.inr (Writer.synced_flushSeg (h.settled key loc hl))

/-- Flushing the segments alone keeps the values that the table names. -/
theorem Backed.flushPool (h : s.Backed) : KvStore.Backed { s with pool := s.pool.flush } where
  holds := h.holds
  synced key loc hl := Writer.synced_flushSeg (Or.inr (h.synced key loc hl))
  recorded := by
    intro key loc hl p hp
    obtain rfl : (s.pool.activeId, s.pool.activeCursor) = p := Option.mem_some_iff.mp hp
    exact (h.holds key loc hl).2.2
  settled key loc hl := Or.inr (Writer.synced_flushSeg (h.settled key loc hl))

/-- A flush makes everything durable. -/
theorem Backed.flush (h : s.Backed) (hgood : ∀ key, s.Good key) : s.flush.Backed := by
  have hsynced : ∀ key loc, s.env.volatile.db.lookup key = some loc →
      s.flush.pool.writer.Synced loc := by
    intro key loc hl
    exact Writer.synced_flushSeg (h.settled key loc hl)
  refine ⟨?_, hsynced, ?_, fun key loc hl => Or.inr (hsynced key loc hl)⟩
  · intro key loc hl
    exact hgood key loc hl
  · intro key loc hl p hp
    obtain rfl : (s.pool.activeId, s.pool.activeCursor) = p := Option.mem_some_iff.mp hp
    exact (hgood key loc hl).2.2

end KvStore

/-! ### What the durable copy yields -/

/-- After a power loss the directory opens with the schema argument `again` and shows what
    the operations `ops` leave.  Everything else is taken from the durable copy. -/
def EngineDir.Yields (again : Option VectorSchema) (quota : Nat) (d : EngineDir)
    (ops : List WalOp) : Prop :=
  ∀ order, ∃ e, (Engine.open A I d.powerLoss again quota order).1 = .ok e ∧ e.Reflects ops

/-- The durable copy with the log replayed over it is what the operations `ops` leave. -/
structure EngineDir.Restorable (s : VectorSchema) (quota : Nat) (d : EngineDir)
    (ops : List WalOp) : Prop where
  kv : d.kv.powerLoss.Whole
  wal : d.wal.Inv
  index : ∀ env ∈ d.vec.vecMeta, env.volatile.schema = some s
  vec : d.vec.powerLoss.Blank
  replays : ∀ op ∈ d.wal.pendingOps, op.Replayable d.schema
  fits : QuotaFits quota d.kv.env.durable.used d.kv.powerLoss.lenOf d.wal.pendingOps
  value : ∀ key, (lastEffect key d.wal.pendingOps).getD (d.kv.powerLoss.view key) =
    lastValue key ops
  vector : ∀ id, (Cell.applyAll id .absent d.wal.pendingOps).visible = lastVector id ops

/-- What can be replayed without an index can be replayed with one. -/
private theorem WalOp.Replayable.some {op : WalOp} (h : op.Replayable none) (s : VectorSchema) :
    op.Replayable (some s) := by
  cases op with
  | putKv key value => exact h
  | deleteKv key => exact h
  | insertVector id vector =>
    obtain ⟨t, ht, -⟩ := h
    cases ht
  | deleteVector id => cases h
  | putColumnar tableId ipc => exact h

variable {A I} in
/-- A recovery that starts from the durable copy. -/
private theorem EngineDir.Restorable.reflects {s : VectorSchema} {quota : Nat} {d : EngineDir}
    {ops : List WalOp} (h : d.Restorable s quota ops) {schema : Option VectorSchema}
    {order : MapOrder} {start : NodeId → Cell} {e₀ : Engine}
    (hres : Engine.Restores A I s d.powerLoss schema quota order start e₀)
    (hstart : ∀ id, start id = .absent)
    (hreplays : ∀ op ∈ d.wal.pendingOps, op.Replayable e₀.schema) :
    ∃ e, (Engine.open A I d.powerLoss schema quota order).1 = .ok e ∧ e.Reflects ops := by
  obtain ⟨e, hop⟩ := hres.ok_iff.mpr ⟨hreplays, h.fits⟩
  obtain ⟨hrec, -⟩ := hres.recovered h.kv.inv hop
  refine ⟨e, hop, Engine.reflects_of hrec.inv (fun key => ?_) fun id => ?_⟩
  · rw [← h.value key]
    cases hk : lastEffect key d.wal.pendingOps with
    | some eff => exact hrec.touched key eff hk
    | none => exact hrec.untouched key hk (h.kv.covered key)
  · rw [hrec.cell id, hstart id]
    exact h.vector id

/-- With the schema passed again the log fills an empty index: neither the schema nor the
    locator table in `vec_meta` was ever durable. -/
theorem EngineDir.Restorable.yields_some {s : VectorSchema} {quota : Nat} {d : EngineDir}
    {ops : List WalOp} (h : d.Restorable s quota ops) : d.Yields A I (some s) quota ops := by
  intro order
  obtain ⟨e₀, hres, hs⟩ := Engine.restores_blank A I (d := d.powerLoss) h.kv.inv h.wal h.vec s
    quota order
  refine h.reflects hres (fun _ => rfl) fun op hop => ?_
  have hrep := h.replays op hop
  rw [hs]
  cases hm : d.vec.vecMeta with
  | none =>
    -- no index was open, so no operation on vectors is in the log
    refine WalOp.Replayable.some ?_ s
    unfold EngineDir.schema at hrep
    rwa [hm] at hrep
  | some env =>
    unfold EngineDir.schema at hrep
    rw [hm] at hrep
    exact h.index env hm ▸ hrep

/-- Without a schema there must never have been an index. -/
theorem EngineDir.Restorable.yields_none {s : VectorSchema} {quota : Nat} {d : EngineDir}
    {ops : List WalOp} (h : d.Restorable s quota ops) (hm : d.vec.vecMeta = none) :
    d.Yields A I none quota ops := by
  intro order
  have hschema : d.schema = none := by
    unfold EngineDir.schema
    rw [hm]
    rfl
  -- without a `vec_meta` there is no schema to replay a vector write under
  have hmeta : d.powerLoss.vec.vecMeta = none := by
    show d.vec.vecMeta.map Stored.powerLoss = none
    rw [hm]
    rfl
  have hinv : d.powerLoss.Inv s := by
    refine ⟨h.kv.inv, ⟨fun env henv => ?_, fun id loc hl => ?_, ?_⟩, h.wal⟩
    · rw [hmeta] at henv
      exact nomatch henv
    · rw [show d.powerLoss.vec.locatorDb.lookup id = none from h.vec.lookup id] at hl
      exact nomatch hl
    · exact h.vec.snapshot.mono fun _ hid => hid.elim
  -- the open without a schema restores the KV half and leaves the index closed
  obtain ⟨e₀, hres, hs⟩ := Engine.restores_none A I hinv quota order
  refine h.reflects hres (fun id => ?_) fun op hop => ?_
  · unfold Engine.reopenedCell VecDir.stored
    rw [show d.powerLoss.vec.locatorDb.lookup id = none from h.vec.lookup id]
    rfl
  · have hrep := h.replays op hop
    rw [hschema] at hrep
    rw [hs, EngineDir.schema, hmeta]
    exact hrep

/-! ### One write -/

/-- Inserting does not sync the table and does not write a snapshot. -/
private theorem VectorIndex.insert_durable (x : VectorIndex) (id : NodeId) (vector : List F32) :
    (x.insert A id vector).2.env.durable = x.env.durable ∧
      (x.insert A id vector).2.snapshot = x.snapshot := by
  unfold VectorIndex.insert
  split
  · exact ⟨rfl, rfl⟩
  · split
    · exact ⟨rfl, rfl⟩
    · split
      · exact ⟨rfl, rfl⟩
      · simp only
        split <;> exact ⟨rfl, rfl⟩

namespace Engine

variable {s : VectorSchema} {e e' : Engine}

/-- Only a checkpoint writes a snapshot, and nothing syncs the locator table. -/
private theorem blank_apply (h : e.dir.vec.powerLoss.Blank) (locked : Bool) (w : Write) :
    (e.apply A locked w).2.dir.vec.powerLoss.Blank := by
  cases w with
  | putKv key value => exact h
  | deleteKv key => exact h
  | insertVector id vector =>
    unfold apply ensureVec
    cases hvec : e.vec with
    -- without an index the insert is refused
    | closed d => exact h
    | opened x =>
      obtain ⟨henv, hsnap⟩ := VectorIndex.insert_durable A x id vector
      simp only [dir, hvec] at h
      -- the insert reaches the volatile locators only
      refine ⟨fun j => ?_, ?_⟩
      · show (x.insert A id vector).2.env.durable.locatorDb.lookup j = none
        rw [henv]
        exact h.lookup j
      · show SnapshotInv (x.insert A id vector).2.snapshot _
        rw [hsnap]
        exact h.snapshot
  | deleteVector id =>
    unfold apply ensureVec
    cases hvec : e.vec with
    | closed d => exact h
    | opened x =>
      simp only [dir, hvec] at h
      -- a delete reaches the volatile locators only, too
      exact ⟨h.lookup, h.snapshot⟩

end Engine

/-- What a run keeps between calls.  The log is exactly what separates the durable copy
    from the running process: keys it does not mention are the same in both, the counter
    and the lengths differ by its operations, and it holds every stored vector. -/
private structure Durable (s : VectorSchema) (ops : List WalOp) (e : Engine) : Prop where
  inv : e.Inv s
  col : ∃ c, e.col = .closed c
  quota : e.kv.quotaLimit = e.quotaLimit
  shows : e.kv.Shows ops
  backed : e.kv.Backed
  same : ∀ key, lastEffect key e.wal.dir.pendingOps = none →
    e.kv.env.durable.db.lookup key = e.kv.env.volatile.db.lookup key
  agrees : ∀ key eff, lastEffect key e.wal.dir.pendingOps = some eff → lastValue key ops = eff
  replays : ∀ op ∈ e.wal.dir.pendingOps, op.Replayable e.schema
  fits : QuotaFits e.quotaLimit e.kv.env.durable.used e.kv.dir.powerLoss.lenOf
    e.wal.dir.pendingOps
  used : e.kv.env.volatile.used =
    usedAfter e.kv.env.durable.used e.kv.dir.powerLoss.lenOf e.wal.dir.pendingOps
  lengths : e.kv.lenOf = lengthsAfter e.kv.dir.powerLoss.lenOf e.wal.dir.pendingOps
  blank : e.dir.vec.powerLoss.Blank
  cell : ∀ id, e.cell id = Cell.applyAll id .absent e.wal.dir.pendingOps
  visible : ∀ id, (e.cell id).visible = lastVector id ops

/-- With nothing pending the durable copy is the running one. -/
private theorem durable_of_settled {s : VectorSchema} {ops : List WalOp} {e : Engine}
    (hinv : e.Inv s) (hcol : ∃ c, e.col = .closed c) (hquota : e.kv.quotaLimit = e.quotaLimit)
    (hshows : e.kv.Shows ops) (hbacked : e.kv.Backed) (hnil : e.wal.dir.pendingOps = [])
    (hsame : ∀ key, e.kv.env.durable.db.lookup key = e.kv.env.volatile.db.lookup key)
    (hused : e.kv.env.durable.used = e.kv.env.volatile.used)
    (hblank : e.dir.vec.powerLoss.Blank) (habsent : ∀ id, e.cell id = .absent)
    (hvector : ∀ id, lastVector id ops = none) : Durable s ops e where
  inv := hinv
  col := hcol
  quota := hquota
  shows := hshows
  backed := hbacked
  same := fun key _ => hsame key
  -- the log is empty, so every clause about its replay is vacuous
  agrees := by
    rw [hnil]
    intro key eff hk
    cases hk
  replays := by
    rw [hnil]
    intro op hop
    cases hop
  fits := by
    rw [hnil]
    trivial
  used := by
    rw [hnil]
    exact hused.symm
  lengths := by
    rw [hnil]
    funext key
    show e.kv.dir.lenOf key = e.kv.dir.powerLoss.lenOf key
    exact KvDir.lenOf_congr (hsame key).symm
  blank := hblank
  cell := by
    intro id
    rw [hnil, habsent id]
    rfl
  visible := by
    intro id
    rw [habsent id, hvector id]
    rfl

/-- The usual way to know what a power loss leaves of the KV store. -/
private theorem restorable_of_backed {s : VectorSchema} {quota : Nat} {d : EngineDir}
    {ops : List WalOp} {kv : KvStore} (hd : d.kv = kv.dir) (hinv : kv.Inv) (hb : kv.Backed)
    (hwal : d.wal.Inv) (hindex : ∀ env ∈ d.vec.vecMeta, env.volatile.schema = some s)
    (hvec : d.vec.powerLoss.Blank) (hrep : ∀ op ∈ d.wal.pendingOps, op.Replayable d.schema)
    (hfits : QuotaFits quota kv.env.durable.used kv.dir.powerLoss.lenOf d.wal.pendingOps)
    (hvalue : ∀ key, (lastEffect key d.wal.pendingOps).getD (kv.kept key) = lastValue key ops)
    (hvis : ∀ id, (Cell.applyAll id .absent d.wal.pendingOps).visible = lastVector id ops) :
    d.Restorable s quota ops := by
  refine ⟨hd ▸ hb.whole hinv, hwal, hindex, hvec, hrep, ?_, fun key => ?_, hvis⟩
  · rw [hd]
    exact hfits
  · rw [hd, hb.view_powerLoss key]
    exact hvalue key

variable {s : VectorSchema} {ops ops' : List WalOp} {e e' : Engine}

/-- The log over the durable values gives what was acknowledged. -/
private theorem Durable.kept (h : Durable s ops e) (key : Bytes) :
    (lastEffect key e.wal.dir.pendingOps).getD (e.kv.kept key) = lastValue key ops := by
  cases hk : lastEffect key e.wal.dir.pendingOps with
  | some eff => exact (h.agrees key eff hk).symm
  | none =>
    rw [Option.getD_none, KvStore.kept, h.same key hk]
    exact h.shows.view key

/-- So an open after a power loss restores it. -/
private theorem Durable.restorable (h : Durable s ops e) :
    e.dir.Restorable s e.quotaLimit ops := by
  refine restorable_of_backed rfl h.inv.kv h.backed h.inv.dir.wal h.inv.dir.vec.schema h.blank
    ?_ h.fits h.kept fun id => ?_
  · rw [Engine.schema_dir h.inv]
    exact h.replays
  · exact h.cell id ▸ h.visible id

/-- One operation, logged above the marker and accepted.  `ops'` is what counts as
    acknowledged afterwards. -/
private theorem Durable.logged (h : Durable s ops e) {w : Write} {seq : Nat} {wal : WalLog}
    (hw : e.wal.append w.op = .ok (seq, wal)) (hlt : e.wal.dir.appliedSeq < e.wal.nextSeq)
    {r : Except StoreError Unit}
    (happ : ({ e with wal } : Engine).apply A true w = (r, e'))
    (hrep : ({ e with wal } : Engine).replayOp A I w.op = (.ok (), e'))
    (hshows : e'.kv.Shows ops')
    (hops : ∀ key, lastValue key ops' = (kvEffect key w.op).getD (lastValue key ops))
    (hvis : ∀ id, (e'.cell id).visible = lastVector id ops') :
    Durable s ops' e' ∧ ({ e with wal } : Engine).dir.Restorable s e.quotaLimit ops' := by
  have hlog := Engine.inv_logged h.inv hw
  obtain ⟨hinv, hframe⟩ := Engine.replayOp_inv A I hlog hrep
  obtain ⟨heff, hcell⟩ := Engine.replayOp_ok A I hlog hrep
  obtain ⟨hused, hlen⟩ := Engine.replayOp_accounts A I hlog hrep
  obtain ⟨hback, hkept⟩ := h.backed.effect h.shows.good heff
  have hpend : wal.dir.pendingOps = e.wal.dir.pendingOps ++ [w.op] := by
    rw [WalLog.pending_append hw, if_pos hlt]
  have hwal : e'.wal.dir.pendingOps = e.wal.dir.pendingOps ++ [w.op] := by
    rw [hframe.wal]
    exact hpend
  have hdurable : e'.kv.env.durable = e.kv.env.durable := heff.durable
  have hdlen : e'.kv.dir.powerLoss.lenOf = e.kv.dir.powerLoss.lenOf := by
    funext key
    exact KvDir.lenOf_congr (congrArg (fun env : KvEnv => env.db.lookup key) hdurable)
  have hok := (Engine.replayWrite_ok_iff A I hlog w).mp (by rw [hrep])
  -- the operation fits on top of the log for the same reason it fits now
  have hfits : QuotaFits e.quotaLimit e.kv.env.durable.used e.kv.dir.powerLoss.lenOf
      (e.wal.dir.pendingOps ++ [w.op]) := by
    rw [quotaFits_append]
    refine ⟨h.fits, ?_⟩
    rw [← h.used, ← h.lengths, ← h.quota]
    exact hok.2
  have hDurable : Durable s ops' e' := by
    refine ⟨hinv, ?_, ?_, hshows, hback, ?_, ?_, ?_, ?_, ?_, ?_, ?_, ?_, hvis⟩
    · obtain ⟨c, hc⟩ := h.col
      exact ⟨c, (Engine.col_apply A happ).trans hc⟩
    · rw [heff.quotaLimit, hframe.quotaLimit]
      exact h.quota
    · -- keys the log does not mention
      intro key hk
      rw [hwal, lastEffect_concat, Option.or_eq_none_iff] at hk
      rw [hdurable, heff.lookup key hk.1]
      exact h.same key hk.2
    · -- the last operation on a key is the acknowledged one
      intro key eff hk
      rw [hwal, lastEffect_concat] at hk
      rw [hops key]
      cases hop : kvEffect key w.op with
      | some eff' =>
        rw [hop, Option.some_or, Option.some.injEq] at hk
        exact hk
      | none =>
        rw [hop, Option.none_or] at hk
        exact h.agrees key eff hk
    · -- every entry can be replayed
      rw [hwal, hframe.schema]
      intro op hop
      rcases List.mem_append.mp hop with hop | hop
      · exact h.replays op hop
      · rw [List.mem_singleton] at hop
        subst hop
        exact hok.1
    · -- within the quota
      rw [hframe.quotaLimit, hdurable, hdlen, hwal]
      exact hfits
    · -- the counter and the lengths
      rw [hused, hdurable, hdlen, hwal, usedAfter_append, ← h.used, ← h.lengths]
    · rw [hlen, hdlen, hwal, lengthsAfter_append, ← h.lengths]
    · -- no vector is durable but in the log
      have hblank := Engine.blank_apply A (e := { e with wal }) h.blank true w
      rw [happ] at hblank
      exact hblank
    · -- every vector is in the log
      intro id
      rw [hcell id, hwal, Cell.applyAll_append]
      exact congrArg (fun c => Cell.apply id c w.op) (h.cell id)
  -- before the operation is applied, the durable copy and the log are the same already
  have hmid : ({ e with wal } : Engine).dir.wal.pendingOps = e'.wal.dir.pendingOps :=
    hpend.trans hwal.symm
  refine ⟨hDurable, restorable_of_backed rfl h.inv.kv h.backed hlog.dir.wal h.inv.dir.vec.schema
    h.blank ?_ ?_ (fun key => ?_) fun id => ?_⟩
  · rw [hmid, Engine.schema_dir hlog, ← hframe.schema]
    exact hDurable.replays
  · rw [hmid, hwal]
    exact hfits
  · rw [hmid, ← hDurable.kept key, hkept key]
  · rw [hmid, ← hDurable.cell id]
    exact hvis id

/-- A write that recovery would accept: acknowledged, or a duplicate insert. -/
private theorem Durable.applied (h : Durable s ops e) {w : Write} {seq : Nat} {wal : WalLog}
    (hw : e.wal.append w.op = .ok (seq, wal)) (hlt : e.wal.dir.appliedSeq < e.wal.nextSeq)
    (hrep : (({ e with wal } : Engine).replayOp A I w.op).1 = .ok ())
    {r : Except StoreError Unit} (happ : ({ e with wal } : Engine).apply A true w = (r, e')) :
    ∃ ops', (r = .ok () ∧ ops' = ops ++ [w.op] ∨
        (∃ j, r = .error (.duplicateVector j)) ∧ ops' = ops) ∧
      Durable s ops' e' ∧ ({ e with wal } : Engine).dir.Restorable s e.quotaLimit ops' := by
  have hlog := Engine.inv_logged h.inv hw
  have hsame := (Engine.apply_replayOp A I { e with wal } w).1
  have hdone := Engine.apply_of_accepted A I hrep
  rw [happ] at hsame hdone
  have hrep' : ({ e with wal } : Engine).replayOp A I w.op = (.ok (), e') := Prod.ext hrep hsame
  -- the call went through, or it met an id that is already stored
  rcases hdone with rfl | ⟨id, vector, j, rfl, rfl⟩
  · -- the write is acknowledged and joins the history
    refine ⟨ops ++ [w.op], Or.inl ⟨rfl, rfl⟩, ?_⟩
    apply h.logged A I hw hlt happ hrep'
    · exact (Engine.apply_ok A hlog happ).1.shows h.shows
    · intro key
      rw [lastValue_concat]
      cases kvEffect key w.op <;> rfl
    · exact Engine.visible_apply A hlog happ h.visible
  · -- nothing was acknowledged, and nothing has changed
    obtain ⟨hkey, hcell, -⟩ := Engine.apply_error A hlog happ
    refine ⟨ops, Or.inr ⟨⟨j, rfl⟩, rfl⟩, ?_⟩
    apply h.logged A I hw hlt happ hrep'
    · exact ⟨fun key => (hkey key (h.shows.good key)).1,
        fun key => (hkey key (h.shows.good key)).2.trans (h.shows.view key)⟩
    · exact fun key => rfl
    · intro id
      rw [hcell id]
      exact h.visible id

/-! ### One checkpoint -/

/-- A checkpoint that loses nothing: no vector is stored, since the locator table will
    not be durable when the log is gone, and the quota admits the log once more on top of
    the flushed counter, in case it is replayed before the marker is there. -/
def Engine.Flushable (e : Engine) : Prop :=
  e.dir.vec.locatorDb.keys = [] ∧
    QuotaFits e.quotaLimit e.kv.env.volatile.used e.kv.lenOf e.wal.dir.pendingOps

instance (e : Engine) : Decidable e.Flushable := inferInstanceAs (Decidable (_ ∧ _))

/-- The states before the marker. -/
private theorem Durable.before_marker (h : Durable s ops e) (hfl : e.Flushable) {f : Engine}
    (hinv : f.Inv s) (hwal : f.wal = e.wal) (hschema : f.schema = e.schema)
    (hb : f.kv.Backed) (hblank : f.dir.vec.powerLoss.Blank)
    (hkv : f.kv.env.durable = e.kv.env.durable ∧ (∀ key, f.kv.kept key = e.kv.kept key) ∨
      f.kv.env.durable = e.kv.env.volatile ∧ ∀ key, f.kv.kept key = e.kv.view key) :
    f.dir.Restorable s e.quotaLimit ops := by
  have hpend : f.dir.wal.pendingOps = e.wal.dir.pendingOps := by rw [← hwal]; rfl
  have hlen : ∀ t : KvDir, f.kv.env.durable = t.env.volatile →
      f.kv.dir.powerLoss.lenOf = t.lenOf := by
    intro t ht
    funext key
    exact KvDir.lenOf_congr (congrArg (fun env : KvEnv => env.db.lookup key) ht)
  refine restorable_of_backed rfl hinv.kv hb hinv.dir.wal hinv.dir.vec.schema hblank ?_ ?_
    (fun key => ?_) fun id => ?_
  · -- what the replay accepts does not depend on what was flushed
    rw [hpend, Engine.schema_dir hinv, hschema]
    exact h.replays
  · rw [hpend]
    -- the replay fits the quota from the old durable map and from the new one
    rcases hkv with ⟨hd, -⟩ | ⟨hd, -⟩
    · rw [hd, hlen e.kv.dir.powerLoss hd]
      exact h.fits
    · rw [hd, hlen e.kv.dir hd]
      exact hfl.2
  · rw [hpend]
    -- replaying over a flushed store repeats the effects that are already there
    rcases hkv with ⟨-, hk⟩ | ⟨-, hk⟩
    · rw [hk key]
      exact h.kept key
    · rw [hk key, h.shows.view key]
      cases hl : lastEffect key e.wal.dir.pendingOps with
      | none => rfl
      | some eff => exact (h.agrees key eff hl).symm
  · rw [hpend, ← h.cell id]
    exact h.visible id

/-- While a flush is allowed no vector is stored. -/
private theorem Durable.no_vector (h : Durable s ops e) (hfl : e.Flushable) (id : NodeId) :
    e.dir.vec.locatorDb.lookup id = none ∧ e.cell id = .absent := by
  have hl : e.dir.vec.locatorDb.lookup id = none := by
    rw [AList.lookup_eq_none, AList.mem_keys, hfl.1]
    exact List.not_mem_nil
  refine ⟨hl, ?_⟩
  have hs := Engine.stored_dir h.inv id
  unfold VecDir.stored at hs
  rw [hl] at hs
  cases hc : e.cell id with
  | absent => rfl
  | _ =>
    rw [hc] at hs
    exact nomatch hs

/-- The states from the marker on: the log is done with, and the durable copy alone has
    everything. -/
private theorem Durable.after_marker (h : Durable s ops e) (hfl : e.Flushable) {f : Engine}
    (hinv : f.Inv s) (hpend : f.wal.dir.pending = []) (hb : f.kv.Backed)
    (hblank : f.dir.vec.powerLoss.Blank) (hkv : ∀ key, f.kv.kept key = e.kv.view key) :
    f.dir.Restorable s e.quotaLimit ops := by
  have hnil : f.dir.wal.pendingOps = [] := by
    exact LogDir.pendingOps_nil hpend
  refine restorable_of_backed rfl hinv.kv hb hinv.dir.wal hinv.dir.vec.schema hblank ?_ ?_
    (fun key => ?_) fun id => ?_
  · rw [hnil]
    exact fun op hop => nomatch hop
  · rw [hnil]
    trivial
  · rw [hnil, hkv key]
    exact h.shows.view key
  · rw [hnil, ← h.visible id, (h.no_vector hfl id).2]
    rfl

/-- The marker of a checkpoint covers the whole log. -/
private theorem pending_marked {w : WalLog} (h : w.Inv) :
    (w.writeMarker (Wal.checkpointMarker (w.nextSeq - 1))).dir.pending = [] := by
  unfold LogDir.pending
  rw [List.filter_eq_nil_iff]
  intro entry hmem
  have hlt := h.bound entry hmem
  rw [decide_eq_true_eq]
  show ¬w.nextSeq - 1 < entry.seq
  omega

/-- The vector part of a checkpoint, when there is nothing in the index. -/
private theorem checkpointVec_blank (h : e.Inv s)
    (hno : ∀ id, e.dir.vec.locatorDb.lookup id = none) (hblank : e.dir.vec.powerLoss.Blank)
    {f : Engine} (hf : f ∈ e.checkpointVecTrace ∨ f = e.checkpointVec) :
    f.Inv s ∧ f.kv = e.kv ∧ f.wal = e.wal ∧ f.schema = e.schema ∧
      f.dir.vec.powerLoss.Blank := by
  have hv := h.vec
  cases hvec : e.vec with
  | closed d =>
    -- a closed index is not touched
    obtain rfl : f = e := by
      simpa only [Engine.checkpointVecTrace, Engine.checkpointVec, Engine.ensureVec, hvec,
        List.not_mem_nil, false_or] using hf
    exact ⟨h, rfl, rfl, rfl, hblank⟩
  | opened x =>
    rw [hvec] at hv
    simp only [Engine.dir, hvec] at hno hblank
    obtain ⟨hx, hxs, -⟩ := VectorIndex.checkpoint_spec hv.1
    -- no id has a locator, so the saved graph has no live node to promise
    have hsnap : SnapshotInv (some (Snapshot.serialize x.graph)) fun _ => False := by
      apply hx.snapshot.mono
      intro id hid
      rw [show x.checkpoint.env.volatile.locatorDb.lookup id = none from hno id] at hid
      cases hid
    have hsaved : VectorIndex.Inv { x with snapshot := some (Snapshot.serialize x.graph) } :=
      ⟨hv.1.pool, hv.1.segSize, hv.1.dim, hv.1.schema, hv.1.cache, hv.1.holds, hv.1.graph,
        hv.1.nodes, hx.snapshot⟩
    -- the new snapshot alone, or the snapshot and the flushed segment
    have hcases : f = { e with vec := .opened { x with
          snapshot := some (Snapshot.serialize x.graph) } } ∨
        f = { e with vec := .opened x.checkpoint } := by
      simp only [Engine.checkpointVecTrace, Engine.checkpointVec, Engine.ensureVec, hvec,
        VectorIndex.checkpointTrace, List.map_cons, List.map_nil, List.mem_cons,
        List.not_mem_nil, or_false] at hf
      rcases hf with (hf | hf) | hf
      · exact Or.inl hf
      · exact Or.inr hf
      · exact Or.inr hf
    have hschema := Engine.schema_opened hvec
    rcases hcases with rfl | rfl
    · exact ⟨⟨h.kv, ⟨hsaved, hv.2⟩, h.wal⟩, rfl, rfl, hschema.symm, hblank.lookup, hsnap⟩
    · exact ⟨⟨h.kv, ⟨hx, hv.2⟩, h.wal⟩, rfl, rfl, hschema.symm, hblank.lookup, hsnap⟩

/-- A checkpoint step by step, and the state it leaves. -/
private theorem Durable.checkpoint (h : Durable s ops e) (hfl : e.Flushable) :
    (∀ f ∈ e.checkpointTrace, f.dir.Restorable s e.quotaLimit ops) ∧
      Durable s ops e.checkpoint := by
  obtain ⟨c, hcol⟩ := h.col
  have hflush : e.flushKv.flushCol = e.flushKv := by
    simp only [Engine.flushCol, Engine.ensureCol, Engine.flushKv, hcol]
  have hsynced := h.backed.flush h.shows.good
  have hinv : e.flushKv.Inv s := Engine.inv_flushKv h.inv
  have hno : ∀ id, e.flushKv.dir.vec.locatorDb.lookup id = none := fun id =>
    (h.no_vector hfl id).1
  -- what the index part does, at its end and at each step on the way
  have hvec := fun {f : Engine} => checkpointVec_blank (f := f) hinv hno h.blank
  -- before the marker the log still covers everything, flushed or not
  have hflushed : e.flushKv.dir.Restorable s e.quotaLimit ops :=
    h.before_marker hfl hinv rfl rfl hsynced h.blank (Or.inr ⟨rfl, fun _ => rfl⟩)
  -- the segment file flushed, the cursor and the map not yet
  have hseg : ({ e with kv := { e.kv with pool := { e.kv.pool with
      dir := e.kv.pool.dir.flushSeg e.kv.pool.activeId } } } : Engine).dir.Restorable s
      e.quotaLimit ops := by
    have hpool := h.inv.kv.pool
    refine h.before_marker hfl ⟨⟨⟨⟨?_, ?_, ?_⟩, hpool.segSize_le, hpool.recorded⟩,
      h.inv.kv.segSize, h.inv.kv.located⟩, h.inv.vec, h.inv.wal⟩ rfl rfl h.backed.flushSeg h.blank
      (Or.inl ⟨rfl, fun _ => rfl⟩)
    · exact hpool.writer.cursor_le
    · exact hpool.writer.mem
    · exact hpool.writer.le
  -- the cursor flushed, the map not yet
  have hcursor : ({ e with kv := { e.kv with pool := e.kv.pool.flush } } : Engine).dir.Restorable
      s e.quotaLimit ops :=
    h.before_marker hfl ⟨⟨SegmentPool.inv_flush h.inv.kv.pool, h.inv.kv.segSize,
      h.inv.kv.located⟩, h.inv.vec, h.inv.wal⟩ rfl rfl h.backed.flushPool h.blank
      (Or.inl ⟨rfl, fun _ => rfl⟩)
  obtain ⟨hsinv, hskv, hswal, hsschema, hsblank⟩ := hvec (Or.inr rfl)
  -- from the marker on the log is empty
  have hmarked : (e.flushKv.checkpointVec.writeMarker (e.wal.nextSeq - 1)).dir.Restorable s
      e.quotaLimit ops := by
    refine h.after_marker hfl ⟨hsinv.kv, hsinv.vec, WalLog.inv_writeMarker hsinv.wal _⟩ ?_
      (hskv ▸ hsynced) hsblank ?_
    · show (e.flushKv.checkpointVec.wal.writeMarker _).dir.pending = []
      rw [hswal]
      exact pending_marked h.inv.wal
    · intro key
      show e.flushKv.checkpointVec.kv.kept key = _
      rw [hskv]
      rfl
  have hpend := Engine.pending_checkpoint h.inv
  have hblank : e.checkpoint.dir.vec.powerLoss.Blank := by
    unfold Engine.checkpoint
    rw [hflush]
    exact hsblank
  have hbacked : e.checkpoint.kv.Backed := by
    rw [Engine.kv_checkpoint]
    exact hsynced
  have hdone : e.checkpoint.dir.Restorable s e.quotaLimit ops := by
    refine h.after_marker hfl (Engine.inv_checkpoint h.inv) hpend hbacked hblank fun key => ?_
    rw [Engine.kv_checkpoint]
    rfl
  refine ⟨?_, ?_⟩
  · -- the kill points in the order of the calls
    unfold Engine.checkpointTrace
    simp only [KvStore.flushTrace, hflush, List.map_cons, List.map_nil, List.forall_mem_append,
      List.forall_mem_cons, List.not_mem_nil, false_implies, implies_true, and_true]
    refine ⟨⟨⟨⟨hseg, hcursor, hflushed⟩, hflushed⟩, fun f hf => ?_⟩, hmarked, ?_⟩
    · obtain ⟨hfi, hfkv, hfwal, hfs, hfb⟩ := hvec (Or.inl hf)
      exact h.before_marker hfl hfi hfwal hfs (hfkv ▸ hsynced) hfb
        (Or.inr ⟨by rw [hfkv]; rfl, fun key => by rw [hfkv]; rfl⟩)
    · unfold Engine.checkpoint at hdone
      rw [hflush] at hdone
      exact hdone
  · -- the state after the call has an empty log
    have hnil := LogDir.pendingOps_nil hpend
    have hvector : ∀ id, lastVector id ops = none := by
      intro id
      rw [← h.visible id, (h.no_vector hfl id).2]
      rfl
    refine durable_of_settled (Engine.inv_checkpoint h.inv) ⟨c, Engine.col_checkpoint hcol⟩ ?_ ?_
      hbacked hnil ?_ ?_ hblank (fun id => ?_) hvector
    · rw [Engine.kv_checkpoint, Engine.quotaLimit_checkpoint]
      exact h.quota
    · rw [Engine.kv_checkpoint]
      exact ⟨h.shows.good, h.shows.view⟩
    · rw [Engine.kv_checkpoint]
      exact fun key => rfl
    · rw [Engine.kv_checkpoint]
      rfl
    · rw [Engine.cell_checkpoint]
      exact (h.no_vector hfl id).2

/-! ### One restart -/

/-- KV files without anything that only the log would bring back: both copies are the
    same, and the next process resumes behind them. -/
structure KvDir.Quiet (d : KvDir) : Prop where
  lookup : ∀ key, d.env.durable.db.lookup key = d.env.volatile.db.lookup key
  used : d.env.durable.used = d.env.volatile.used
  covered : ∀ key, d.Covered key
  synced : ∀ key loc, d.env.volatile.db.lookup key = some loc →
    d.segs.mem.durable.read loc.segId loc.offset loc.len =
      d.segs.mem.volatile.read loc.segId loc.offset loc.len

/-- A store that is opened on quiet files has nothing unflushed. -/
theorem KvStore.backed_open {d : KvDir} (h : d.Inv) (hq : d.Quiet) (quota : Nat) :
    (KvStore.open d 0 quota).Backed := by
  have hsynced : ∀ key loc, d.env.volatile.db.lookup key = some loc →
      (KvStore.open d 0 quota).pool.writer.Synced loc := by
    intro key loc hl
    have hmem := (h.located key loc hl).1
    show (d.segs.createSeg _).mem.durable.read loc.segId loc.offset loc.len = _
    rw [SegDir.durable_read_createSeg hmem, hq.synced key loc hl]
    exact (SegmentPool.bytesAt_open hmem).symm
  refine ⟨fun key loc hl => ?_, fun key loc hl => ?_, fun key loc hl => ?_,
    fun key loc hl => Or.inr (hsynced key loc hl)⟩
  · exact KvStore.good_open h quota (hq.covered key) loc ((hq.lookup key).symm.trans hl)
  · exact hsynced key loc ((hq.lookup key).symm.trans hl)
  · intro p hp
    rw [show (KvStore.open d 0 quota).pool.dir.cursor = d.segs.cursor from
      SegDir.cursor_createSeg _ _] at hp
    exact hq.covered key loc ((hq.lookup key).symm.trans hl) p hp

/-- A rebuild of the graph writes nothing. -/
private theorem VectorIndex.rebuild_durable {x y : VectorIndex} {order : MapOrder}
    (h : x.rebuildGraphFromData A order = .ok y) : y.env = x.env ∧ y.snapshot = x.snapshot := by
  unfold VectorIndex.rebuildGraphFromData at h
  cases hlive : x.readLive [] with
  | error err =>
    rw [hlive] at h
    exact nomatch h
  | ok live =>
    rw [hlive] at h
    cases hg : VectorIndex.buildGraph A x.schema.metric order live with
    | error err =>
      simp only [bind, Except.bind, hg] at h
      exact nomatch h
    | ok g =>
      simp only [bind, Except.bind, hg, pure, Except.pure, Except.ok.injEq] at h
      exact h ▸ ⟨rfl, rfl⟩

/-- Opening an index neither syncs its table nor writes a snapshot. -/
private theorem openVec_blank {d : VecDir} (h : d.powerLoss.Blank) {schema : Option VectorSchema}
    {order : MapOrder} (hop : (Engine.openVec A d schema order).1 = .ok e.vec) :
    e.dir.vec.powerLoss.Blank := by
  -- whichever way it was opened, the index holds the environment and snapshot of the files
  have hopened : ∀ x : VectorIndex, e.vec = .opened x →
      x.env.durable = (d.vecMeta.getD (.synced ⟨none, ∅⟩)).durable → x.snapshot = d.snapshot →
      e.dir.vec.powerLoss.Blank := by
    intro x hx henv hsnap
    simp only [Engine.dir, hx]
    refine ⟨fun id => ?_, ?_⟩
    · have hl := h.lookup id
      show x.env.durable.locatorDb.lookup id = none
      rw [henv]
      cases hm : d.vecMeta with
      | none => rfl
      | some env =>
        simp only [VecDir.powerLoss, VecDir.locatorDb, hm, Option.map_some] at hl
        exact hl
    · show SnapshotInv x.snapshot _
      rw [hsnap]
      exact h.snapshot
  -- `Engine::open` passes a schema on to `open`, and without one goes through `reopen`
  cases schema with
  | some t =>
    cases hl : Snapshot.load d.snapshot with
    | error err =>
      simp only [Engine.openVec, VectorIndex.open, hl, Except.map] at hop
      cases hop
    | ok g =>
      simp only [Engine.openVec, VectorIndex.open, hl, Except.map, Except.ok.injEq] at hop
      exact hopened _ hop.symm rfl rfl
  | none =>
    cases hm : d.vecMeta with
    | none =>
      -- there is no index to reopen
      simp only [Engine.openVec, hm, Except.ok.injEq] at hop
      simp only [Engine.dir, ← hop]
      exact h
    | some env =>
      have henv : env.durable = (d.vecMeta.getD (.synced ⟨none, ∅⟩)).durable := by
        rw [hm]
        rfl
      simp only [Engine.openVec, hm, VectorIndex.reopen, Option.getD_some] at hop
      cases hs : env.volatile.schema with
      | none =>
        simp only [hs, Except.map] at hop
        cases hop
      | some t =>
        simp only [hs] at hop
        split at hop
        · -- the graph was rebuilt
          generalize hre : VectorIndex.rebuildGraphFromData A _ order = r at hop
          cases r with
          | error err => cases hop
          | ok y =>
            obtain ⟨hyenv, hysnap⟩ := VectorIndex.rebuild_durable A hre
            exact hopened y (Except.ok.inj hop).symm (hyenv ▸ henv) hysnap
        · -- the snapshot was taken as it is
          simp only [Except.map, Except.ok.injEq] at hop
          exact hopened _ hop.symm henv rfl

/-- The files of a process that was killed when nothing was pending. -/
private structure Killed (s : VectorSchema) (ops : List WalOp) (d : EngineDir) : Prop where
  inv : d.Inv s
  kv : d.kv.Quiet
  value : ∀ key, d.kv.view key = lastValue key ops
  blank : d.vec.powerLoss.Blank
  empty : ∀ id, d.vec.locatorDb.lookup id = none
  vector : ∀ id, lastVector id ops = none
  pending : d.wal.pending = []

/-- What a kill leaves when nothing is pending. -/
private theorem Durable.killed (h : Durable s ops e) (hpend : e.wal.dir.pending = []) :
    Killed s ops e.dir := by
  have hnil := LogDir.pendingOps_nil hpend
  have hsame : ∀ key, e.kv.env.durable.db.lookup key = e.kv.env.volatile.db.lookup key := by
    intro key
    apply h.same
    rw [hnil]
    rfl
  have habsent : ∀ id, e.cell id = .absent := by
    intro id
    rw [h.cell id, hnil]
    rfl
  -- with nothing pending the volatile map is the durable one
  refine ⟨h.inv.dir, ⟨hsame, ?_, fun key loc hl => ?_, fun key loc hl => ?_⟩, h.shows.view,
    h.blank, fun id => ?_, fun id => ?_, hpend⟩
  · have hused := h.used
    rw [hnil] at hused
    exact hused.symm
  · exact h.backed.recorded key loc ((hsame key).trans hl)
  · exact h.backed.synced key loc ((hsame key).trans hl)
  · -- an absent cell has no stored locator
    have hstored := Engine.stored_dir h.inv id
    rw [habsent id] at hstored
    exact Option.map_eq_none_iff.mp hstored
  · rw [← h.visible id, habsent id]
    rfl

/-- The empty directory. -/
private theorem killed_empty (s : VectorSchema) : Killed s [] .empty := by
  refine ⟨EngineDir.inv_empty s, ⟨fun _ => rfl, rfl, ?_, ?_⟩, fun _ => rfl,
    ⟨fun _ => rfl, fun snap hs => nomatch hs⟩, fun _ => rfl, fun _ => rfl, rfl⟩
  · exact fun key loc hl => nomatch hl
  · exact fun key loc hl => nomatch hl

/-- With nothing pending recovery does nothing. -/
private theorem Engine.recover_nothing (hpend : e.wal.dir.pending = []) :
    e.recoverInner A I = (.ok (), e) ∧ e.recoverTrace A I = [e] := by
  have hrec : e.recoverInner A I = (.ok (), e) := by
    simp only [Engine.recoverInner, hpend, List.isEmpty_nil, ↓reduceIte]
  refine ⟨hrec, ?_⟩
  simp only [Engine.recoverTrace, hpend, Engine.replayTrace, hrec, List.nil_append]

/-- Opening a directory with nothing to replay. -/
private theorem Engine.openTrace_quiet {d : EngineDir} {schema : Option VectorSchema}
    {quota : Nat} {order : MapOrder} {start : NodeId → Cell}
    (hres : Engine.Restores A I s d schema quota order start e)
    (hpend : e.wal.dir.pending = []) :
    Engine.openTrace A I d schema quota order = [{ d with kv := e.kv.dir }, e.dir, e.dir] := by
  have he : (⟨KvStore.open d.kv 0 quota, e.vec, .closed d.col, WalLog.open d.wal, quota⟩ :
      Engine) = e := by
    rw [← hres.kv, ← hres.col, ← hres.wal, ← hres.quotaLimit]
  have hvec := hres.vec
  unfold Engine.openTrace
  cases hop : Engine.openVec A d.vec schema order with
  | mk r left =>
    rw [hop] at hvec
    simp only at hvec
    subst hvec
    simp only [he, (Engine.recover_nothing A I hpend).2, List.map_cons, List.map_nil, hres.kv]

/-- A restart on such files finds nothing to replay. -/
private theorem Killed.restored {d : EngineDir} (h : Killed s ops d)
    {schema : Option VectorSchema} {quota : Nat} {order : MapOrder} {start : NodeId → Cell}
    (hres : Engine.Restores A I s d schema quota order start e)
    (hstart : ∀ id, start id = .absent) :
    Engine.open A I d schema quota order = (.ok e, e.dir) ∧ Durable s ops e ∧
      ∀ d' ∈ Engine.openTrace A I d schema quota order, d'.Restorable s quota ops := by
  -- there is nothing to replay, so the opened handles are the restored ones
  have hpend : e.wal.dir.pending = [] := by
    rw [hres.wal]
    exact h.pending
  have hnil := LogDir.pendingOps_nil hpend
  have hbacked : e.kv.Backed := by
    rw [hres.kv]
    exact KvStore.backed_open h.inv.kv h.kv quota
  have hkept : ∀ key, e.kv.kept key = lastValue key ops := by
    intro key
    rw [hres.kv, ← h.value key, ← KvStore.view_open h.inv.kv quota key]
    unfold KvStore.kept
    rw [show (KvStore.open d.kv 0 quota).env = d.kv.env from rfl, h.kv.lookup key]
    rfl
  have habsent : ∀ id, e.cell id = .absent := fun id => (hres.cell id).trans (hstart id)
  -- the opened engine is durable again, with an empty log
  have hDurable : Durable s ops e := by
    refine durable_of_settled hres.inv ⟨_, hres.col⟩ ?_ ⟨fun key => ?_, fun key => ?_⟩ hbacked hnil
      ?_ ?_ (openVec_blank A h.blank hres.vec) habsent h.vector
    · rw [hres.kv, hres.quotaLimit]
      rfl
    · rw [hres.kv]
      exact KvStore.good_open h.inv.kv quota (h.kv.covered key)
    · rw [hres.kv, KvStore.view_open h.inv.kv quota key]
      exact h.value key
    · rw [hres.kv]
      exact h.kv.lookup
    · rw [hres.kv]
      exact h.kv.used
  -- between the two opens: the new KV handle over the old files of the index
  have hfirst : ({ d with kv := e.kv.dir } : EngineDir).Restorable s quota ops := by
    have hnil' := LogDir.pendingOps_nil h.pending
    refine restorable_of_backed (d := { d with kv := e.kv.dir }) rfl hres.inv.kv hbacked h.inv.wal
      h.inv.vec.schema h.blank ?_ ?_ (fun key => ?_) fun id => ?_
    · rw [hnil']
      intro op hop
      cases hop
    · rw [hnil']
      trivial
    · rw [hnil']
      exact hkept key
    · rw [hnil', h.vector id]
      rfl
  have hlast := hDurable.restorable
  rw [hres.quotaLimit] at hlast
  -- the two images that the open passes through
  refine ⟨?_, hDurable, ?_⟩
  · rw [hres.eq, (Engine.recover_nothing A I hpend).1]
  · rw [Engine.openTrace_quiet A I hres hpend]
    simp only [List.forall_mem_cons, List.not_mem_nil, false_implies, implies_true, and_true]
    exact ⟨hfirst, hlast, hlast⟩

/-- An open after such a kill loses nothing, nor does a power loss inside it. -/
private theorem Killed.restart {d : EngineDir} (h : Killed s ops d)
    {schema : Option VectorSchema} (hs : schema = none ∨ schema = some s) (quota : Nat)
    (order : MapOrder) :
    ∃ e, Engine.open A I d schema quota order = (.ok e, e.dir) ∧ Durable s ops e ∧
      ∀ d' ∈ Engine.openTrace A I d schema quota order, d'.Restorable s quota ops := by
  rcases hs with rfl | rfl
  · obtain ⟨e, hres, -⟩ := Engine.restores_none A I h.inv quota order
    refine ⟨e, h.restored A I hres fun id => ?_⟩
    unfold Engine.reopenedCell VecDir.stored
    rw [h.empty id]
    rfl
  · obtain ⟨e, hres, -⟩ := Engine.restores_blank A I h.inv.kv h.inv.wal
      (h.inv.vec.blank h.empty) s quota order
    exact ⟨e, h.restored A I hres fun _ => rfl⟩

/-! ### Runs -/

/-- An operation that is well formed and within the quota, and whose number is above the
    marker. -/
def Engine.Admits (e : Engine) (op : WalOp) : Prop :=
  op.Replayable e.schema ∧
    QuotaFits e.kv.quotaLimit e.kv.env.volatile.used e.kv.lenOf [op] ∧
    e.wal.dir.appliedSeq < e.wal.nextSeq

instance (e : Engine) (op : WalOp) : Decidable (e.Admits op) :=
  inferInstanceAs (Decidable (_ ∧ _ ∧ _))

/-- The quota in force during an event. -/
def Session.limit (σ : Session) : Event → Nat
  | .restart _ quota _ => quota
  | .call _ =>
    match σ.host with
    | .up e => e.quotaLimit
    | .down _ => 0

/-- A power loss at any moment of the event `ev` loses no acknowledged operation: every
    disk state of the event, opened with `again`, yields them all, those that `ev`
    acknowledges included. -/
def Session.PowerSafe (again : Option VectorSchema) (σ : Session) (ev : Event) : Prop :=
  ∀ d ∈ σ.trace A I ev, d.Yields A I again (σ.limit ev) (σ.step A I ev).ops

/-- Every disk state of the event `ev` has all acknowledged operations in its durable copy
    and its log. -/
private def Session.Kept (s : VectorSchema) (σ : Session) (ev : Event) : Prop :=
  ∀ d ∈ σ.trace A I ev, d.Restorable s (σ.limit ev) (σ.step A I ev).ops

variable {σ : Session}

/-- A write, from the moment it is in the log. -/
private theorem Durable.write (hup : σ.host = .up e) (h : Durable s σ.ops e) {w : Write}
    (hadm : e.Admits w.op) :
    (∃ e', (σ.step A I (.call (w.call true))).host = .up e' ∧
      Durable s (σ.step A I (.call (w.call true))).ops e') ∧
      σ.Kept A I s (.call (w.call true)) := by
  have htrace : σ.trace A I (.call (w.call true)) = (e.writeTrace A true w).map Engine.dir := by
    simp only [Session.trace, hup]
    cases w <;> rfl
  have hlimit : σ.limit (.call (w.call true)) = e.quotaLimit := by
    simp only [Session.limit, hup]
  unfold Session.Kept
  rw [htrace, hlimit]
  unfold Engine.writeTrace
  cases hw : e.wal.append w.op with
  | error err =>
    rw [Session.step_unlogged A I hup hw]
    -- a write the log refuses leaves the files alone
    refine ⟨⟨e, rfl, h⟩, ?_⟩
    simp only [List.map_cons, List.map_nil, List.forall_mem_singleton]
    exact h.restorable
  | ok p =>
    obtain ⟨seq, wal⟩ := p
    have hlog := Engine.inv_logged h.inv hw
    -- an admitted write could be replayed at once, which is what the log promises after a
    -- power loss
    have hrep : (({ e with wal } : Engine).replayOp A I w.op).1 = .ok () :=
      (Engine.replayWrite_ok_iff A I hlog w).mpr ⟨hadm.1, hadm.2.1⟩
    cases happ : ({ e with wal } : Engine).apply A true w with
    | mk r e' =>
      obtain ⟨ops', hout, hdur, hmid⟩ := h.applied A I hw hadm.2.2 hrep happ
      have hst : (σ.step A I (.call (w.call true))).host = .up e' ∧
          (σ.step A I (.call (w.call true))).ops = ops' := by
        simp only [Session.step, hup, Engine.call_write, hw, happ]
        rcases hout with ⟨rfl, rfl⟩ | ⟨⟨j, rfl⟩, rfl⟩
        · exact ⟨rfl, by rw [Session.ops_acked, Write.ops_call]⟩
        · exact ⟨rfl, rfl⟩
      have hquota : e'.quotaLimit = e.quotaLimit := (Engine.apply_inv A hlog happ).2.quotaLimit
      rw [hst.1, hst.2]
      refine ⟨⟨e', rfl, hdur⟩, ?_⟩
      have hlast := hdur.restorable
      rw [hquota] at hlast
      simp only [List.map_cons, List.map_nil, List.forall_mem_cons, List.not_mem_nil,
        false_implies, implies_true, and_true, happ]
      exact ⟨hmid, hlast⟩

/-- The steps of a run that loses nothing.  Writes are admitted and get their lock, and a
    checkpoint is `Flushable`; `recover` and `open` find nothing to replay, for they would
    truncate the log without a flush; no open gets a schema other than `again`. -/
def DurableStep (again : Option VectorSchema) (σ : Session) (ev : Event) : Prop :=
  match σ.host, ev with
  | .up e, .call (.putKv key value locked) => locked = true ∧ e.Admits (.putKv key value)
  | .up e, .call (.deleteKv key locked) => locked = true ∧ e.Admits (.deleteKv key)
  | .up e, .call (.insertVector id vector) => e.Admits (.insertVector id vector)
  | .up e, .call (.deleteVector id) => e.Admits (.deleteVector id)
  | .up e, .call .checkpoint => e.Flushable
  | .up e, .call .close => e.Flushable
  | .up e, .call .recover => e.wal.dir.pending = []
  | host, .restart schema _ _ => (schema = none ∨ schema = again) ∧ host.dir.wal.pending = []
  | _, _ => False

instance (again : Option VectorSchema) :
    (σ : Session) → (ev : Event) → Decidable (DurableStep again σ ev)
  | ⟨.up _, _⟩, .call (.putKv ..) => inferInstanceAs (Decidable (_ ∧ _))
  | ⟨.up _, _⟩, .call (.deleteKv ..) => inferInstanceAs (Decidable (_ ∧ _))
  | ⟨.up e, _⟩, .call (.insertVector id vector) =>
    inferInstanceAs (Decidable (e.Admits (.insertVector id vector)))
  | ⟨.up e, _⟩, .call (.deleteVector id) =>
    inferInstanceAs (Decidable (e.Admits (.deleteVector id)))
  | ⟨.up e, _⟩, .call .checkpoint => inferInstanceAs (Decidable e.Flushable)
  | ⟨.up e, _⟩, .call .close => inferInstanceAs (Decidable e.Flushable)
  | ⟨.up e, _⟩, .call .recover => inferInstanceAs (Decidable (e.wal.dir.pending = []))
  | ⟨.up _, _⟩, .restart .. => inferInstanceAs (Decidable (_ ∧ _))
  | ⟨.down _, _⟩, .restart .. => inferInstanceAs (Decidable (_ ∧ _))
  | ⟨.up _, _⟩, .call (.insertVectorBatch _) => .isFalse id
  | ⟨.up _, _⟩, .call (.putColumnar ..) => .isFalse id
  | ⟨.up _, _⟩, .call (.compact ..) => .isFalse id
  | ⟨.down _, _⟩, .call _ => .isFalse id

/-- The process is up, or its files are those of a process that left nothing pending. -/
private def Ready (s : VectorSchema) (σ : Session) : Prop :=
  (∃ e, σ.host = .up e ∧ Durable s σ.ops e) ∨ ∃ d, σ.host = .down d ∧ Killed s σ.ops d

/-- The files of a host in a run. -/
private theorem Ready.killed (h : Ready s σ) (hpend : σ.host.dir.wal.pending = []) :
    Killed s σ.ops σ.host.dir := by
  rcases h with ⟨e, hup, h⟩ | ⟨d, hdown, h⟩
  · rw [hup] at hpend ⊢
    exact h.killed hpend
  · rw [hdown]
    exact h

/-- A call that takes no operation to the log. -/
private theorem ready_silent (hup : σ.host = .up e) {c : Call}
    (hc : c = .checkpoint ∨ c = .close ∨ c = .recover) (hr : e.call A I c = (.ok (), e'))
    (htrace : ∀ f ∈ e.callTrace A I c, f.dir.Restorable s e.quotaLimit σ.ops)
    (h' : Durable s σ.ops e') :
    Ready s (σ.step A I (.call c)) ∧ σ.Kept A I s (.call c) := by
  have hst : σ.step A I (.call c) = ⟨.up e', σ.acked ++ [c]⟩ := by
    simp only [Session.step, hup, hr]
  have hops : (σ.step A I (.call c)).ops = σ.ops := by
    rw [hst, Session.ops_acked]
    rcases hc with rfl | rfl | rfl <;> exact List.append_nil _
  have hlimit : σ.limit (.call c) = e.quotaLimit := by simp only [Session.limit, hup]
  refine ⟨Or.inl ⟨e', by rw [hst], hops ▸ h'⟩, fun d hd => ?_⟩
  rw [hops, hlimit]
  simp only [Session.trace, hup, List.mem_map] at hd
  obtain ⟨f, hf, rfl⟩ := hd
  exact htrace f hf

/-- The step lemma, and what holds inside the step. -/
private theorem Ready.step (h : Ready s σ) {again : Option VectorSchema}
    (hagain : again = none ∨ again = some s) {ev : Event} (hev : DurableStep again σ ev) :
    Ready s (σ.step A I ev) ∧ σ.Kept A I s ev := by
  cases ev with
  | restart schema quota order =>
    -- the condition reads the image alone, so it says the same of a live and of a killed engine
    have hcond : (schema = none ∨ schema = again) ∧ σ.host.dir.wal.pending = [] := by
      rcases h with ⟨e, hup, -⟩ | ⟨d, hdown, -⟩
      · simpa only [DurableStep, hup] using hev
      · simpa only [DurableStep, hdown] using hev
    have hschema : schema = none ∨ schema = some s := by
      -- any schema that is passed is the one in use
      obtain hnone | rfl := hcond.1
      · exact Or.inl hnone
      · exact hagain
    obtain ⟨e, hop, hdur, htrace⟩ := (h.killed hcond.2).restart A I hschema quota order
    have hst : σ.step A I (.restart schema quota order) = ⟨.up e, σ.acked⟩ := by
      simp only [Session.step, hop]
    unfold Session.Kept
    rw [hst]
    exact ⟨Or.inl ⟨e, rfl, hdur⟩, htrace⟩
  | call c =>
    rcases h with ⟨e, hup, h⟩ | ⟨d, hdown, -⟩
    case inr =>
      simp only [DurableStep, hdown] at hev
    -- the four writes share one argument
    have hwrite : ∀ w : Write, e.Admits w.op → c = w.call true →
        Ready s (σ.step A I (.call c)) ∧ σ.Kept A I s (.call c) := by
      rintro w hadm rfl
      obtain ⟨hup', hsafe⟩ := Durable.write A I hup h hadm
      exact ⟨Or.inl hup', hsafe⟩
    simp only [DurableStep, hup] at hev
    cases c with
    | putKv key value locked =>
      obtain ⟨rfl, hacc⟩ := hev
      exact hwrite (.putKv key value) hacc rfl
    | deleteKv key locked =>
      obtain ⟨rfl, hacc⟩ := hev
      exact hwrite (.deleteKv key) hacc rfl
    | insertVector id vector => exact hwrite (.insertVector id vector) hev rfl
    | deleteVector id => exact hwrite (.deleteVector id) hev rfl
    | checkpoint =>
      exact ready_silent A I hup (Or.inl rfl) rfl (h.checkpoint hev).1 (h.checkpoint hev).2
    | close =>
      exact ready_silent A I hup (Or.inr (Or.inl rfl)) rfl (h.checkpoint hev).1
        (h.checkpoint hev).2
    | recover =>
      obtain ⟨hrec, htrace⟩ := Engine.recover_nothing A I hev
      refine ready_silent A I hup (Or.inr (Or.inr rfl)) hrec (fun f hf => ?_) h
      rw [show e.callTrace A I .recover = [e] from htrace, List.mem_singleton] at hf
      exact hf ▸ h.restorable
    -- any other call is outside the condition
    | _ => exact hev.elim

/-- The run lemma. -/
private theorem kept_of_guarded {again : Option VectorSchema} (es : List Event) (ev : Event)
    (hrun : Run.Guarded (Session.step A I) (DurableStep again) Session.fresh (es ++ [ev]))
    (hagain : again = none ∨ again = some s) : (Session.run A I es).Kept A I s ev := by
  obtain ⟨hes, hev⟩ := Run.guarded_append.mp hrun
  have hready : Ready s (Session.run A I es) :=
    hes.invariant (Ready s) (fun σ ev h hev => (h.step A I hagain hev).1)
      (Or.inr ⟨_, rfl, killed_empty s⟩)
  exact (hready.step A I hagain hev.1).2

/-- In a run whose steps are all durable, a power loss during any event loses no
    acknowledged operation, if the open after it gets the schema that the opens of the run
    got. -/
theorem powerSafe_of_guarded (again : Option VectorSchema) (es : List Event) (ev : Event)
    (hrun : Run.Guarded (Session.step A I) (DurableStep again) Session.fresh (es ++ [ev])) :
    (Session.run A I es).PowerSafe A I again ev := by
  intro d hd
  cases again with
  | some s => exact (kept_of_guarded A I es ev hrun (Or.inr rfl) d hd).yields_some A I
  | none =>
    -- a directory that fits every schema has no `vec_meta`
    have hkept := fun s : VectorSchema => kept_of_guarded (s := s) A I es ev hrun (Or.inl rfl) d hd
    refine (hkept ⟨0, .l2, 0⟩).yields_none A I ?_
    cases hm : d.vec.vecMeta with
    | none => rfl
    | some env =>
      have h0 := (hkept ⟨0, .l2, 0⟩).index env hm
      have h1 := (hkept ⟨1, .l2, 0⟩).index env hm
      rw [h0] at h1
      cases h1

/-- A checkpoint without an index, and an insert into an index whose schema the recovery
    gets again. -/
theorem powerSafe_of_checkpoint :
    (Session.run zeroArith noIpc [.restart none 0 .id, .call (.putKv [97] [1] true),
      .call (.putKv [97] [2, 3] true), .call (.deleteKv [98] true)]).PowerSafe zeroArith noIpc
        none (.call .checkpoint) ∧
    (Session.run zeroArith noIpc [.restart (some flatSchema) 0 .id,
      .call (.putKv [97] [1] true)]).PowerSafe zeroArith noIpc (some flatSchema)
        (.call (.insertVector 1 [0])) :=
  ⟨powerSafe_of_guarded zeroArith noIpc none [.restart none 0 .id,
      .call (.putKv [97] [1] true), .call (.putKv [97] [2, 3] true),
      .call (.deleteKv [98] true)] (.call .checkpoint) (by decide +kernel),
    powerSafe_of_guarded zeroArith noIpc (some flatSchema) [.restart (some flatSchema) 0 .id,
      .call (.putKv [97] [1] true)] (.call (.insertVector 1 [0])) (by decide +kernel)⟩

/-- Recovery replays a put into volatile memory and truncates the log: a power loss after
    it loses the value. -/
theorem value_lost_after_recovery :
    let σ := Session.run zeroArith noIpc [.restart none 0 .id, .call (.putKv [97] [1] true)]
    let σ' := σ.step zeroArith noIpc (.restart none 0 .id)
    lastValue [97] σ'.ops = some [1] ∧ ¬σ.PowerSafe zeroArith noIpc none (.restart none 0 .id) ∧
      ∃ e, (Engine.open zeroArith noIpc σ'.host.dir.powerLoss none 0 .id).1 = .ok e ∧
        e.getKvZeroCopy [97] = .ok none := by
  intro σ σ'
  obtain ⟨e, hop, hget⟩ : ∃ e, (Engine.open zeroArith noIpc σ'.host.dir.powerLoss
      none 0 .id).1 = .ok e ∧ e.getKvZeroCopy [97] = .ok none := by
    refine ⟨_, rfl, ?_⟩
    decide +kernel
  have hlast : lastValue [97] σ'.ops = some [1] := by decide +kernel
  refine ⟨hlast, fun hsafe => ?_, e, hop, hget⟩
  have hmem : σ'.host.dir ∈ σ.trace zeroArith noIpc (.restart none 0 .id) :=
    List.mem_of_getLast? (Session.getLast_trace zeroArith noIpc σ (.restart none 0 .id))
  obtain ⟨e', hop', hrefl⟩ := hsafe _ hmem .id
  obtain rfl : e = e' := Except.ok.inj (hop.symm.trans hop')
  have hval := hrefl.value [97] (by decide)
  rw [hget, hlast] at hval
  exact nomatch hval

end FusionStore
