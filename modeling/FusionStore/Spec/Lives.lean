import FusionStore.Spec.HttpObject

/-!
# From one process to the next

What an engine holds when it is closed is in its files, and an engine opened on them holds it
again, with one exception: opened without a schema it shows the soft-deleted vectors as well.

## Key results

- `Engine.Matches.holds_close`, `EngineDir.Holds.reopen`, `EngineDir.Holds.open_some`: a close,
  and the two ways to open the files again
-/

namespace FusionStore

/-- Every vector is shown, also the soft-deleted ones. -/
def VecMap.revive (m : VecMap) : VecMap := fun id => (m id).map fun e => (e.1, false)

theorem VecMap.cell_revive (m : VecMap) (id : NodeId) :
    m.revive.cell id = (m.cell id).rebuilt := by
  unfold cell revive
  rcases m id with _ | ⟨v, _ | _⟩ <;> rfl

/-- The contents after a restart without a schema. -/
def Contents.revive (c : Contents) : Contents := { c with vectors := c.vectors.revive }

/-- Files that hold `c`, with nothing left to replay. -/
structure EngineDir.Holds (schema : VectorSchema) (d : EngineDir) (c : Contents) : Prop where
  inv : d.Inv schema
  schema_eq : d.schema = some schema
  fits : schema.dim * 4 ≤ defaultVecSegmentSize
  settled : d.wal.pending = []
  covered : ∀ key, d.kv.Covered key
  view : ∀ key, d.kv.view key = c.value key
  stored : ∀ id, d.vec.stored id = (c.vectors id).map Prod.fst
  graph : ∃ g : NswGraph, d.vec.snapshot = some (Snapshot.serialize g) ∧ g.Inv ∧
    ∀ id, g.flag id = (c.vectors id).map Prod.snd

namespace Engine

variable {A : F32Arith} {I : Ipc} {schema : VectorSchema} {e : Engine} {c : Contents}

theorem Matches.schema_some (h : e.Matches schema c) : e.schema = some schema := by
  obtain ⟨x, hvec, hx⟩ := h.index
  rw [schema_opened hvec, h.schema_eq hvec]

/-- The flags in the graph are those of the map. -/
theorem Matches.flag_eq (h : e.Matches schema c) {x : VectorIndex} (hvec : e.vec = .opened x)
    (id : NodeId) : x.graph.flag id = (c.vectors id).map Prod.snd := by
  obtain ⟨y, hy, hx⟩ := h.index
  obtain rfl : y = x := by
    rw [hvec] at hy
    exact (Slot.opened.inj hy).symm
  have hcell : y.cell id = c.vectors.cell id := hx.cells id
  cases hl : y.env.volatile.locatorDb.lookup id with
  | none =>
    -- what has no locator has no node
    have hflag : y.graph.flag id = none := by
      by_contra hne
      have hsome := hx.index.nodes id hne
      rw [hl] at hsome
      cases hsome
    rw [VectorIndex.cell_eq_absent.mpr hl] at hcell
    have hnone : c.vectors id = none := by
      rw [← Option.not_isSome_iff_eq_none, ← VecMap.cell_ne_absent, ← hcell]
      exact fun hne => hne rfl
    rw [hflag, hnone]
    rfl
  | some loc =>
    rw [VectorIndex.cell_of_lookup hl] at hcell
    unfold VecMap.cell at hcell
    cases hm : c.vectors id with
    | none =>
      rw [hm] at hcell
      cases hf : y.graph.flag id with
      | none => rw [hf] at hcell; cases hcell
      | some b => rw [hf] at hcell; cases b <;> cases hcell
    | some p =>
      rw [hm] at hcell
      obtain ⟨v, b⟩ := p
      cases hf : y.graph.flag id with
      | none => rw [hf] at hcell; cases b <;> cases hcell
      | some b' => rw [hf] at hcell; cases b <;> cases b' <;> first | rfl | cases hcell

/-- A checkpoint changes nothing that is stored. -/
theorem Matches.checkpoint (h : e.Matches schema c) : e.checkpoint.Matches schema c where
  inv := inv_checkpoint h.inv
  good key := by
    rw [kv_checkpoint]
    exact h.good key
  view key := by
    rw [kv_checkpoint]
    exact h.view key
  index := by
    obtain ⟨x, hvec, hx⟩ := h.index
    obtain ⟨hinv, hschema, hcell⟩ := VectorIndex.checkpoint_spec hx.index
    refine ⟨x.checkpoint, ?_, hinv, ?_, hx.fits, fun id => ?_⟩
    · rw [vec_checkpoint, hvec]
    · show x.checkpoint.schema.dim = schema.dim
      rw [hschema]
      exact hx.schema
    · exact (hcell id).trans (hx.cells id)

/-- A closed engine leaves all it holds in its files. -/
theorem Matches.holds_close (h : e.Matches schema c) : e.close.dir.Holds schema c := by
  have hc : e.close.Matches schema c := h.checkpoint
  obtain ⟨x, hvec, hx⟩ := h.index
  have hclose : e.close.vec = .opened x.checkpoint := by
    rw [close, vec_checkpoint, hvec]
  refine ⟨hc.inv.dir, ?_, hx.fits, pending_checkpoint h.inv, ?_, hc.view, fun id => ?_,
    x.graph, ?_, hx.index.graph, h.flag_eq hvec⟩
  · rw [schema_dir hc.inv, hc.schema_some]
  · -- the flush has recorded the cursor
    intro key loc hl p hp
    have hkv : e.close.kv = e.kv.flush := kv_checkpoint e
    have hgood : e.kv.Good key := h.good key
    change loc ∈ e.close.kv.env.volatile.db.lookup key at hl
    change p ∈ e.close.kv.pool.dir.cursor at hp
    rw [hkv] at hl hp
    obtain rfl : (e.kv.pool.activeId, e.kv.pool.activeCursor) = p := Option.mem_some_iff.mp hp
    exact (hgood loc hl).2.2
  · rw [stored_dir hc.inv, cell_opened hclose]
    obtain ⟨-, -, hcell⟩ := VectorIndex.checkpoint_spec hx.index
    have hcells : x.cell id = c.vectors.cell id := hx.cells id
    rw [hcell, hcells]
    unfold VecMap.cell
    rcases c.vectors id with _ | ⟨v, _ | _⟩ <;> rfl
  · have hdir : e.close.dir.vec = x.checkpoint.dir := by
      simp only [dir, hclose]
    rw [hdir]
    rfl

end Engine

namespace VectorIndex

variable {A : F32Arith} {x y : VectorIndex} {files : VecDir} {order : MapOrder}

/-- A rebuilt graph is not written to the snapshot. -/
theorem snapshot_rebuildGraphFromData (h : x.rebuildGraphFromData A order = .ok y) :
    y.snapshot = x.snapshot := by
  obtain ⟨live, -, hgraph⟩ := Except.bind_ok h
  obtain ⟨graph, -, hy⟩ := Except.bind_ok hgraph
  obtain rfl := Except.ok.inj hy
  rfl

theorem snapshot_reopen (h : (VectorIndex.reopen A files 0 order).1 = .ok x) :
    x.snapshot = files.snapshot := by
  unfold VectorIndex.reopen at h
  dsimp only at h
  split at h
  · cases h
  · split at h
    · exact snapshot_rebuildGraphFromData h
    · obtain rfl := Except.ok.inj h
      rfl

theorem snapshot_open {schema : VectorSchema} (h : (VectorIndex.open files schema 0).1 = .ok x) :
    x.snapshot = files.snapshot := by
  unfold VectorIndex.open at h
  dsimp only at h
  split at h
  · cases h
  · obtain rfl := Except.ok.inj h
    rfl

end VectorIndex

/-- An opened index has the snapshot that it found. -/
theorem Engine.snapshot_openVec {A : F32Arith} {files : VecDir} {s : Option VectorSchema}
    {order : MapOrder} {x : VectorIndex} (h : (openVec A files s order).1 = .ok (.opened x)) :
    x.snapshot = files.snapshot := by
  have hopened : ∀ {r : Except StoreError VectorIndex},
      r.map Slot.opened = (.ok (.opened x) : Except StoreError (Slot VecDir VectorIndex)) →
        r = .ok x := by
    intro r hr
    cases r with
    | error err => cases hr
    | ok y => rw [Slot.opened.inj (Except.ok.inj hr)]
  unfold openVec at h
  cases s with
  | some t => exact VectorIndex.snapshot_open (hopened h)
  | none =>
    cases hm : files.vecMeta with
    | none =>
      rw [hm] at h
      cases h
    | some env =>
      rw [hm] at h
      exact VectorIndex.snapshot_reopen (hopened h)

namespace EngineDir.Holds

variable {A : F32Arith} {I : Ipc} {schema : VectorSchema} {d : EngineDir} {c : Contents}

/-- With nothing to replay, `open` returns the engine it has put together. -/
theorem open_eq (h : d.Holds schema c) {s : Option VectorSchema} {quota : Nat} {order : MapOrder}
    {start : NodeId → Cell} {e : Engine}
    (hres : Engine.Restores A I schema d s quota order start e) :
    Engine.open A I d s quota order = (.ok e, e.dir) := by
  have hpending : e.wal.dir.pending = [] := by
    rw [hres.wal]
    exact h.settled
  rw [hres.eq, Engine.recoverInner, hpending]
  rfl

/-- The engine holds what the files hold, with the vectors as its graph shows them. -/
theorem matches_open (h : d.Holds schema c) {s : Option VectorSchema} {quota : Nat}
    {order : MapOrder} {start : NodeId → Cell} {e : Engine}
    (hres : Engine.Restores A I schema d s quota order start e) (hschema : e.schema = some schema)
    {vectors : VecMap} (hstart : ∀ id, start id = vectors.cell id) :
    e.Matches schema ⟨c.value, vectors⟩ where
  inv := hres.inv
  good key := by
    rw [hres.kv]
    exact KvStore.good_open h.inv.kv quota (h.covered key)
  view key := by
    rw [hres.kv]
    exact (KvStore.view_open h.inv.kv quota key).trans (h.view key)
  index := by
    have hinv := hres.inv.vec
    cases hvec : e.vec with
    | closed files =>
      unfold Engine.schema at hschema
      rw [hvec] at hschema
      cases hschema
    | opened x =>
      rw [hvec] at hinv
      refine ⟨x, rfl, hinv.1, congrArg VectorSchema.dim hinv.2, h.fits, fun id => ?_⟩
      have hcell := (hres.cell id).trans (hstart id)
      rw [Engine.cell_opened hvec] at hcell
      exact hcell

/-- An engine that is dropped right after it was opened leaves the files as they were. -/
theorem dropped (h : d.Holds schema c) {s : Option VectorSchema} {quota : Nat} {order : MapOrder}
    {start : NodeId → Cell} {e : Engine} (hres : Engine.Restores A I schema d s quota order start e)
    (hschema : e.schema = some schema)
    (hstart : ∀ id, (start id).stored = (c.vectors id).map Prod.fst) :
    e.dir.Holds schema c := by
  -- opening changes no snapshot and no stored value, and the log had nothing to replay
  obtain ⟨g, hsnap, hg, hflags⟩ := h.graph
  have hkv : e.dir.kv = (KvStore.open d.kv 0 quota).dir := congrArg KvStore.dir hres.kv
  refine ⟨hres.inv.dir, (Engine.schema_dir hres.inv).trans hschema, h.fits, ?_, ?_, fun key => ?_,
    fun id => ?_, g, ?_, hg, hflags⟩
  · show e.wal.dir.pending = []
    rw [hres.wal]
    exact h.settled
  · -- a new segment leaves the recorded cursor
    have hcursor : (SegmentPool.open d.kv.segs 0).dir.cursor = d.kv.segs.cursor :=
      SegDir.cursor_createSeg _ _
    intro key loc hl p hp
    rw [hkv] at hl hp
    change p ∈ (SegmentPool.open d.kv.segs 0).dir.cursor at hp
    rw [hcursor] at hp
    exact h.covered key loc hl p hp
  · rw [hkv]
    exact (KvStore.view_open h.inv.kv quota key).trans (h.view key)
  · rw [Engine.stored_dir hres.inv, hres.cell, hstart]
  · unfold Engine.schema at hschema
    cases hvec : e.vec with
    | closed files =>
      rw [hvec] at hschema
      cases hschema
    | opened x =>
      have hopened := hres.vec
      rw [hvec] at hopened
      have hdir : e.dir.vec = x.dir := by
        simp only [Engine.dir, hvec]
      rw [hdir]
      exact (Engine.snapshot_openVec hopened).trans hsnap

/-- Opened without a schema: everything is there, also what was soft-deleted. -/
theorem reopen (h : d.Holds schema c) (quota : Nat) (order : MapOrder) :
    ∃ e, Engine.open A I d none quota order = (.ok e, e.dir) ∧ e.Matches schema c.revive ∧
      e.kv = KvStore.open d.kv 0 quota ∧ e.dir.Holds schema c := by
  obtain ⟨e, hres, hschema⟩ := Engine.restores_none A I h.inv quota order
  have hcell : ∀ id, Engine.reopenedCell d id = c.vectors.revive.cell id := by
    intro id
    rw [Engine.reopenedCell, h.stored id]
    unfold VecMap.cell VecMap.revive
    cases c.vectors id with
    | none => rfl
    | some p => rfl
  refine ⟨e, h.open_eq hres, h.matches_open hres (hschema.trans h.schema_eq) hcell, hres.kv,
    h.dropped hres (hschema.trans h.schema_eq) fun id => ?_⟩
  rw [hcell, VecMap.cell_revive]
  unfold VecMap.cell
  rcases c.vectors id with _ | ⟨v, _ | _⟩ <;> rfl

/-- Opened with the schema it has: everything is as before, or the entry point of the graph is
    soft-deleted and the files stay closed. -/
theorem open_some (h : d.Holds schema c) (quota : Nat) (order : MapOrder) :
    (∃ e, Engine.open A I d (some schema) quota order = (.ok e, e.dir) ∧ e.Matches schema c ∧
      e.kv = KvStore.open d.kv 0 quota ∧ e.dir.Holds schema c) ∨
    ((∃ id v, c.vectors id = some (v, true)) ∧ ∃ msg left,
      Engine.open A I d (some schema) quota order = (.error (.corrupt msg), left) ∧
        left.Holds schema c ∧ left.kv.env = d.kv.env) := by
  obtain ⟨g, hsnap, hg, hflags⟩ := h.graph
  obtain ⟨⟨g', hload, hsame⟩, -⟩ | ⟨ep, hep, hdel, herr⟩ := (Snapshot.lists_serialize g).load hg
  · -- the graph of the snapshot is restored
    rw [← hsnap] at hload
    obtain ⟨e, hres, hschema⟩ := Engine.restores_some A I h.inv hload quota order
    have hcell : ∀ id, Engine.openedCell d (some g') id = c.vectors.cell id := by
      intro id
      rw [Engine.openedCell, h.stored id, Option.getD_some, hsame.flag id, hflags id]
      unfold VecMap.cell
      cases c.vectors id with
      | none => rfl
      | some p => rfl
    refine Or.inl ⟨e, h.open_eq hres, h.matches_open hres hschema hcell, hres.kv,
      h.dropped hres hschema fun id => ?_⟩
    rw [hcell]
    unfold VecMap.cell
    rcases c.vectors id with _ | ⟨v, _ | _⟩ <;> rfl
  · -- `load` rejects an entry point that is deleted
    rw [← hsnap] at herr
    rw [hflags ep] at hdel
    obtain ⟨⟨v, b⟩, hv, hb⟩ := Option.map_eq_some_iff.mp hdel
    obtain rfl : b = true := hb
    obtain ⟨hinv, hmeta, hsnapshot, hstored⟩ := VectorIndex.open_left h.inv.vec
    refine Or.inr ⟨⟨ep, v, hv⟩, _, _, Engine.open_some_error A I herr quota order, ?_, rfl⟩
    refine ⟨⟨(KvStore.inv_open h.inv.kv quota).dir, hinv, h.inv.wal⟩, ?_, h.fits, h.settled, ?_,
      fun key => ?_, fun id => (hstored id).trans (h.stored id), g, ?_, hg, hflags⟩
    · obtain ⟨env, henv⟩ := Option.isSome_iff_exists.mp hmeta
      show Option.bind _ _ = _
      rw [henv]
      exact hinv.schema env henv
    · -- a new segment leaves the recorded cursor
      have hcursor : (SegmentPool.open d.kv.segs 0).dir.cursor = d.kv.segs.cursor :=
        SegDir.cursor_createSeg _ _
      intro key loc hl p hp
      change p ∈ (SegmentPool.open d.kv.segs 0).dir.cursor at hp
      rw [hcursor] at hp
      exact h.covered key loc hl p hp
    · exact (KvStore.view_open h.inv.kv quota key).trans (h.view key)
    · exact hsnapshot.trans hsnap

end EngineDir.Holds

end FusionStore
