import FusionStore.Spec.VectorReopen

/-!
# Compacting the vector index

`compact` copies every vector that is not soft-deleted, builds a graph over the copies
and switches the locator table to them.  `Rewritten` is what it has in hand before the
switch; the rest of the module says what the switch makes of each id.
-/

namespace FusionStore

/-- What a compaction makes of one id: soft-deleted vectors go, all others are live. -/
def Cell.compacted : Cell → Cell
  | .absent => .absent
  | .hidden v => .live v
  | .live v => .live v
  | .dead _ => .absent

/-- A compaction keeps what is not soft-deleted, hidden vectors included. -/
theorem Cell.compacted_ofFlag {flag : Option Bool} {v w : List F32} :
    (Cell.ofFlag flag v).compacted = .live w ↔ flag ≠ some true ∧ v = w := by
  cases flag with
  | none => simp [Cell.ofFlag, Cell.compacted]
  | some b => cases b <;> simp [Cell.ofFlag, Cell.compacted]

/-- Afterwards an id is absent or live. -/
theorem Cell.compacted_cases (c : Cell) : c.compacted = .absent ∨ ∃ v, c.compacted = .live v := by
  cases c <;> simp [Cell.compacted]

namespace VectorIndex

variable {n : Nat} (A : F32Arith)

/-- The vectors the scan of `compact` collects. -/
def liveVectors (x : VectorIndex) : List (NodeId × List F32) :=
  ((heedIter x.env.volatile.locatorDb).filter fun e => e.1 ∉ x.graph.allDeletedIds).map
    fun e => (e.1, decodeF32s (x.pool.writer.bytesAt e.2))

/-- The vectors that are kept have different ids. -/
theorem nodup_liveVectors (x : VectorIndex) : (x.liveVectors.map Prod.fst).Nodup :=
  nodup_live x x.graph.allDeletedIds

/-- They are those that stay live. -/
theorem mem_liveVectors {x : VectorIndex} {id : NodeId} {v : List F32} :
    (id, v) ∈ x.liveVectors ↔ (x.cell id).compacted = .live v := by
  simp only [liveVectors, List.mem_map, List.mem_filter, Prod.exists, mem_heedIter,
    Prod.mk.injEq, decide_eq_true_eq, NswGraph.mem_allDeletedIds]
  constructor
  · rintro ⟨j, loc, ⟨hl, hlive⟩, rfl, rfl⟩
    rw [cell_of_lookup hl, Cell.compacted_ofFlag]
    exact ⟨hlive, rfl⟩
  · intro hc
    cases hl : x.env.volatile.locatorDb.lookup id with
    | none =>
      rw [cell_eq_absent.mpr hl] at hc
      exact nomatch hc
    | some loc =>
      rw [cell_of_lookup hl, Cell.compacted_ofFlag] at hc
      exact ⟨id, loc, ⟨hl, hc.1⟩, rfl, hc.2⟩

/-- Likewise by id. -/
theorem mem_liveVectors_keys {x : VectorIndex} {id : NodeId} :
    id ∈ x.liveVectors.map Prod.fst ↔ (x.cell id).compacted ≠ .absent := by
  rw [List.mem_map]
  constructor
  · rintro ⟨e, he, rfl⟩ habs
    rw [mem_liveVectors.mp he] at habs
    exact nomatch habs
  · intro hne
    cases hc : x.cell id with
    | absent => simp [hc, Cell.compacted] at hne
    | dead v => simp [hc, Cell.compacted] at hne
    | hidden v => exact ⟨(id, v), mem_liveVectors.mpr (by rw [hc]; rfl), rfl⟩
    | live v => exact ⟨(id, v), mem_liveVectors.mpr (by rw [hc]; rfl), rfl⟩

/-- Stored vectors have the dimension of the schema. -/
theorem length_of_mem_liveVectors {x : VectorIndex} (h : x.InvAt n) {e : NodeId × List F32}
    (he : e ∈ x.liveVectors) :
    e.2.length = x.pool.dim ∧ x.pool.byteLen ≤ x.pool.segSize := by
  simp only [liveVectors, List.mem_map, List.mem_filter] at he
  obtain ⟨a, ⟨ha, -⟩, rfl⟩ := he
  obtain ⟨hh, hlen, -⟩ := h.holds a.1 a.2 (mem_heedIter.mp ha)
  constructor
  · show (decodeF32s (x.pool.writer.bytesAt a.2)).length = _
    rw [length_decodeF32s, Writer.bytesAt, SegMem.length_read, hlen, VecSegmentPool.byteLen]
    omega
  · -- a stored vector shows that its dimension fits a segment
    have hle : a.2.offset + a.2.len ≤ x.pool.segSize := hh.2.1
    omega

/-! ### The append loop -/

/-- The append loop of `compact` stores every live vector anew. -/
theorem appendAll_ok {p : VecSegmentPool} (h : p.Inv) {live : List (NodeId × List F32)}
    (hlive : ∀ e ∈ live, e.2.length = p.dim ∧ p.byteLen ≤ p.segSize) :
    ∃ locs p', appendAll p live = (.ok locs, p') ∧ p'.Inv ∧ p'.dim = p.dim ∧
      p.writer.Keeps p'.writer ∧ locs.map Prod.fst = live.map Prod.fst ∧
      ∀ e ∈ live, ∃ loc, (e.1, loc) ∈ locs ∧ p'.Copied loc e.2 := by
  -- by induction on the live vectors; the pool changes, its vector length does not
  induction live generalizing p with
  | nil => exact ⟨[], p, rfl, h, rfl, .refl _, rfl, fun e he => nomatch he⟩
  | cons e live ih =>
    obtain ⟨id, vector⟩ := e
    obtain ⟨hdim, hfit⟩ := hlive _ List.mem_cons_self
    obtain ⟨loc, q, happ, hq, hqd, hk, hh, hb, hslot⟩ := VecSegmentPool.append_ok h hdim hfit
    have hbyte : q.byteLen = p.byteLen := by
      rw [VecSegmentPool.byteLen, VecSegmentPool.byteLen, hqd]
    have hsize : q.segSize = p.segSize := hk.segSize
    obtain ⟨locs, r, happs, hr, hrd, hk', hkeys, hall⟩ := ih hq fun e he => by
      rw [hqd, hbyte, hsize]
      exact hlive e (List.mem_cons_of_mem _ he)
    refine ⟨(id, loc) :: locs, r, ?_, hr, hrd.trans hqd, hk.trans hk', ?_, ?_⟩
    · simp only [appendAll, happ, happs]
    · simp [hkeys]
    · -- a copy made earlier is kept by the appends after it
      intro e he
      obtain rfl | he := List.mem_cons.mp he
      · have hcopy : q.Copied loc vector := ⟨hh, hslot, hb⟩
        exact ⟨loc, List.mem_cons_self, hcopy.keeps hrd hk'⟩
      · obtain ⟨loc', hmem, hcopy⟩ := hall e he
        exact ⟨loc', List.mem_cons_of_mem _ hmem, hcopy⟩

/-- The new table has the new locators. -/
theorem lookup_newLocatorDb {locs : List (NodeId × ValueLocator)} (hnd : (locs.map Prod.fst).Nodup)
    {id : NodeId} {loc : ValueLocator} (h : (id, loc) ∈ locs) :
    (newLocatorDb locs).lookup id = some loc := by
  show (AList.insertAll Prod.fst Prod.snd ∅ locs).lookup id = some loc
  exact AList.lookup_insertAll_of_mem hnd h

/-- And no others. -/
theorem lookup_newLocatorDb_none {locs : List (NodeId × ValueLocator)} {id : NodeId}
    (h : id ∉ locs.map Prod.fst) : (newLocatorDb locs).lookup id = none := by
  show (AList.insertAll Prod.fst Prod.snd ∅ locs).lookup id = none
  rw [AList.lookup_insertAll_of_notMem h, AList.lookup_empty]

/-! ### What is ready for the switch -/

/-- The copies of the live vectors with their locators and the graph over them. -/
structure Rewritten (x : VectorIndex) (order : MapOrder) (locs : List (NodeId × ValueLocator))
    (pool : VecSegmentPool) (graph : NswGraph) : Prop where
  read : x.readLive x.graph.allDeletedIds = .ok x.liveVectors
  append : appendAll x.pool x.liveVectors = (.ok locs, pool)
  build : buildGraph A x.schema.metric order x.liveVectors = .ok graph
  inv : pool.Inv
  dim : pool.dim = x.pool.dim
  keeps : x.pool.writer.Keeps pool.writer
  graphInv : graph.Inv
  kept : ∀ id v, (x.cell id).compacted = .live v → graph.flag id = some false ∧
    ∃ loc, (newLocatorDb locs).lookup id = some loc ∧ pool.Copied loc v
  dropped : ∀ id, (x.cell id).compacted = .absent → graph.flag id = none ∧
    (newLocatorDb locs).lookup id = none

/-- An index at rest can be rewritten. -/
theorem rewritten_ok {x : VectorIndex} (h : x.InvAt n) (order : MapOrder) :
    ∃ locs pool graph, x.Rewritten A order locs pool graph := by
  obtain ⟨locs, pool, happ, hp, hpd, hk, hkeys, hall⟩ :=
    appendAll_ok h.pool fun e (he : e ∈ x.liveVectors) => length_of_mem_liveVectors h he
  obtain ⟨graph, hbuild, hg, hin, hout⟩ :=
    buildGraph_ok A x.schema.metric order (nodup_liveVectors x)
  have hnd : (locs.map Prod.fst).Nodup := hkeys ▸ nodup_liveVectors x
  refine ⟨locs, pool, graph, readLive_ok h _, happ, hbuild, hp, hpd, hk, hg, ?_, ?_⟩
  · intro id v hc
    have hmem := mem_liveVectors.mpr hc
    obtain ⟨loc, hloc, hcopy⟩ := hall _ hmem
    exact ⟨hin id (List.mem_map_of_mem hmem), loc, lookup_newLocatorDb hnd hloc, hcopy⟩
  · intro id hc
    have hno : id ∉ x.liveVectors.map Prod.fst := by
      rw [mem_liveVectors_keys, hc]
      exact fun hne => hne rfl
    exact ⟨hout id hno, lookup_newLocatorDb_none (hkeys ▸ hno)⟩

/-- The index after the switch. -/
def switched (x : VectorIndex) (locs : List (NodeId × ValueLocator)) (pool : VecSegmentPool)
    (graph : NswGraph) : VectorIndex :=
  { x with
    pool := pool.flush
    env := x.env.write { x.env.volatile with locatorDb := newLocatorDb locs }
    locators := newLocatorDb locs
    graph := graph
    snapshot := some (Snapshot.serialize graph) }

variable {x : VectorIndex} {order : MapOrder} {locs : List (NodeId × ValueLocator)}
  {pool : VecSegmentPool} {graph : NswGraph}

/-- With that done, only the free space decides. -/
theorem compact_eq (hr : x.Rewritten A order locs pool graph) (avail : Option Nat) :
    x.compact A order avail = match ensureDiskAvailable avail x.diskBytes with
      | .error e => (.error e, x)
      | .ok _ => (.ok x.liveVectors.length, x.switched locs pool graph) := by
  unfold compact
  cases ensureDiskAvailable avail x.diskBytes with
  | error e => rfl
  | ok _ =>
    simp only [hr.read, hr.append, hr.build]
    rfl

/-- A locator of the new table names the copy of a vector that stays. -/
theorem Rewritten.located (hr : x.Rewritten A order locs pool graph) {id : NodeId}
    {loc : ValueLocator} (hl : (newLocatorDb locs).lookup id = some loc) :
    ∃ v, (x.cell id).compacted = .live v ∧ graph.flag id = some false ∧ pool.Copied loc v := by
  obtain hc | ⟨v, hc⟩ := (x.cell id).compacted_cases
  · rw [(hr.dropped id hc).2] at hl
    exact nomatch hl
  · obtain ⟨hflag, loc', hl', hcopy⟩ := hr.kept id v hc
    obtain rfl : loc' = loc := Option.some.inj (hl'.symm.trans hl)
    exact ⟨v, hc, hflag, hcopy⟩

/-- Every node of the new graph has a locator. -/
theorem Rewritten.nodes (hr : x.Rewritten A order locs pool graph) {id : NodeId}
    (hf : graph.flag id ≠ none) : ((newLocatorDb locs).lookup id).isSome := by
  obtain hc | ⟨v, hc⟩ := (x.cell id).compacted_cases
  · exact absurd (hr.dropped id hc).1 hf
  · obtain ⟨-, loc, hl, -⟩ := hr.kept id v hc
    simp [hl]

/-- The invariant after the switch. -/
theorem inv_switched (h : x.InvAt n) (hr : x.Rewritten A order locs pool graph) :
    (x.switched locs pool graph).InvAt n := by
  have hbyte : pool.byteLen = x.pool.byteLen := by
    rw [VecSegmentPool.byteLen, VecSegmentPool.byteLen, hr.dim]
  refine ⟨VecSegmentPool.inv_flush hr.inv, hr.keeps.segSize.trans h.segSize, hr.dim.trans h.dim,
    h.schema, rfl, ?_, hr.graphInv,
    fun id hf => hr.nodes A hf, ?_⟩
  · intro id loc hl
    obtain ⟨v, -, -, hh, hslot, -⟩ := hr.located A hl
    exact ⟨hh, hslot⟩
  · intro snap hs
    rw [show (x.switched locs pool graph).snapshot = some (Snapshot.serialize graph) from rfl,
      Option.mem_some_iff] at hs
    exact ⟨graph, hs.symm, hr.graphInv, fun id hf => hr.nodes A hf⟩

/-- The cells after the switch. -/
theorem cell_switched (hr : x.Rewritten A order locs pool graph) (id : NodeId) :
    (x.switched locs pool graph).cell id = (x.cell id).compacted := by
  obtain hc | ⟨v, hc⟩ := (x.cell id).compacted_cases
  · rw [hc]
    exact cell_eq_absent.mpr (hr.dropped id hc).2
  · obtain ⟨hflag, loc, hl, -, -, hb⟩ := hr.kept id v hc
    rw [cell_of_lookup hl, hc]
    show Cell.ofFlag (graph.flag id) (decodeF32s (pool.writer.bytesAt loc)) = _
    rw [hflag, hb, decodeF32s_encodeF32s]
    rfl

/-- A compaction keeps the invariant, whether it succeeds or not. -/
theorem compact_spec {x : VectorIndex} (h : x.InvAt n) (order : MapOrder) (avail : Option Nat) :
    (x.compact A order avail).2.InvAt n ∧ (x.compact A order avail).2.schema = x.schema := by
  obtain ⟨locs, pool, graph, hr⟩ := rewritten_ok A h order
  rw [compact_eq A hr]
  split
  · exact ⟨h, rfl⟩
  · exact ⟨inv_switched A h hr, rfl⟩

end VectorIndex

end FusionStore
