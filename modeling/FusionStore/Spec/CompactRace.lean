import FusionStore.ForStd.Run
import FusionStore.Native.CompactSteps
import FusionStore.Spec.VectorRestart

/-!
# A compaction beside inserts and deletes

`compact` takes its locks section by section.  What it writes back (locators, graph and
cache) comes from one scan, so an insert between the scan and the switch of the graph is
dropped, and a delete between the look at the deleted ids and that switch is undone.
Everything else is kept: `noneLost_of_guarded`.
-/

namespace FusionStore

namespace VectorIndex

variable {n : Nat} {x y : VectorIndex} (A : F32Arith)

/-- An insert that goes through. -/
def Accepts (x : VectorIndex) (id : NodeId) (vector : List F32) : Prop :=
  vector.length = x.schema.dim ∧ x.env.volatile.locatorDb.lookup id = none ∧ x.Fits ∧
    x.graph.nodes.lookup id = none

instance (x : VectorIndex) (id : NodeId) (vector : List F32) : Decidable (x.Accepts id vector) :=
  inferInstanceAs (Decidable (_ ∧ _ ∧ x.schema.dim * 4 ≤ x.pool.segSize ∧ _))

/-- The invariant of an index whose cache may lag behind: what it has for a node is the
    locator of the table. -/
structure Lagging (n : Nat) (x : VectorIndex) : Prop where
  pool : x.pool.Inv
  segSize : x.pool.segSize = n
  dim : x.pool.dim = x.schema.dim
  holds : ∀ id loc, x.env.volatile.locatorDb.lookup id = some loc →
    x.pool.writer.Holds loc ∧ x.pool.Slot loc
  graph : x.graph.Inv
  nodes : ∀ id, x.graph.flag id ≠ none → (x.env.volatile.locatorDb.lookup id).isSome
  cache : ∀ id loc, x.graph.flag id ≠ none → x.locators.lookup id = some loc →
    x.env.volatile.locatorDb.lookup id = some loc

/-- The cache of an index at rest does not lag. -/
theorem InvAt.lagging (h : x.InvAt n) : x.Lagging n :=
  ⟨h.pool, h.segSize, h.dim, h.holds, h.graph, h.nodes, fun id loc _ hl => by rwa [← h.cache]⟩

namespace Lagging

/-- Without a locator there is no node. -/
theorem flag_none (h : x.Lagging n) {id : NodeId}
    (hl : x.env.volatile.locatorDb.lookup id = none) : x.graph.flag id = none := by
  by_contra hn
  have hsome := h.nodes id hn
  rw [hl] at hsome
  exact nomatch hsome

/-- Visible are the live nodes. -/
theorem visible_iff (h : x.Lagging n) (id : NodeId) :
    (x.cell id).visible ≠ none ↔ x.graph.flag id = some false := by
  cases hl : x.env.volatile.locatorDb.lookup id with
  | none => simp [cell_eq_absent.mpr hl, h.flag_none hl, Cell.visible]
  | some loc =>
    rw [cell_of_lookup hl]
    cases x.graph.flag id with
    | none => simp [Cell.ofFlag, Cell.visible]
    | some b => cases b <;> simp [Cell.ofFlag, Cell.visible]

/-- A node is read through the cache or, failing that, the table; both say the same. -/
theorem getVector_eq (h : x.Lagging n) (id : NodeId) :
    x.getVector id = .ok (x.cell id).visible := by
  unfold getVector
  cases hdel : x.graph.isDeleted id with
  -- soft-deleted or unknown: nothing to show
  | true =>
    have hnone : (x.cell id).visible = none := by
      by_contra hne
      rw [← ne_eq, h.visible_iff, ← NswGraph.isDeleted_iff, hdel] at hne
      exact nomatch hne
    simp [hnone]
  | false =>
    have hflag := NswGraph.isDeleted_iff.mp hdel
    have hnode : x.graph.flag id ≠ none := by simp [hflag]
    obtain ⟨loc, hl⟩ := Option.isSome_iff_exists.mp (h.nodes id hnode)
    obtain ⟨hh, hlen⟩ := h.holds id loc hl
    -- a live node has a locator, and its bytes are read, from the cache or from the table
    have hslice : x.vecSlice id = .ok (decodeF32s (x.pool.writer.bytesAt loc)) := by
      rw [← VecSegmentPool.vecSlice_of_holds hh hlen.1]
      unfold vecSlice
      cases hc : x.locators.lookup id with
      | none => simp only [hl]
      | some loc' =>
        obtain rfl : loc' = loc := Option.some.inj ((h.cache id loc' hnode hc).symm.trans hl)
        rfl
    rw [hslice, cell_of_lookup hl, hflag]
    rfl

/-- They are what is listed. -/
theorem mem_listVectorIds (h : x.Lagging n) (id : NodeId) :
    id ∈ x.listVectorIds ↔ (x.cell id).visible ≠ none := by
  rw [h.visible_iff]
  exact NswGraph.mem_allIds

/-- A pool that keeps what it holds. -/
theorem withPool (h : x.Lagging n) {pool : VecSegmentPool} (hp : pool.Inv)
    (hdim : pool.dim = x.pool.dim) (hk : x.pool.writer.Keeps pool.writer) :
    ({ x with pool } : VectorIndex).Lagging n := by
  refine ⟨hp, hk.segSize.trans h.segSize, hdim.trans h.dim, ?_, h.graph, h.nodes, h.cache⟩
  intro id loc hl
  obtain ⟨hh, hslot⟩ := h.holds id loc hl
  exact ⟨hk.holds loc hh, hslot.of_dim hdim⟩

/-- Moving on in the segments changes no cell. -/
theorem cell_withPool (h : x.Lagging n) {pool : VecSegmentPool}
    (hk : x.pool.writer.Keeps pool.writer) (id : NodeId) :
    ({ x with pool } : VectorIndex).cell id = x.cell id :=
  cell_congr rfl rfl fun loc hl => hk.bytesAt loc (h.holds id loc hl).1

/-- A locator for an id that has none. -/
theorem putLocator (h : x.Lagging n) {id : NodeId} {loc : ValueLocator} {v : List F32}
    (hnew : x.env.volatile.locatorDb.lookup id = none) (hcopy : x.pool.Copied loc v) :
    (x.putLocator id loc).Lagging n ∧
      (x.putLocator id loc).cell id = .ofFlag (x.graph.flag id) v ∧
      ∀ j, j ≠ id → (x.putLocator id loc).cell j = x.cell j := by
  obtain ⟨hh, hlen, hb⟩ := hcopy
  have hself : (x.putLocator id loc).env.volatile.locatorDb.lookup id = some loc :=
    AList.lookup_insert _
  have hother : ∀ j, j ≠ id → (x.putLocator id loc).env.volatile.locatorDb.lookup j =
      x.env.volatile.locatorDb.lookup j := fun j hj => AList.lookup_insert_ne hj
  refine ⟨⟨h.pool, h.segSize, h.dim, ?_, h.graph, ?_, ?_⟩, ?_, ?_⟩
  · -- the new locator names the copy, the others are unchanged
    intro j l hl
    by_cases hj : j = id
    · rw [hj, hself, Option.some.injEq] at hl
      subst hl
      exact ⟨hh, hlen⟩
    · rw [hother j hj] at hl
      exact h.holds j l hl
  · -- a node of the graph has a locator, the new id among them or not
    intro j hf
    by_cases hj : j = id
    · rw [hj, hself]
      rfl
    · rw [hother j hj]
      exact h.nodes j hf
  · -- the new id is in no graph yet, so its cache entry does not matter
    intro j l hf hl
    by_cases hj : j = id
    · subst hj
      exact absurd (h.flag_none hnew) hf
    · rw [hother j hj]
      exact h.cache j l hf ((AList.lookup_insert_ne hj).symm.trans hl)
  · rw [cell_of_lookup hself]
    show Cell.ofFlag (x.graph.flag id) (decodeF32s (x.pool.writer.bytesAt loc)) = _
    rw [hb, decodeF32s_encodeF32s]
  · exact fun j hj => cell_congr (hother j hj) rfl fun _ _ => rfl

end Lagging

/-- `y` differs from `x` in nothing that a section of `compact` looks at. -/
structure Quiet (x y : VectorIndex) : Prop where
  schema : y.schema = x.schema
  table : y.env.volatile.locatorDb = x.env.volatile.locatorDb
  flag : ∀ id, y.graph.flag id = x.graph.flag id
  dim : y.pool.dim = x.pool.dim
  keeps : x.pool.writer.Keeps y.pool.writer

/-- Nothing was done. -/
theorem Quiet.refl (x : VectorIndex) : Quiet x x := ⟨rfl, rfl, fun _ => rfl, rfl, .refl _⟩

/-- Quiet changes keep the cells. -/
theorem Quiet.cell (h : Quiet x y) (hx : x.Lagging n) (id : NodeId) : y.cell id = x.cell id :=
  cell_congr (by rw [h.table]) (h.flag id) fun loc hl => h.keeps.bytesAt loc (hx.holds id loc hl).1

/-- What an insert does beside a lagging cache. -/
theorem Lagging.insert_cases (h : x.Lagging n) (id : NodeId) (v : List F32) :
    (¬x.Accepts id v ∧ ∃ err y, x.insert A id v = (.error err, y) ∧ y.Lagging n ∧ Quiet x y) ∨
    (x.Accepts id v ∧ ∃ y, x.insert A id v = (.ok (), y) ∧ y.Lagging n ∧ x.cell id = .absent ∧
      y.cell id = .live v ∧ (∀ j, j ≠ id → y.cell j = x.cell j) ∧
      (∀ j, j ≠ id → y.graph.flag j = x.graph.flag j) ∧
      ∀ j, j ≠ id → y.env.volatile.locatorDb.lookup j = x.env.volatile.locatorDb.lookup j) := by
  obtain ⟨hdim, he⟩ | ⟨hdim, hsome, he⟩ | ⟨hdim, hl, hfit, loc, pool, hp, hpd, hk, hcopy, hc⟩ |
    ⟨hdim, hl, hfit, msg, pool, he, hp, hpd, hk⟩ := insert_inversion A h.pool h.dim h.graph id v
  · -- the wrong dimension
    exact .inl ⟨fun hacc => hdim hacc.1, _, _, he, h, .refl x⟩
  · -- a locator in the table
    refine .inl ⟨fun hacc => ?_, _, _, he, h, .refl x⟩
    rw [hacc.2.1] at hsome
    exact nomatch hsome
  · -- the table had room for the id: a node without a locator cannot be there
    obtain ⟨hn, -⟩ | ⟨hn, g, he, hg, hgid, hgo⟩ := hc
    · exact absurd (h.flag_none hl) hn
    have hnode : x.graph.nodes.lookup id = none := by
      by_contra hne
      exact NswGraph.flag_ne_none.mpr (Option.isSome_iff_ne_none.mpr hne) hn
    obtain ⟨hput, hself, hother⟩ := (h.withPool hp hpd hk).putLocator hl hcopy
    have hlook : (({ x with pool } : VectorIndex).putLocator id loc).env.volatile.locatorDb.lookup
        id = some loc := AList.lookup_insert _
    refine .inr ⟨⟨hdim, hl, hfit, hnode⟩, _, he, ?_, cell_eq_absent.mpr hl, ?_, ?_, hgo, ?_⟩
    · refine ⟨hput.pool, hput.segSize, hput.dim, hput.holds, hg, ?_, ?_⟩
      · intro j hj
        by_cases hji : j = id
        · rw [hji]
          exact Option.isSome_iff_exists.mpr ⟨loc, hlook⟩
        · exact hput.nodes j (hgo j hji ▸ hj)
      · intro j l hj hcache
        by_cases hji : j = id
        · -- the new id is in the cache with the locator it has in the table
          subst hji
          have hput' : (({ x with pool } : VectorIndex).putLocator j loc).locators.lookup j =
            some loc := AList.lookup_insert _
          exact hlook.trans (hput'.symm.trans hcache)
        · exact hput.cache j l (hgo j hji ▸ hj) hcache
    · refine Eq.trans (cell_of_lookup hlook) ?_
      show Cell.ofFlag (g.flag id) (decodeF32s (pool.writer.bytesAt loc)) = _
      rw [hgid, hcopy.2.2, decodeF32s_encodeF32s]
      rfl
    · intro j hj
      rw [← h.cell_withPool hk j, ← hother j hj]
      exact cell_congr rfl (hgo j hj) fun _ _ => rfl
    · exact fun j hj => AList.lookup_insert_ne hj
  · -- the vector does not fit in a segment
    exact .inl ⟨fun hacc => hfit hacc.2.2.1, _, _, he, h.withPool hp hpd hk,
      rfl, rfl, fun _ => rfl, hpd, hk⟩

/-- A delete beside a compaction marks its cell, and is quiet if the node was no live one. -/
theorem Lagging.delete (h : x.Lagging n) (id : NodeId) :
    (x.delete id).2.Lagging n ∧ (x.delete id).2.cell id = (x.cell id).delete ∧
      (∀ j, j ≠ id → (x.delete id).2.cell j = x.cell j) ∧
      ((x.delete id).1 = true ↔ x.graph.isDeleted id = false) ∧
      (x.graph.isDeleted id = true → Quiet x (x.delete id).2) := by
  obtain ⟨hg, hself, hother, hres⟩ := NswGraph.delete_spec h.graph id
  -- a delete adds no node
  have hnodes : ∀ j, (x.graph.delete id).2.flag j ≠ none → x.graph.flag j ≠ none := by
    intro j hj
    by_cases hji : j = id
    · subst hji
      rw [hself] at hj
      simpa using hj
    · rwa [hother j hji] at hj
  refine ⟨⟨h.pool, h.segSize, h.dim, h.holds, hg, fun j hj => h.nodes j (hnodes j hj),
    fun j l hj => h.cache j l (hnodes j hj)⟩, ?_, ?_, ?_, ?_⟩
  · -- only the graph's flag changes, the locator stays
    cases hl : x.env.volatile.locatorDb.lookup id with
    | none =>
      rw [cell_eq_absent.mpr hl]
      exact cell_eq_absent.mpr hl
    | some loc =>
      rw [cell_of_lookup hl]
      refine Eq.trans (cell_of_lookup (x := (x.delete id).2) hl) ?_
      show Cell.ofFlag ((x.graph.delete id).2.flag id) (decodeF32s (x.pool.writer.bytesAt loc)) = _
      rw [hself]
      cases x.graph.flag id with
      | none => rfl
      | some b => cases b <;> rfl
  · -- the other ids keep flag and locator
    exact fun j hj => cell_congr rfl (hother j hj) fun _ _ => rfl
  · rw [NswGraph.isDeleted_iff]
    exact hres
  · -- deleting what is deleted leaves every flag
    intro hdel
    refine ⟨rfl, rfl, fun j => ?_, rfl, .refl _⟩
    by_cases hji : j = id
    · subst hji
      refine hself.trans ?_
      cases hf : x.graph.flag j with
      | none => rfl
      | some b =>
        cases b with
        | true => rfl
        | false =>
          rw [NswGraph.isDeleted_iff.mpr hf] at hdel
          exact nomatch hdel
    · exact hother j hji

end VectorIndex

namespace CompactRace

variable {n : Nat} {x y : VectorIndex} {live : List (NodeId × List F32)} (A : F32Arith)

/-- Between the scan and the switch of the graph. -/
def holdsScan : CompactPhase → Bool
  | .scanned _ => true
  | .appended _ _ => true
  | .rebuilt _ _ _ => true
  | .swapped _ _ _ => true
  | _ => false

/-- Between the look at the deleted ids and the switch of the graph. -/
def holdsDeleted : CompactPhase → Bool
  | .collected _ => true
  | phase => holdsScan phase

/-- No insert goes through while `compact` holds its scan, and no delete removes a vector
    while it holds the deleted ids. -/
def QuietStep (σ : CompactRace) : RaceEvent → Prop
  | .insert id vector => holdsScan σ.phase = true → ¬σ.index.Accepts id vector
  | .delete id => holdsDeleted σ.phase = true → σ.index.graph.isDeleted id = true
  | .compact => True

instance (σ : CompactRace) (ev : RaceEvent) : Decidable (σ.QuietStep ev) := by
  cases ev with
  | insert id vector => exact inferInstanceAs (Decidable (_ → ¬σ.index.Accepts id vector))
  | delete id => exact inferInstanceAs (Decidable (_ → σ.index.graph.isDeleted id = true))
  | compact => exact .isTrue trivial

/-- The live ids are those of the acknowledged inserts without those of the acknowledged
    deletes, and each has the vector it was inserted with. -/
structure NoneLost (σ : CompactRace) : Prop where
  live : ∀ id, id ∈ σ.index.listVectorIds ↔ lastVector id σ.acked ≠ none
  vectors : ∀ id v, lastVector id σ.acked = some v → σ.index.getVector id = .ok (some v)

/-! ### What each section relies on -/

/-- The list of the scan has exactly the live vectors. -/
structure Scan (x : VectorIndex) (live : List (NodeId × List F32)) : Prop where
  nodup : (live.map Prod.fst).Nodup
  mem : ∀ id v, (id, v) ∈ live ↔ (x.cell id).visible = some v

/-- The new locators and the new graph have exactly the live vectors. -/
structure Prepared (x : VectorIndex) (locs : List (NodeId × ValueLocator)) (graph : NswGraph) :
    Prop where
  inv : graph.Inv
  nodup : (locs.map Prod.fst).Nodup
  kept : ∀ id v, (x.cell id).visible = some v → graph.flag id = some false ∧
    ∃ loc, (id, loc) ∈ locs ∧ x.pool.Copied loc v
  dropped : ∀ id, (x.cell id).visible = none → graph.flag id = none ∧ id ∉ locs.map Prod.fst

/-- What holds of the index when `compact` has left a section. -/
def Ready (x : VectorIndex) : CompactPhase → Prop
  | .idle => ∀ id v, x.cell id ≠ .hidden v
  | .checked => ∀ id v, x.cell id ≠ .hidden v
  | .collected deleted => (∀ id v, x.cell id ≠ .hidden v) ∧
    ∀ id, id ∈ deleted ↔ x.graph.flag id = some true
  | .scanned live => Scan x live
  | .appended live locs => Scan x live ∧ locs.map Prod.fst = live.map Prod.fst ∧
    ∀ e ∈ live, ∃ loc, (e.1, loc) ∈ locs ∧ x.pool.Copied loc e.2
  | .rebuilt _ locs graph => Prepared x locs graph
  | .swapped _ locs _ => ∀ id loc, (VectorIndex.newLocatorDb locs).lookup id = some loc →
    x.env.volatile.locatorDb.lookup id = some loc
  | .replaced _ locs => ∀ id loc, (VectorIndex.newLocatorDb locs).lookup id = some loc →
    x.env.volatile.locatorDb.lookup id = some loc
  | .cached _ => True
  | .returned _ => True

/-- What a section has read stays true through quiet changes. -/
theorem Ready.quiet {phase : CompactPhase} (h : Ready x phase) (hx : x.Lagging n)
    (hq : VectorIndex.Quiet x y) : Ready y phase := by
  have hcell := hq.cell hx
  -- what was copied stays where it is
  have hcopy : ∀ loc v, x.pool.Copied loc v → y.pool.Copied loc v :=
    fun loc v hc => hc.keeps hq.dim hq.keeps
  have hscan : ∀ live, Scan x live → Scan y live :=
    fun live hs => ⟨hs.nodup, fun id v => by rw [hcell]; exact hs.mem id v⟩
  -- one case for each phase: what has been collected so far is still true
  cases phase with
  | idle => exact fun id v hc => h id v (hcell id ▸ hc)
  | checked => exact fun id v hc => h id v (hcell id ▸ hc)
  | collected deleted =>
    exact ⟨fun id v hc => h.1 id v (hcell id ▸ hc), fun id => by rw [hq.flag]; exact h.2 id⟩
  | scanned live => exact hscan live h
  | appended live locs =>
    refine ⟨hscan live h.1, h.2.1, fun e he => ?_⟩
    obtain ⟨loc, hmem, hc⟩ := h.2.2 e he
    exact ⟨loc, hmem, hcopy loc e.2 hc⟩
  | rebuilt k locs graph =>
    refine ⟨h.inv, h.nodup, ?_, ?_⟩
    · intro id v hv
      rw [hcell] at hv
      obtain ⟨hf, loc, hmem, hc⟩ := h.kept id v hv
      exact ⟨hf, loc, hmem, hcopy loc v hc⟩
    · intro id hv
      rw [hcell] at hv
      exact h.dropped id hv
  | swapped k locs graph => exact fun id loc hl => by rw [hq.table]; exact h id loc hl
  | replaced k locs => exact fun id loc hl => by rw [hq.table]; exact h id loc hl
  | cached k => trivial
  | returned r => trivial

/-- The index as it will be when the graph is replaced. -/
def view (σ : CompactRace) : VectorIndex :=
  match σ.phase with
  | .swapped _ _ graph => { σ.index with graph }
  | _ => σ.index

/-- The view is sound and shows what was acknowledged. -/
structure Inv (n : Nat) (σ : CompactRace) : Prop where
  view : σ.view.Lagging n
  graph : σ.index.graph.Inv
  shown : ∀ id, (σ.view.cell id).visible = lastVector id σ.acked
  ready : Ready σ.index σ.phase

/-! ### Inserts and deletes -/

variable {σ : CompactRace}

/-- Outside the last section the view is the index. -/
theorem view_eq (h : ∀ k locs graph, σ.phase ≠ .swapped k locs graph) : σ.view = σ.index := by
  unfold view
  split
  · rename_i k locs graph hp
    exact absurd hp (h k locs graph)
  · rfl

/-- In it the graph that is about to be put in place counts. -/
theorem view_swapped {k : Nat} {locs : List (NodeId × ValueLocator)} {graph : NswGraph}
    (h : σ.phase = .swapped k locs graph) : σ.view = { σ.index with graph } := by
  unfold view
  rw [h]

/-- The invariant where the view is the index. -/
theorem Inv.of_index (hp : ∀ k locs graph, σ.phase ≠ .swapped k locs graph)
    (hl : σ.index.Lagging n) (hs : ∀ id, (σ.index.cell id).visible = lastVector id σ.acked)
    (hr : Ready σ.index σ.phase) : Inv n σ := by
  have hview := view_eq hp
  exact ⟨hview ▸ hl, hl.graph, hview ▸ hs, hr⟩

/-- A new id is in no list that `compact` holds before its scan or after its switch. -/
theorem Ready.insert {phase : CompactPhase} (h : Ready x phase) (hp : holdsScan phase = false)
    {id : NodeId} {v : List F32} (hx : x.Lagging n) (habs : x.cell id = .absent)
    (hself : y.cell id = .live v) (hother : ∀ j, j ≠ id → y.cell j = x.cell j)
    (hflag : ∀ j, j ≠ id → y.graph.flag j = x.graph.flag j)
    (htable : ∀ j, j ≠ id →
      y.env.volatile.locatorDb.lookup j = x.env.volatile.locatorDb.lookup j) : Ready y phase := by
  have hnone := VectorIndex.cell_eq_absent.mp habs
  have hhidden : (∀ j w, x.cell j ≠ .hidden w) → ∀ j w, y.cell j ≠ .hidden w := by
    intro hx j w hc
    by_cases hj : j = id
    · rw [hj, hself] at hc
      exact nomatch hc
    · exact hx j w (hother j hj ▸ hc)
  -- the new id has no entry in the replaced table, so the old ones stand
  have hkept : ∀ locs, (∀ j loc, (VectorIndex.newLocatorDb locs).lookup j = some loc →
      x.env.volatile.locatorDb.lookup j = some loc) → ∀ j loc,
      (VectorIndex.newLocatorDb locs).lookup j = some loc →
      y.env.volatile.locatorDb.lookup j = some loc := by
    intro locs hx j loc hl
    by_cases hj : j = id
    · have hsome := hx j loc hl
      rw [hj, hnone] at hsome
      exact nomatch hsome
    · rw [htable j hj]
      exact hx j loc hl
  cases phase with
  | idle => exact hhidden h
  | checked => exact hhidden h
  | collected deleted =>
    refine ⟨hhidden h.1, fun j => ?_⟩
    by_cases hj : j = id
    · -- the id was not in the graph, and now it is live
      have hold : x.graph.flag j ≠ some true := by
        rw [hj, hx.flag_none hnone]
        exact nofun
      have hnew : y.graph.flag j ≠ some true := by
        subst hj
        intro hf
        cases hl : y.env.volatile.locatorDb.lookup j with
        | none =>
          rw [VectorIndex.cell_eq_absent.mpr hl] at hself
          exact nomatch hself
        | some loc =>
          rw [VectorIndex.cell_of_lookup hl, hf] at hself
          exact nomatch hself
      exact iff_of_false (fun hmem => hold ((h.2 j).mp hmem)) hnew
    · rw [hflag j hj]
      exact h.2 j
  | replaced k locs => exact hkept locs h
  | cached k => trivial
  | returned r => trivial
  -- the phases from the scan to the swap are ruled out
  | _ => exact nomatch hp

/-- An acknowledged insert shows its vector. -/
theorem lastVector_insert (id j : NodeId) (v : List F32) (ops : List WalOp) :
    lastVector j (ops ++ [.insertVector id v]) = if id = j then some v else lastVector j ops := by
  rw [lastVector_concat]
  by_cases hj : id = j <;> simp [vecEffect, hj]

/-- An acknowledged delete shows nothing. -/
theorem lastVector_delete (id j : NodeId) (ops : List WalOp) :
    lastVector j (ops ++ [.deleteVector id]) = if id = j then none else lastVector j ops := by
  rw [lastVector_concat]
  by_cases hj : id = j <;> simp [vecEffect, hj]

variable {order : MapOrder} {avail : Option Nat}

/-- An insert while the index is all there is. -/
theorem Inv.insert (h : Inv n σ) (hp : ∀ k locs graph, σ.phase ≠ .swapped k locs graph)
    {id : NodeId} {v : List F32} (hq : σ.QuietStep (.insert id v)) :
    Inv n (σ.step A order avail (.insert id v)) := by
  have hx : σ.index.Lagging n := view_eq hp ▸ h.view
  have hshown : ∀ j, (σ.index.cell j).visible = lastVector j σ.acked := view_eq hp ▸ h.shown
  obtain ⟨-, err, y, he, hy, hquiet⟩ | ⟨hacc, y, he, hy, habs, hself, hother, hflag, htable⟩ :=
    hx.insert_cases A id v
  · -- the call failed and nothing is acknowledged
    have hst : σ.step A order avail (.insert id v) = { σ with index := y } := by
      simp only [step, he]
    rw [hst]
    refine .of_index hp hy (fun j => ?_) (h.ready.quiet hx hquiet)
    rw [← hshown j]
    exact congrArg _ (hquiet.cell hx j)
  · -- the insert went through, so the scan had not yet been taken
    have hst : σ.step A order avail (.insert id v) =
        ⟨y, σ.phase, σ.acked ++ [.insertVector id v]⟩ := by
      simp only [step, he]
    have hscan : holdsScan σ.phase = false := by
      by_contra hne
      exact hq (by simpa using hne) hacc
    rw [hst]
    refine .of_index hp hy (fun j => ?_) (h.ready.insert hscan hx habs hself hother hflag htable)
    -- the new id shows its vector, the others what they showed
    rw [lastVector_insert]
    by_cases hj : id = j
    · subst hj
      simp [hself, Cell.visible]
    · rw [if_neg hj, ← hshown j, ← hother j (Ne.symm hj)]

/-- An insert when the table is new and the graph is not: what the old graph refuses
    stays in the table without a node. -/
theorem Inv.insert_swapped (h : Inv n σ) {k : Nat} {locs : List (NodeId × ValueLocator)}
    {graph : NswGraph} (hp : σ.phase = .swapped k locs graph) {id : NodeId} {v : List F32}
    (hq : σ.QuietStep (.insert id v)) : Inv n (σ.step A order avail (.insert id v)) := by
  have hview := view_swapped hp
  have hl : ({ σ.index with graph } : VectorIndex).Lagging n := hview ▸ h.view
  have hready : ∀ j loc, (VectorIndex.newLocatorDb locs).lookup j = some loc →
      σ.index.env.volatile.locatorDb.lookup j = some loc := by
    have hr := h.ready
    rwa [hp] at hr
  -- it is enough to look at the index the insert leaves, beside the new graph
  have hdone : ∀ err y, σ.index.insert A id v = (.error err, y) → y.graph.Inv →
      ({ y with graph } : VectorIndex).Lagging n →
      (∀ j, (({ y with graph } : VectorIndex).cell j).visible =
        (({ σ.index with graph } : VectorIndex).cell j).visible) →
      (∀ j loc, σ.index.env.volatile.locatorDb.lookup j = some loc →
        y.env.volatile.locatorDb.lookup j = some loc) →
      Inv n (σ.step A order avail (.insert id v)) := by
    intro err y he hg hy hvis htable
    have hst : σ.step A order avail (.insert id v) = { σ with index := y } := by
      simp only [step, he]
    have hview' : CompactRace.view { σ with index := y } = { y with graph } := view_swapped hp
    rw [hst]
    refine ⟨hview' ▸ hy, hg, fun j => ?_, ?_⟩
    · rw [hview', hvis j, ← hview]
      exact h.shown j
    · show Ready y σ.phase
      rw [hp]
      exact fun j loc hlook => htable j loc (hready j loc hlook)
  obtain ⟨-, he⟩ | ⟨-, -, he⟩ | ⟨hdim, hnone, hfit, loc, pool, hpi, hpd, hk, hcopy, hc⟩ |
    ⟨-, -, -, msg, pool, he, hpi, hpd, hk⟩ :=
    VectorIndex.insert_inversion A (x := σ.index) hl.pool hl.dim h.graph id v
  · -- a wrong length
    exact hdone _ _ he h.graph hl (fun _ => rfl) fun _ _ hlook => hlook
  · -- a stored id
    exact hdone _ _ he h.graph hl (fun _ => rfl) fun _ _ hlook => hlook
  · obtain ⟨-, he⟩ | ⟨hflag, g, he, -⟩ := hc
    · -- the locator is written before the graph refuses the id
      obtain ⟨hput, hself, hother⟩ := (hl.withPool hpi hpd hk).putLocator hnone hcopy
      refine hdone _ _ he h.graph hput (fun j => ?_) fun j l hlook => ?_
      · by_cases hj : j = id
        · subst hj
          have hold : ({ σ.index with graph } : VectorIndex).cell j = .absent :=
            VectorIndex.cell_eq_absent.mpr hnone
          have hgf : graph.flag j = none := hl.flag_none hnone
          rw [hold]
          refine Eq.trans (congrArg _ hself) ?_
          show (Cell.ofFlag (graph.flag j) v).visible = _
          rw [hgf]
          rfl
        · exact congrArg _ ((hother j hj).trans (hl.cell_withPool hk j))
      · have hj : j ≠ id := by
          rintro rfl
          rw [hnone] at hlook
          exact nomatch hlook
        exact (AList.lookup_insert_ne hj).trans hlook
    · -- such an insert would go through
      have hnode : σ.index.graph.nodes.lookup id = none := by
        by_contra hne
        exact NswGraph.flag_ne_none.mpr (Option.isSome_iff_ne_none.mpr hne) hflag
      exact absurd ⟨hdim, hnone, hfit, hnode⟩ (hq (by rw [hp]; rfl))
  · -- an append that panics moves the pool only
    exact hdone _ _ he h.graph (hl.withPool hpi hpd hk)
      (fun j => congrArg _ (hl.cell_withPool hk j)) fun _ _ hlook => hlook

/-- A delete changes nothing that `compact` holds before it looks or after its switch. -/
theorem Ready.delete {phase : CompactPhase} (h : Ready x phase) (hp : holdsDeleted phase = false)
    {id : NodeId} (hx : x.Lagging n) : Ready (x.delete id).2 phase := by
  obtain ⟨-, hself, hother, -, -⟩ := hx.delete id
  have hhidden : (∀ j w, x.cell j ≠ .hidden w) → ∀ j w, (x.delete id).2.cell j ≠ .hidden w := by
    intro hno j w hc
    by_cases hj : j = id
    · rw [hj, hself] at hc
      cases hcell : x.cell id with
      | hidden u => exact hno id u hcell
      | _ => simp [hcell, Cell.delete] at hc
    · exact hno j w (hother j hj ▸ hc)
  cases phase with
  | idle => exact hhidden h
  | checked => exact hhidden h
  | replaced k locs => exact h
  | cached k => trivial
  | returned r => trivial
  | _ => cases hp

/-- A delete is acknowledged when it marks a live node of the graph in place. -/
private theorem step_delete (h : σ.index.graph.Inv) (id : NodeId) :
    σ.step A order avail (.delete id) = ⟨(σ.index.delete id).2, σ.phase,
      if σ.index.graph.isDeleted id then σ.acked else σ.acked ++ [.deleteVector id]⟩ := by
  have hres : (σ.index.delete id).1 = true ↔ σ.index.graph.isDeleted id = false :=
    (NswGraph.delete_spec h id).2.2.2.trans NswGraph.isDeleted_iff.symm
  simp only [step]
  split
  · rename_i he
    rw [he] at hres
    rw [hres.mp rfl, he]
    rfl
  · rename_i he
    rw [he, Bool.false_eq_true, false_iff, Bool.not_eq_false] at hres
    rw [hres, he]
    rfl

/-- A delete beside the compaction. -/
theorem Inv.delete (h : Inv n σ) {id : NodeId} (hq : σ.QuietStep (.delete id)) :
    Inv n (σ.step A order avail (.delete id)) := by
  by_cases hswap : ∃ k locs graph, σ.phase = .swapped k locs graph
  · -- only the old graph is touched, and it keeps its flags
    obtain ⟨k, locs, graph, hp⟩ := hswap
    have hdel : σ.index.graph.isDeleted id = true := hq (by rw [hp]; rfl)
    have hsame : CompactRace.view { σ with index := (σ.index.delete id).2 } = σ.view := by
      rw [view_swapped hp, view_swapped (σ := { σ with index := (σ.index.delete id).2 }) hp]
      rfl
    rw [step_delete A h.graph, if_pos hdel]
    refine ⟨hsame ▸ h.view, (NswGraph.delete_spec h.graph id).1, hsame ▸ h.shown, ?_⟩
    have hr := h.ready
    show Ready _ σ.phase
    rw [hp] at hr ⊢
    exact hr
  · -- outside the swap the index is what readers see
    have hp : ∀ k locs graph, σ.phase ≠ .swapped k locs graph :=
      fun k locs graph hp => hswap ⟨k, locs, graph, hp⟩
    have hx : σ.index.Lagging n := view_eq hp ▸ h.view
    have hshown : ∀ j, (σ.index.cell j).visible = lastVector j σ.acked := view_eq hp ▸ h.shown
    obtain ⟨hy, hself, hother, -, hquiet⟩ := hx.delete id
    rw [step_delete A h.graph]
    cases hdel : σ.index.graph.isDeleted id with
    -- nothing to delete: the call is not acknowledged and nothing moves
    | true =>
      refine .of_index hp hy (fun j => ?_) (h.ready.quiet hx (hquiet hdel))
      rw [if_pos rfl, ← hshown j]
      exact congrArg _ ((hquiet hdel).cell hx j)
    -- the id goes, which no phase holding a collected set may see
    | false =>
      have hheld : holdsDeleted σ.phase = false := by
        by_contra hne
        have htrue := hq (by simpa using hne)
        rw [hdel] at htrue
        cases htrue
      refine .of_index hp hy (fun j => ?_) (h.ready.delete hheld hx)
      rw [if_neg Bool.false_ne_true, lastVector_delete]
      by_cases hj : id = j
      · subst hj
        simp only [hself, if_true]
        cases σ.index.cell id <;> rfl
      · rw [if_neg hj, ← hshown j]
        exact congrArg _ (hother j (Ne.symm hj))

/-! ### The sections -/

/-- The scan reads the live vectors, as no id was deleted since the look at them. -/
theorem scan_ok (hx : x.Lagging n) {deleted : List NodeId} (h : Ready x (.collected deleted)) :
    ∃ live, x.readLive deleted = .ok live ∧ Scan x live := by
  obtain ⟨hhidden, hdel⟩ := h
  have hlive : x.readLive deleted = .ok x.liveVectors := by
    rw [VectorIndex.readLive_of_holds hx.holds]
    congr 2
    apply List.filter_congr
    intro e _
    simp only [hdel, NswGraph.mem_allDeletedIds]
  refine ⟨_, hlive, x.nodup_liveVectors, fun id v => ?_⟩
  rw [VectorIndex.mem_liveVectors]
  cases hc : x.cell id with
  | hidden w => exact absurd hc (hhidden id w)
  | _ => simp [Cell.compacted, Cell.visible]

/-- The vectors that were read have the dimension and fit a segment. -/
theorem Scan.fits (h : Scan x live) (hx : x.Lagging n) {e : NodeId × List F32} (he : e ∈ live) :
    e.2.length = x.pool.dim ∧ x.pool.byteLen ≤ x.pool.segSize := by
  have hv := (h.mem e.1 e.2).mp he
  cases hl : x.env.volatile.locatorDb.lookup e.1 with
  | none =>
    rw [VectorIndex.cell_eq_absent.mpr hl] at hv
    exact nomatch hv
  | some loc =>
    obtain ⟨hh, hlen, -⟩ := hx.holds e.1 loc hl
    have hdec : e.2 = decodeF32s (x.pool.writer.bytesAt loc) := by
      rw [VectorIndex.cell_of_lookup hl] at hv
      cases hf : x.graph.flag e.1 with
      | none => simp [hf, Cell.ofFlag, Cell.visible] at hv
      | some b => cases b <;> simp [hf, Cell.ofFlag, Cell.visible] at hv ⊢; exact hv.symm
    have hle : loc.offset + loc.len ≤ x.pool.segSize := hh.2.1
    constructor
    · rw [hdec, length_decodeF32s, Writer.bytesAt, SegMem.length_read, hlen,
        VecSegmentPool.byteLen]
      omega
    · omega

/-- The graph over the scan and the copies in the pool hold the live vectors. -/
theorem prepared_ok {locs : List (NodeId × ValueLocator)} (h : Ready x (.appended live locs))
    (order : MapOrder) :
    ∃ graph, VectorIndex.buildGraph A x.schema.metric order live = .ok graph ∧
      Prepared x locs graph := by
  obtain ⟨hscan, hkeys, hcopied⟩ := h
  obtain ⟨graph, hbuild, hg, hin, hout⟩ :=
    VectorIndex.buildGraph_ok A x.schema.metric order hscan.nodup
  refine ⟨graph, hbuild, hg, hkeys ▸ hscan.nodup, ?_, ?_⟩
  · intro id v hv
    have hmem := (hscan.mem id v).mpr hv
    exact ⟨hin id (List.mem_map_of_mem hmem), hcopied (id, v) hmem⟩
  · intro id hv
    have hno : id ∉ live.map Prod.fst := by
      intro hmem
      obtain ⟨e, he, rfl⟩ := List.mem_map.mp hmem
      rw [(hscan.mem e.1 e.2).mp he] at hv
      exact nomatch hv
    exact ⟨hout id hno, hkeys ▸ hno⟩

/-- Behind the switch of the table the new graph shows what the old one did. -/
theorem lagging_swapped {locs : List (NodeId × ValueLocator)} {graph : NswGraph}
    (hx : x.Lagging n) (h : Prepared x locs graph) :
    let y : VectorIndex := { x with
      env := x.env.write { x.env.volatile with locatorDb := VectorIndex.newLocatorDb locs }
      locators := locs.foldl (fun db e => db.insert e.1 e.2) x.locators
      graph := graph }
    y.Lagging n ∧ ∀ id, (y.cell id).visible = (x.cell id).visible := by
  intro y
  -- an id that is shown was copied, and both tables name the copy
  have hlookup : ∀ id v, (x.cell id).visible = some v → graph.flag id = some false ∧
      ∃ loc, y.env.volatile.locatorDb.lookup id = some loc ∧ y.locators.lookup id = some loc ∧
        x.pool.Copied loc v := by
    intro id v hv
    obtain ⟨hf, loc, hmem, hcopy⟩ := h.kept id v hv
    refine ⟨hf, loc, VectorIndex.lookup_newLocatorDb h.nodup hmem, ?_, hcopy⟩
    show (AList.insertAll Prod.fst Prod.snd x.locators locs).lookup id = some loc
    exact AList.lookup_insertAll_of_mem h.nodup hmem
  -- any other id is gone from the graph and the table
  have hnone : ∀ id, (x.cell id).visible = none → graph.flag id = none ∧
      y.env.volatile.locatorDb.lookup id = none := by
    intro id hv
    obtain ⟨hf, hno⟩ := h.dropped id hv
    exact ⟨hf, VectorIndex.lookup_newLocatorDb_none hno⟩
  refine ⟨⟨hx.pool, hx.segSize, hx.dim, ?_, h.inv, ?_, ?_⟩, ?_⟩
  · -- both halves of the swap are over the live ids of the scan
    intro id loc hl
    cases hv : (x.cell id).visible with
    | none =>
      rw [(hnone id hv).2] at hl
      exact nomatch hl
    | some v =>
      obtain ⟨-, loc', hl', -, hh, hlen, -⟩ := hlookup id v hv
      obtain rfl : loc' = loc := Option.some.inj (hl'.symm.trans hl)
      exact ⟨hh, hlen⟩
  · intro id hf
    cases hv : (x.cell id).visible with
    | none => exact absurd (hnone id hv).1 hf
    | some v =>
      obtain ⟨-, loc, hl, -⟩ := hlookup id v hv
      rw [hl]
      rfl
  · -- the cache keeps old locators, but of no id that has a node
    intro id loc hf hl
    cases hv : (x.cell id).visible with
    | none => exact absurd (hnone id hv).1 hf
    | some v =>
      obtain ⟨-, loc', hl', hc', -⟩ := hlookup id v hv
      obtain rfl : loc' = loc := Option.some.inj (hc'.symm.trans hl)
      exact hl'
  · -- what is shown is what was copied
    intro id
    cases hv : (x.cell id).visible with
    | none =>
      rw [VectorIndex.cell_eq_absent.mpr (hnone id hv).2]
      rfl
    | some v =>
      obtain ⟨hf, loc, hl, -, -, -, hb⟩ := hlookup id v hv
      rw [VectorIndex.cell_of_lookup hl]
      show (Cell.ofFlag (graph.flag id) (decodeF32s (x.pool.writer.bytesAt loc))).visible = _
      rw [hf, hb, decodeF32s_encodeF32s]
      rfl

/-- The next section of the compaction. -/
theorem Inv.compact (h : Inv n σ) : Inv n (σ.step A order avail .compact) := by
  obtain ⟨x, phase, acked⟩ := σ
  -- compact acknowledges nothing
  have hst : ∀ y next, x.compactSection A order avail phase = (y, next) →
      CompactRace.step A order avail ⟨x, phase, acked⟩ .compact = ⟨y, next, acked⟩ := by
    intro y next he
    simp only [step, he]
  -- outside `swapped` the view is the index
  have hof : ∀ y next, x.compactSection A order avail phase = (y, next) →
      (∀ k locs graph, next ≠ .swapped k locs graph) → y.Lagging n →
      (∀ id, (y.cell id).visible = lastVector id acked) → Ready y next →
      Inv n (CompactRace.step A order avail ⟨x, phase, acked⟩ .compact) := by
    intro y next he hp hy hs hr
    rw [hst y next he]
    exact .of_index hp hy hs hr
  have hready := h.ready
  -- one case for each section of the call
  cases phase with
  | swapped k locs graph =>
    exact hof { x with graph } (.replaced k locs) rfl nofun h.view h.shown hready
  | idle =>
    have hx : x.Lagging n := h.view
    cases hdisk : VectorIndex.ensureDiskAvailable avail x.diskBytes with
    | error e =>
      exact hof x (.returned (.error e)) (by simp only [VectorIndex.compactSection, hdisk]) nofun
        hx h.shown trivial
    | ok _ =>
      exact hof x .checked (by simp only [VectorIndex.compactSection, hdisk]) nofun hx h.shown
        hready
  | checked =>
    exact hof x (.collected x.graph.allDeletedIds) rfl nofun h.view h.shown
      ⟨hready, fun id => NswGraph.mem_allDeletedIds⟩
  -- the scan finds every vector that is visible
  | collected deleted =>
    have hx : x.Lagging n := h.view
    obtain ⟨live, hread, hscan⟩ := scan_ok hx hready
    exact hof x (.scanned live) (by simp only [VectorIndex.compactSection, hread]) nofun hx
      h.shown hscan
  -- each live vector is copied behind the old ones
  | scanned live =>
    have hx : x.Lagging n := h.view
    obtain ⟨locs, pool, happ, hp, hpd, hk, hkeys, hall⟩ :=
      VectorIndex.appendAll_ok hx.pool fun e (he : e ∈ live) => Scan.fits hready hx he
    have hk' := hk.trans (VecSegmentPool.keeps_flush pool)
    have hcell := hx.cell_withPool hk'
    refine hof { x with pool := pool.flush } (.appended live locs)
      (by simp only [VectorIndex.compactSection, happ]) nofun
      (hx.withPool (VecSegmentPool.inv_flush hp) hpd hk') (fun id => ?_) ⟨⟨?_, ?_⟩, hkeys, ?_⟩
    · rw [hcell]
      exact h.shown id
    · exact Scan.nodup hready
    · intro id v
      rw [hcell]
      exact Scan.mem hready id v
    · intro e he
      obtain ⟨loc, hmem, hcopy⟩ := hall e he
      exact ⟨loc, hmem, hcopy.keeps rfl (VecSegmentPool.keeps_flush pool)⟩
  | appended live locs =>
    obtain ⟨graph, hbuild, hprep⟩ := prepared_ok A hready order
    exact hof x (.rebuilt live.length locs graph)
      (by simp only [VectorIndex.compactSection, hbuild]) nofun h.view h.shown hprep
  -- the switch: the view changes from the old graph to the new one, and shows the same
  | rebuilt k locs graph =>
    have hx : x.Lagging n := h.view
    obtain ⟨hy, hvis⟩ := lagging_swapped hx hready
    rw [hst _ _ rfl]
    refine ⟨hy, hx.graph, fun id => ?_, fun id loc hl => hl⟩
    rw [← h.shown id]
    exact hvis id
  -- the cache follows the table
  | replaced k locs =>
    have hx : x.Lagging n := h.view
    exact hof { x with locators := VectorIndex.newLocatorDb locs } (.cached k) rfl nofun
      ⟨hx.pool, hx.segSize, hx.dim, hx.holds, hx.graph, hx.nodes,
        fun id loc _ hl => hready id loc hl⟩ h.shown trivial
  | cached k =>
    have hx : x.Lagging n := h.view
    exact hof { x with snapshot := some (Snapshot.serialize x.graph) } (.returned (.ok k)) rfl
      nofun ⟨hx.pool, hx.segSize, hx.dim, hx.holds, hx.graph, hx.nodes, hx.cache⟩ h.shown trivial
  | returned r => exact hof x (.returned r) rfl nofun h.view h.shown trivial

/-- The sections in a row are the call. -/
theorem exec_compact (x : VectorIndex) (order : MapOrder) (avail : Option Nat)
    (acked : List WalOp) :
    Run.exec (step A order avail) ⟨x, .idle, acked⟩ (List.replicate 9 .compact) =
      ⟨(x.compact A order avail).2, .returned (x.compact A order avail).1, acked⟩ := by
  simp only [List.replicate, Run.exec_cons, Run.exec_nil, step]
  unfold VectorIndex.compact
  cases hdisk : VectorIndex.ensureDiskAvailable avail x.diskBytes with
  | error e => simp only [VectorIndex.compactSection, hdisk]
  | ok _ =>
    cases hread : x.readLive x.graph.allDeletedIds with
    | error e => simp only [VectorIndex.compactSection, hdisk, hread]
    | ok live =>
      cases happ : VectorIndex.appendAll x.pool live with
      | mk r pool =>
        cases r with
        | error e => simp only [VectorIndex.compactSection, hdisk, hread, happ]
        | ok locs =>
          cases hbuild : VectorIndex.buildGraph A x.schema.metric order live with
          | error e => simp only [VectorIndex.compactSection, hdisk, hread, happ, hbuild]
          | ok graph => simp only [VectorIndex.compactSection, hdisk, hread, happ, hbuild]

/-! ### Every interleaving -/

/-- The step lemma. -/
theorem Inv.step (h : Inv n σ) {ev : RaceEvent} (hq : σ.QuietStep ev) :
    Inv n (σ.step A order avail ev) := by
  cases ev with
  | insert id v =>
    by_cases hswap : ∃ k locs graph, σ.phase = .swapped k locs graph
    · obtain ⟨k, locs, graph, hp⟩ := hswap
      exact h.insert_swapped A hp hq
    · exact h.insert A (fun k locs graph hp => hswap ⟨k, locs, graph, hp⟩) hq
  | delete id => exact h.delete A hq
  | compact => exact h.compact A

/-- In every interleaving of a compaction with inserts and deletes in which no insert goes
    through between its scan and its switch of the graph, and no delete removes a vector
    between its look at the deleted ids and that switch, nothing is lost. -/
theorem noneLost_of_guarded (schema : VectorSchema) (segSize : Nat)
    (hsize : VecSegmentPool.sizeOf segSize ≤ u32Max) {x : VectorIndex}
    (hopen : (VectorIndex.open .empty schema segSize).1 = .ok x) (order : MapOrder)
    (avail : Option Nat) (evs : List RaceEvent)
    (hrun : Run.Guarded (step A order avail) QuietStep ⟨x, .idle, []⟩ evs) {live : Nat}
    (hdone : (Run.exec (step A order avail) ⟨x, .idle, []⟩ evs).phase = .returned (.ok live)) :
    (Run.exec (step A order avail) ⟨x, .idle, []⟩ evs).NoneLost := by
  obtain ⟨hinv, -, hcell⟩ := VectorIndex.open_empty (VecSegmentPool.addressable_of_le hsize _) hopen
  have hstart : Inv (VecSegmentPool.sizeOf segSize) ⟨x, .idle, []⟩ := by
    refine .of_index nofun hinv.lagging (fun id => ?_) fun id v hc => ?_
    · rw [hcell id]
      rfl
    · rw [hcell id] at hc
      exact nomatch hc
  have h := hrun.invariant (Inv (VecSegmentPool.sizeOf segSize))
    (fun σ ev hσ hev => hσ.step A hev) hstart
  generalize Run.exec (step A order avail) ⟨x, .idle, []⟩ evs = σ at h hdone ⊢
  have hview : σ.view = σ.index := view_eq fun k locs graph hp => by
    rw [hdone] at hp
    exact nomatch hp
  have hl : σ.index.Lagging _ := hview ▸ h.view
  have hshown : ∀ id, (σ.index.cell id).visible = lastVector id σ.acked := hview ▸ h.shown
  refine ⟨fun id => ?_, fun id v hv => ?_⟩
  · rw [hl.mem_listVectorIds, hshown]
  · rw [hl.getVector_eq, hshown, hv]

/-- An insert before the scan, a refused one behind it, an insert and a delete behind the
    switch of the graph. -/
theorem noneLost_of_early_and_late_calls : ∃ x,
    (VectorIndex.open .empty flatSchema 0).1 = .ok x ∧
    (Run.exec (step zeroArith .id none) ⟨x, .idle, []⟩
      [.insert 1 [0], .insert 2 [0], .delete 1, .compact, .compact, .insert 3 [0], .compact,
        .insert 2 [0], .compact, .compact, .compact, .compact, .insert 4 [0], .delete 2,
        .compact, .compact]).NoneLost :=
  ⟨_, rfl, noneLost_of_guarded zeroArith flatSchema 0 (by decide) rfl .id none _
    (by decide +kernel) rfl⟩

/-- The scan did not see the vector `2`, so the switch drops it. -/
theorem insert_lost_beside_compact : ∃ x,
    (VectorIndex.open .empty flatSchema 0).1 = .ok x ∧
    let σ := Run.exec (step zeroArith .id none) ⟨x, .idle, []⟩
      [.insert 1 [0], .compact, .compact, .compact, .insert 2 [0], .compact, .compact, .compact,
        .compact, .compact, .compact]
    σ.phase = .returned (.ok 1) ∧
      σ.acked = [.insertVector 1 [0], .insertVector 2 [0]] ∧ σ.index.listVectorIds = [1] ∧
      ¬σ.NoneLost := by
  refine ⟨_, rfl, ?_⟩
  intro σ
  have hacked : σ.acked = [.insertVector 1 [0], .insertVector 2 [0]] := by decide +kernel
  have hlist : σ.index.listVectorIds = [1] := by decide +kernel
  refine ⟨rfl, hacked, hlist, fun h => ?_⟩
  have hlive := (h.live 2).mpr (by rw [hacked]; decide)
  rw [hlist] at hlive
  exact absurd hlive (by decide)

end CompactRace

end FusionStore
