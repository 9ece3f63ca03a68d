import FusionStore.Spec.IndexRefines
import FusionStore.Spec.SearchCorrect

/-!
# What a search shows of an index

`search_knn` over a whole session of an index, with or without a deadline.  The graph names
ids and the distance closure reads the segments; put together, a hit is an id whose vector the
caller can get, at the distance of that vector from the query.  A search that stops at its
deadline returns fewer of them, never wrong ones.

## Key results

- `NswGraph.searchKnn_sound`: the results of a search of the graph, whenever it stops
- `IndexSession.search_shows_stored`: the answer of an index after any calls
-/

namespace FusionStore

namespace NswGraph

variable {g : NswGraph} {queryDist : NodeId → F32} {ef : Nat} {entry : NodeId}

/-- The loop holds live nodes with their distances wherever it stops, at a deadline too. -/
theorem searchLoop_holding (expired : Nat → Bool) (fuel k : Nat) {s : Search}
    (he : g.Exploring entry s) (h : g.Keeping queryDist ef entry [] s) :
    let s' := g.searchLoop queryDist ef expired fuel k s
    g.Holding queryDist ef entry s'.visited s'.results.data := by
  induction fuel generalizing k s with
  | zero => exact h.holding
  | succ fuel ih =>
    unfold NswGraph.searchLoop
    split
    · exact h.holding
    · rename_i cd cid rest hp
      obtain ⟨hpop, hnbs⟩ := he.pop hp
      dsimp only
      split
      · -- the deadline has passed
        exact h.holding
      split
      · exact h.holding
      split
      · rename_i hl
        refine ih _ hpop (h.pop hp ?_)
        rintro b ⟨n, hn, -⟩
        rw [hl] at hn
        cases hn
      · rename_i node hl
        have htodo : ∀ b, g.Edge cid b → b ∈ node.neighbors := by
          rintro b ⟨n, hn, hb⟩
          rw [hl] at hn
          exact Option.some.inj hn ▸ hb
        exact ih _ (hpop.foldl_visitNeighbor (hnbs node hl))
          ((h.pop hp htodo).foldl_visitNeighbor hpop (hnbs node hl))

/-- Every result is a live node with its distance, no node comes twice, and they are in
    order, at most `top_k`. -/
theorem searchKnn_sound (g : NswGraph) (queryDist : NodeId → F32) (topK efSearch : Nat)
    (expired : Nat → Bool) :
    let out := g.searchKnn queryDist topK efSearch expired
    out.length ≤ topK ∧ (out.map Prod.fst).Nodup ∧
      out.Pairwise (fun a b => F32.totalLe a.2 b.2 = true) ∧
      ∀ r ∈ out, g.isDeleted r.1 = false ∧ r.2 = queryDist r.1 := by
  unfold NswGraph.searchKnn
  cases g.entryPoint with
  | none => simp
  | some entry =>
    have hh := searchLoop_holding expired g.searchFuel 0
      (exploring_start g entry _) (keeping_start g queryDist (max efSearch topK) entry)
    have hnd := (map_fst_searchLayer g queryDist (max efSearch topK) entry expired).nodup_iff.mpr
      hh.nodup
    refine ⟨List.length_take_le _ _, ?_, (pairwise_sorted _).take, ?_⟩
    · rw [List.map_take]
      exact hnd.sublist (List.take_sublist _ _)
    · intro r hr
      have hr := mem_searchLayer_iff.mp (List.mem_of_mem_take hr)
      exact ⟨hh.live _ hr, hh.own _ hr⟩

end NswGraph

namespace VectorIndex

variable (A : F32Arith) {x : VectorIndex} {n : Nat}

/-- Every node has its vector, so no read of a search fails. -/
theorem searchKnn_ok (h : x.InvAt n) {query : List F32} (hdim : query.length = x.schema.dim)
    (topK : Nat) (expired : Nat → Bool) :
    x.searchKnn A query topK expired =
      .ok (x.graph.searchKnn (x.distTo A query) topK x.schema.efSearch expired) := by
  have hread : ∀ id, (x.graph.nodes.lookup id).isSome →
      (x.vecSlice id).toOption.isNone = false := by
    intro id hid
    obtain ⟨loc, hl⟩ := Option.isSome_iff_exists.mp
      (h.nodes id (NswGraph.flag_ne_none.mpr hid))
    rw [vecSlice_eq h hl]
    rfl
  have hvisited : ∀ entry, x.graph.entryPoint = some entry →
      ((x.graph.searchState (x.distTo A query) (max x.schema.efSearch topK) entry
        expired).visited.any fun id => (x.vecSlice id).toOption.isNone) = false := by
    intro entry hentry
    rw [List.any_eq_false]
    intro id hid
    rw [hread id ?_]
    · exact Bool.false_ne_true
    · exact h.graph.isSome_of_reaches (h.graph.entry entry hentry) (NswGraph.reaches_of_visited hid)
  unfold searchKnn
  rw [VectorSchema.validateDim, if_pos hdim]
  show (if _ then _ else _) = _
  cases hentry : x.graph.entryPoint with
  | none => rfl
  | some entry =>
    simp only [hvisited entry hentry]
    rfl

/-- The distance of a live id is that of its vector. -/
theorem distTo_live (h : x.InvAt n) {id : NodeId} (hlive : x.graph.isDeleted id = false)
    (query : List F32) : ∃ v, (x.cell id).visible = some v ∧
      x.distTo A query id = Simd.distance A x.schema.metric query v := by
  have hget := getVector_eq h id
  rw [getVector, hlive, if_neg Bool.false_ne_true] at hget
  unfold distTo
  cases hv : x.vecSlice id with
  | error e =>
    rw [hv] at hget
    cases hget
  | ok v =>
    rw [hv] at hget
    exact ⟨v, (Except.ok.inj hget).symm, rfl⟩

end VectorIndex

namespace IndexSession

variable (A : F32Arith) {n dim : Nat} {s : IndexSession}

/-- Hits that show stored vectors, each once, in order, at their distances from the query. -/
structure Shows (metric : MetricKind) (query : List F32) (topK : Nat)
    (visible : NodeId → Option (List F32)) (hits : List (NodeId × F32)) : Prop where
  length_le : hits.length ≤ topK
  nodup : (hits.map Prod.fst).Nodup
  sorted : hits.Pairwise fun a b => F32.totalLe a.2 b.2 = true
  stored : ∀ r ∈ hits, ∃ v, visible r.1 = some v ∧ r.2 = Simd.distance A metric query v

theorem Inv.shows (h : s.Inv n dim) {query : List F32} (hdim : query.length = dim) (topK : Nat)
    (expired : Nat → Bool) :
    ∃ hits, s.index.searchKnn A query topK expired = .ok hits ∧
      Shows A s.index.schema.metric query topK s.stored.visible hits := by
  obtain ⟨hlen, hnd, hsorted, hlive⟩ := s.index.graph.searchKnn_sound
    (s.index.distTo A query) topK s.index.schema.efSearch expired
  refine ⟨_, VectorIndex.searchKnn_ok A h.index (hdim.trans h.schema.symm) topK expired, hlen, hnd,
    hsorted, fun r hr => ?_⟩
  obtain ⟨hl, hr⟩ := hlive r hr
  obtain ⟨v, hv, hdist⟩ := VectorIndex.distTo_live A h.index hl query
  refine ⟨v, ?_, hr.trans hdist⟩
  rw [← hv, h.cells, VecMap.visible_cell]

/-- With room for all live vectors, what a search leaves out and can reach is no nearer than
    any of its `top_k` hits. -/
theorem Inv.nearest (h : s.Inv n dim) {query : List F32} (hdim : query.length = dim) (topK : Nat)
    (hroom : s.index.len ≤ max s.index.schema.efSearch topK) {hits : List (NodeId × F32)}
    (hhits : s.index.searchKnn A query topK (fun _ => false) = .ok hits) {id : NodeId}
    {v : List F32} (hv : s.stored.visible id = some v) {entry : NodeId}
    (hentry : s.index.graph.entryPoint = some entry) (hreach : s.index.graph.Reaches entry id) :
    id ∈ hits.map Prod.fst ∨ hits.length = topK ∧ ∀ r ∈ hits,
      F32.totalLe r.2 (Simd.distance A s.index.schema.metric query v) = true := by
  rw [VectorIndex.searchKnn_ok A h.index (hdim.trans h.schema.symm)] at hhits
  obtain rfl := Except.ok.inj hhits
  have hlive : s.index.graph.isDeleted id = false := by
    have hmem := (h.mem_list id).mpr (by rw [hv]; rfl)
    exact NswGraph.isDeleted_iff.mpr (NswGraph.mem_allIds.mp hmem)
  -- the search measures the vector that is stored
  have hdist : s.index.distTo A query id = Simd.distance A s.index.schema.metric query v := by
    obtain ⟨w, hw, hdist⟩ := VectorIndex.distTo_live A h.index hlive query
    rw [h.cells, VecMap.visible_cell, hv] at hw
    rw [hdist, Option.some.inj hw]
  -- enough room makes the search exhaustive
  obtain ⟨-, all, hnd, hall, hlen, hown, hsorted, heq⟩ := NswGraph.searchKnn_exact s.index.graph
    (s.index.distTo A query) topK s.index.schema.efSearch
    ((NswGraph.ncard_liveFromEntry_le _).trans hroom)
  rw [heq]
  obtain ⟨r, hr, rfl⟩ := List.mem_map.mp ((hall id).mpr ⟨hlive, entry, hentry, hreach⟩)
  rw [← hlen, ← List.take_eq_take_min]
  have hsplit := List.take_append_drop topK all
  obtain hin | hout := List.mem_append.mp (hsplit ▸ hr)
  · exact Or.inl (List.mem_map_of_mem hin)
  · -- what was cut off comes behind the hits
    have hlong : topK < all.length := by
      have hpos := List.length_pos_of_mem hout
      rw [List.length_drop] at hpos
      omega
    refine Or.inr ⟨List.length_take_of_le (Nat.le_of_lt hlong), fun q hq => ?_⟩
    rw [← hsplit] at hsorted
    have hle := (List.pairwise_append.mp hsorted).2.2 q hq r hout
    rwa [hown r hr, hdist] at hle

theorem Inv.schema_step (h : s.Inv n dim) (c : VectorCall) :
    (s.step A c).index.schema = s.index.schema := by
  cases c with
  | insert id vector =>
    obtain ⟨-, he⟩ | ⟨-, -, he⟩ | ⟨-, -, -, y, he, -, hys, -⟩ | ⟨-, -, -, msg, y, he, -, hys, -⟩ :=
      VectorIndex.insert_cases A h.index id vector
    · simp only [IndexSession.step, he]
    · simp only [IndexSession.step, he]
    · simp only [IndexSession.step, he]
      exact hys
    · simp only [IndexSession.step, he]
      exact hys
  | insertBatch items => exact (VectorIndex.insertBatch_spec A h.index items).2.1
  | delete id => exact (VectorIndex.delete_spec h.index id).2.1
  | compact order avail =>
    have hs := (VectorIndex.compact_spec A h.index order avail).2
    simp only [IndexSession.step]
    split
    · rename_i he
      rwa [he] at hs
    · rename_i he
      rwa [he] at hs

/-- Whatever was inserted, deleted and compacted before: a search of the right dimension
    answers with vectors that are stored, each once, at their distances and in order, also
    when its deadline cuts it short. -/
theorem search_shows_stored (schema : VectorSchema) (segSize : Nat)
    (hfits : schema.dim * 4 ≤ VecSegmentPool.sizeOf segSize)
    (hslots : VecSegmentPool.Addressable (VecSegmentPool.sizeOf segSize) (schema.dim * 4))
    {x : VectorIndex} (hopen : (VectorIndex.open .empty schema segSize).1 = .ok x)
    (calls : List VectorCall) (hfine : ∀ c ∈ calls, c.Fine schema.dim) (query : List F32)
    (topK : Nat) (expired : Nat → Bool) :
    let s := Run.exec (step A) (start x) calls
    (query.length ≠ schema.dim → s.index.searchKnn A query topK expired =
      .error (.dimensionMismatch schema.dim query.length)) ∧
    (query.length = schema.dim → ∃ hits,
      s.index.searchKnn A query topK expired = .ok hits ∧
      Shows A schema.metric query topK s.stored.visible hits ∧
      ((∀ k, expired k = false) → s.index.len ≤ max schema.efSearch topK →
        ∀ id v entry, s.stored.visible id = some v → s.index.graph.entryPoint = some entry →
          s.index.graph.Reaches entry id →
          id ∈ hits.map Prod.fst ∨ hits.length = topK ∧ ∀ r ∈ hits,
            F32.totalLe r.2 (Simd.distance A schema.metric query v) = true)) := by
  intro s
  obtain ⟨hinv, hschema, hcell⟩ := VectorIndex.open_empty hslots hopen
  have hstart : (start x).Inv (VecSegmentPool.sizeOf segSize) schema.dim ∧
      (start x).index.schema = schema :=
    ⟨⟨hinv, congrArg VectorSchema.dim hschema, hfits, hcell⟩, hschema⟩
  -- the invariant of the run carries the stored map and the schema
  obtain ⟨h, hs⟩ : s.Inv (VecSegmentPool.sizeOf segSize) schema.dim ∧ s.index.schema = schema :=
    Run.exec_invariant_of_forall (fun s : IndexSession => s.Inv _ _ ∧ s.index.schema = schema)
      (fun s c hs hc => ⟨hs.1.step A hc, (hs.1.schema_step A c).trans hs.2⟩) hfine hstart
  constructor
  · -- the dimension is checked first
    intro hne
    have hno : query.length ≠ s.index.schema.dim := by rwa [hs]
    unfold VectorIndex.searchKnn
    rw [VectorSchema.validateDim, if_neg hno, hs]
    rfl
  · intro hdim
    obtain ⟨hits, hhits, hshows⟩ := h.shows A hdim topK expired
    rw [hs] at hshows
    refine ⟨hits, hhits, hshows, fun hnever hroom id v entry hv hentry hreach => ?_⟩
    -- without a deadline the search ends by itself
    obtain rfl : expired = fun _ => false := funext hnever
    have hnear := h.nearest A hdim topK (by rwa [hs]) hhits hv hentry hreach
    rwa [hs] at hnear

/-- After a rotation, a delete and a compaction, under a deadline that has passed. -/
theorem search_shows_stored_compacted : ∃ x,
    (VectorIndex.open .empty flatSchema 8).1 = .ok x ∧
    ∃ hits, (Run.exec (step zeroArith) (start x) [.insert 1 [0], .insertBatch [(2, [0]), (3, [0])],
        .delete 2, .compact .id none]).index.searchKnn zeroArith [0] 2 (fun _ => true) =
          .ok hits ∧
      Shows zeroArith .l2 [0] 2 (Run.exec (step zeroArith) (start x) [.insert 1 [0],
        .insertBatch [(2, [0]), (3, [0])], .delete 2, .compact .id none]).stored.visible
          hits := by
  refine ⟨_, rfl, ?_⟩
  obtain ⟨hits, hhits, hshows, -⟩ := (search_shows_stored zeroArith flatSchema 8 (by decide)
    (VecSegmentPool.addressable_of_le (by decide) _) rfl [.insert 1 [0],
      .insertBatch [(2, [0]), (3, [0])], .delete 2, .compact .id none] (by decide) [0] 2
    fun _ => true).2 rfl
  exact ⟨hits, hhits, hshows⟩

end IndexSession

end FusionStore
