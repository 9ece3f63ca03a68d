import FusionStore.ForStd.Except
import FusionStore.Spec.GraphShape
import FusionStore.Spec.SearchSession

/-!
# Searches of a small index are exact

The link back to a new node is lost only where every selected neighbour has `2 * M` neighbours
already.  No node has that many before there are `2 * M + 1` nodes, so up to that size the
graph stays navigable, whatever the distances are, as long as the search for neighbours has a
live node to find; and `ef_search` is larger than that, so the search sees all of them.

## Key results

- `NswGraph.navigable_inserts`: inserts keep a small graph navigable
- `IndexSession.small_index_exact`: a small index returns the true nearest neighbours
-/

namespace FusionStore

namespace NswGraph

variable {g : NswGraph} {id : NodeId} {dist : NodeId → F32}

/-- The number of nodes, soft-deleted ones included. -/
def size (g : NswGraph) : Nat := g.nodes.keys.length

/-- Live nodes are nodes. -/
theorem len_le_size (g : NswGraph) : g.len ≤ g.size := by
  rw [← length_allIds]
  refine (g.nodup_allIds.subperm fun id hid => ?_).length_le
  exact AList.lookup_isSome.mp
    (flag_ne_none.mp (by rw [mem_allIds.mp hid]; exact Option.some_ne_none _))

/-- The ids of the graph are those with a flag. -/
theorem mem_keys_iff_flag : id ∈ g.nodes.keys ↔ g.flag id ≠ none := by
  rw [flag_ne_none, AList.lookup_isSome]
  exact AList.mem_keys.symm

/-- The search for neighbours of a new node has a live node to find, if it has any to look
    at. -/
def Alive (g : NswGraph) : Prop := g.entryPoint = none ∨ ∃ id, g.isDeleted id = false

/-- With at most `2 * M` nodes none of them is full. -/
theorem Shape.neighbors_lt (h : g.Shape) (hsize : g.size ≤ nswM * 2) {n : Node}
    (hn : g.nodes.lookup id = some n) : n.neighbors.length < nswM * 2 := by
  have hnd : (id :: n.neighbors).Nodup := List.nodup_cons.mpr ⟨h.noSelf id n hn, h.nodup id n hn⟩
  have hsub : id :: n.neighbors ⊆ g.nodes.keys := by
    intro j hj
    obtain rfl | hj := List.mem_cons.mp hj
    · exact AList.lookup_isSome.mp (by rw [hn]; rfl)
    · exact AList.lookup_isSome.mp (h.inv.edges id n hn j hj)
  have hlen := (hnd.subperm hsub).length_le
  rw [List.length_cons] at hlen
  unfold size at hsize
  omega

/-- So an insert into a small graph selects a node with room for the link back. -/
theorem Shape.hasRoom (h : g.Shape) (hnav : g.Navigable) (halive : g.Alive)
    (hsize : g.size ≤ nswM * 2) (dist : NodeId → F32) : g.HasRoom dist := by
  unfold HasRoom
  cases hentry : g.entryPoint with
  | none => trivial
  | some entry =>
    obtain ⟨v, hv⟩ := halive.resolve_left (by rw [hentry]; exact Option.some_ne_none _)
    have hfew : g.liveFromEntry.ncard ≤ efConstruction := by
      have hle := g.ncard_liveFromEntry_le
      have hlen := g.len_le_size
      have hcap : nswM * 2 ≤ efConstruction := by decide
      omega
    have hmem := (mem_searchLayer_exact dist hentry hfew).mpr
      ⟨hv, hnav.reachable v hv⟩
    -- the search found something, so its first result is selected
    cases hfound : g.searchLayer dist efConstruction entry fun _ => false with
    | nil =>
      rw [hfound] at hmem
      cases hmem
    | cons c rest =>
      have hc : c ∈ g.searchLayer dist efConstruction entry fun _ => false := by
        rw [hfound]
        exact List.mem_cons_self
      have hlive := (mem_searchLayer_exact dist hentry hfew).mp (List.mem_map_of_mem hc)
      have hsome : (g.nodes.lookup c.1).isSome :=
        flag_ne_none.mp (by rw [isDeleted_iff.mp hlive.1]; exact Option.some_ne_none _)
      obtain ⟨n, hn⟩ := Option.isSome_iff_exists.mp hsome
      refine ⟨c, ?_, n, hn, h.neighbors_lt hsize hn⟩
      rw [hfound]
      simp [nswM]

/-- An insert adds the node it names, if there is none. -/
theorem Inv.mem_keys_insert (h : g.Inv) (id : NodeId) (dist : NodeId → F32) (j : NodeId) :
    j ∈ (g.step (.insert id dist)).nodes.keys ↔ j = id ∨ j ∈ g.nodes.keys := by
  obtain ⟨hf, he⟩ | ⟨-, g', hg', -, hflag, hother⟩ := insert_cases h id dist
  · simp only [NswGraph.step, he]
    constructor
    · exact Or.inr
    · rintro (rfl | hj)
      · exact mem_keys_iff_flag.mpr hf
      · exact hj
  · simp only [NswGraph.step, hg', mem_keys_iff_flag]
    by_cases hj : j = id
    · subst hj
      simp [hflag]
    · simp [hother j hj, hj]

/-- An insert removes no node. -/
theorem Inv.size_le_insert (h : g.Inv) (id : NodeId) (dist : NodeId → F32) :
    g.size ≤ (g.step (.insert id dist)).size :=
  (g.nodes.keys_nodup.subperm fun j hj =>
    (h.mem_keys_insert id dist j).mpr (Or.inr hj)).length_le

/-- A new id is a node more. -/
theorem Inv.size_insert_new (h : g.Inv) (hnew : g.nodes.lookup id = none)
    (dist : NodeId → F32) : g.size + 1 ≤ (g.step (.insert id dist)).size := by
  have hnot : id ∉ g.nodes.keys := by
    rw [mem_keys_iff_flag, flag_ne_none, hnew]
    exact Bool.false_ne_true
  have hnd : (id :: g.nodes.keys).Nodup := List.nodup_cons.mpr ⟨hnot, g.nodes.keys_nodup⟩
  have hlen := (hnd.subperm fun j hj => (h.mem_keys_insert id dist j).mpr
    (List.mem_cons.mp hj)).length_le
  rwa [List.length_cons] at hlen

/-- And only one. -/
theorem Inv.size_insert_le (h : g.Inv) (id : NodeId) (dist : NodeId → F32) :
    (g.step (.insert id dist)).size ≤ g.size + 1 :=
  ((g.step (.insert id dist)).nodes.keys_nodup.subperm fun j hj =>
    List.mem_cons.mpr ((h.mem_keys_insert id dist j).mp hj)).length_le

/-- An insert leaves something to find. -/
theorem Inv.alive_insert (h : g.Inv) (halive : g.Alive) (id : NodeId) (dist : NodeId → F32) :
    (g.step (.insert id dist)).Alive := by
  obtain ⟨-, he⟩ | ⟨-, g', hg', -, hflag, -⟩ := insert_cases h id dist
  · simp only [NswGraph.step, he]
    exact halive
  · simp only [NswGraph.step, hg']
    exact Or.inr ⟨id, isDeleted_iff.mpr hflag⟩

/-- A graph whose searches find everything. -/
structure Easy (g : NswGraph) : Prop where
  shape : g.Shape
  navigable : g.Navigable

/-- The empty graph. -/
theorem easy_new : NswGraph.new.Easy := by
  refine ⟨shape_new, navigable_of_reachable fun id hid => ?_⟩
  rw [isDeleted_iff, flag_new] at hid
  cases hid

/-- An insert that finds a live node and leaves the graph small. -/
theorem Easy.insert (h : g.Easy) (halive : g.Alive) (id : NodeId) (dist : NodeId → F32)
    (hsize : (g.step (.insert id dist)).size ≤ nswM * 2 + 1) :
    (g.step (.insert id dist)).Easy := by
  refine ⟨h.shape.step _, (h.shape.navigable_step h.navigable _).mpr ?_⟩
  cases hl : g.nodes.lookup id with
  | some n => exact Or.inl (by rw [hl]; rfl)
  | none =>
    have hlt := h.shape.inv.size_insert_new hl dist
    exact Or.inr (h.shape.hasRoom h.navigable halive (by omega) dist)

/-- A delete changes no edge. -/
theorem Easy.delete (h : g.Easy) (id : NodeId) : (g.step (.delete id)).Easy :=
  ⟨h.shape.step _, (h.shape.navigable_step h.navigable (.delete id)).mpr trivial⟩

/-- A list of inserts. -/
def Inserts (evs : List GraphEvent) : Prop := ∀ ev ∈ evs, ∃ id dist, ev = .insert id dist

/-- One insert more. -/
theorem Inserts.cons {id : NodeId} {dist : NodeId → F32} {evs : List GraphEvent}
    (h : Inserts evs) : Inserts (.insert id dist :: evs) := by
  intro ev hev
  obtain rfl | hev := List.mem_cons.mp hev
  · exact ⟨id, dist, rfl⟩
  · exact h ev hev

/-- Inserts make the graph no smaller. -/
theorem Inv.size_le_inserts {evs : List GraphEvent} (hevs : Inserts evs) (h : g.Inv) :
    g.size ≤ (Run.exec NswGraph.step g evs).size := by
  induction evs generalizing g with
  | nil => exact Nat.le_refl _
  | cons ev evs ih =>
    obtain ⟨id, dist, rfl⟩ := hevs ev List.mem_cons_self
    have hrest := ih (fun e he => hevs e (List.mem_cons_of_mem _ he)) (h.step (.insert id dist))
    exact (h.size_le_insert id dist).trans hrest

/-- Each makes it larger by at most one node. -/
theorem Inv.size_inserts_le {evs : List GraphEvent} (hevs : Inserts evs) (h : g.Inv) :
    (Run.exec NswGraph.step g evs).size ≤ g.size + evs.length := by
  induction evs generalizing g with
  | nil => exact Nat.le_refl _
  | cons ev evs ih =>
    obtain ⟨id, dist, rfl⟩ := hevs ev List.mem_cons_self
    have hrest := ih (fun e he => hevs e (List.mem_cons_of_mem _ he)) (h.step (.insert id dist))
    have hone := h.size_insert_le id dist
    rw [Run.exec_cons, List.length_cons]
    omega

/-- Inserts that leave at most `2 * M + 1` nodes keep a graph navigable. -/
theorem Easy.inserts {evs : List GraphEvent} (hevs : Inserts evs) (h : g.Easy)
    (halive : g.Alive) (hsize : (Run.exec step g evs).size ≤ nswM * 2 + 1) :
    (Run.exec step g evs).Easy := by
  induction evs generalizing g with
  | nil => exact h
  | cons ev evs ih =>
    obtain ⟨id, dist, rfl⟩ := hevs ev List.mem_cons_self
    have hrest : Inserts evs := fun e he => hevs e (List.mem_cons_of_mem _ he)
    have hinv := h.shape.inv
    -- what comes later only adds nodes
    have hgrows := (hinv.step (.insert id dist)).size_le_inserts hrest
    exact ih hrest (h.insert halive id dist (hgrows.trans hsize))
      (hinv.alive_insert halive id dist) hsize

/-- A graph that is empty or has a live node. -/
theorem Inv.alive (h : g.Inv) (hroom : g.size = 0 ∨ 0 < g.len) : g.Alive := by
  obtain hempty | hlen := hroom
  · refine Or.inl (Option.eq_none_iff_forall_ne_some.mpr fun entry hentry => ?_)
    have hmem : entry ∈ g.nodes.keys := AList.lookup_isSome.mp (h.entry entry hentry)
    rw [List.eq_nil_of_length_eq_zero hempty] at hmem
    exact List.not_mem_nil hmem
  · obtain ⟨id, hid⟩ := List.exists_mem_of_length_pos (g.length_allIds ▸ hlen)
    exact Or.inr ⟨id, isDeleted_iff.mpr (mem_allIds.mp hid)⟩

/-- `2 * M + 1` nodes around the same `M` hubs. -/
def crowd : List GraphEvent :=
  (List.range 33).map fun i =>
    .insert (UInt64.ofNat (i + 1)) fun j => if j ≤ 16 then 0 else F32.one

/-- The bound is sharp: all hubs are full when the next node comes, and it is lost. -/
theorem crowd_lost :
    ¬((Run.exec step .new crowd).step
      (.insert 34 fun j => if j ≤ 16 then 0 else F32.one)).Navigable := by
  have hinserts : Inserts crowd := by
    intro ev hev
    obtain ⟨i, -, rfl⟩ := List.mem_map.mp hev
    exact ⟨_, _, rfl⟩
  have heasy : (Run.exec step .new crowd).Easy :=
    easy_new.inserts hinserts (Or.inl rfl) (inv_new.size_inserts_le hinserts)
  have hfull : ¬(Run.exec step .new crowd).LinkStep
      (.insert 34 fun j => if j ≤ 16 then 0 else F32.one) := by decide +kernel
  exact fun hnav => hfull ((heasy.shape.navigable_step heasy.navigable _).mp hnav)

end NswGraph

namespace VectorIndex

open NswGraph (Inserts)

variable (A : F32Arith) {x : VectorIndex}

/-- To the graph, an insert is at most one insert. -/
theorem graph_insert (x : VectorIndex) (id : NodeId) (vector : List F32) :
    ∃ evs, Inserts evs ∧ (x.insert A id vector).2.graph = Run.exec NswGraph.step x.graph evs := by
  have hnone : ∃ evs, Inserts evs ∧ x.graph = Run.exec NswGraph.step x.graph evs :=
    ⟨[], fun ev hev => absurd hev List.not_mem_nil, rfl⟩
  unfold insert
  split
  · exact hnone
  split
  · exact hnone
  split
  · exact hnone
  · rename_i loc pool happ
    let y := ({ x with pool } : VectorIndex).putLocator id loc
    have hgraph : y.graph = x.graph := rfl
    cases hins : y.graph.insert id (y.distTo A vector) with
    | error e =>
      refine ⟨[], fun ev hev => absurd hev List.not_mem_nil, ?_⟩
      simp only [y] at hins
      simp only [hins]
      exact hgraph
    | ok graph =>
      refine ⟨[.insert id (y.distTo A vector)], Inserts.cons fun ev hev =>
        absurd hev List.not_mem_nil, ?_⟩
      have hstep : x.graph.step (.insert id (y.distTo A vector)) = graph := by
        rw [← hgraph]
        simp only [NswGraph.step, hins]
      rw [Run.exec_cons, Run.exec_nil, hstep]
      simp only [y] at hins
      simp only [hins]

/-- The graph loop of a batch is a run of inserts. -/
theorem graph_linkItems (x : VectorIndex) (items : List (NodeId × List F32)) :
    ∃ evs, Inserts evs ∧ (x.linkItems A items).2.graph = Run.exec NswGraph.step x.graph evs := by
  induction items generalizing x with
  | nil => exact ⟨[], fun ev hev => absurd hev List.not_mem_nil, rfl⟩
  | cons e items ih =>
    obtain ⟨id, vector⟩ := e
    unfold linkItems
    cases hins : x.graph.insert id (x.distTo A vector) with
    | error err => exact ⟨[], fun ev hev => absurd hev List.not_mem_nil, rfl⟩
    | ok graph =>
      obtain ⟨evs, hevs, heq⟩ := ih { x with graph }
      refine ⟨.insert id (x.distTo A vector) :: evs, hevs.cons, ?_⟩
      rw [Run.exec_cons]
      simp only [NswGraph.step, hins]
      exact heq

/-- The graph a compaction builds is a run of inserts into a new one, whatever the distances
    are. -/
theorem graph_foldlM (dist : NodeId × List F32 → NodeId → F32) {items : List (NodeId × List F32)}
    {g graph : NswGraph}
    (h : items.foldlM (fun g e => g.insert e.1 (dist e)) g = Except.ok graph) :
    ∃ evs, Inserts evs ∧ graph = Run.exec NswGraph.step g evs := by
  induction items generalizing g with
  | nil => exact ⟨[], fun ev hev => absurd hev List.not_mem_nil, (Except.ok.inj h).symm⟩
  | cons e items ih =>
    rw [List.foldlM_cons] at h
    obtain ⟨g', hins, hrest⟩ := Except.bind_ok h
    obtain ⟨evs, hevs, heq⟩ := ih hrest
    refine ⟨.insert e.1 (dist e) :: evs, hevs.cons, ?_⟩
    rw [Run.exec_cons, heq]
    simp only [NswGraph.step, hins]

/-- A compaction leaves the graph or builds it anew by inserts. -/
theorem graph_compact {n : Nat} (h : x.InvAt n) (order : MapOrder) (avail : Option Nat) :
    (x.compact A order avail).2.graph = x.graph ∨
      ∃ evs, Inserts evs ∧
        (x.compact A order avail).2.graph = Run.exec NswGraph.step .new evs := by
  obtain ⟨locs, pool, graph, hr⟩ := rewritten_ok A h order
  rw [compact_eq A hr]
  split
  · exact Or.inl rfl
  · exact Or.inr (graph_foldlM _ hr.build)

end VectorIndex

namespace IndexSession

open NswGraph (Inserts)

variable (A : F32Arith) {n dim : Nat} {s : IndexSession}

/-- The call leaves at most `2 * M + 1` nodes, soft-deleted ones included, and does not insert
    into an index that has soft-deleted vectors only. -/
def Roomy (s : IndexSession) (c : VectorCall) : Prop :=
  (s.step A c).index.graph.size ≤ nswM * 2 + 1 ∧
    match c with
    | .insert _ _ | .insertBatch _ => s.index.graph.size = 0 ∨ 0 < s.index.len
    | .delete _ | .compact _ _ => True

instance (s : IndexSession) (c : VectorCall) : Decidable (s.Roomy A c) :=
  match c with
  | .insert _ _ | .insertBatch _ | .delete _ | .compact _ _ =>
    inferInstanceAs (Decidable (_ ∧ _))

/-- A roomy call keeps the graph navigable. -/
theorem Inv.easy_step (h : s.Inv n dim) (heasy : s.index.graph.Easy) {c : VectorCall}
    (hc : c.Fine dim) (hroom : s.Roomy A c) : (s.step A c).index.graph.Easy := by
  obtain ⟨hsize, halive⟩ := hroom
  cases c with
  | insert id vector =>
    obtain ⟨evs, hevs, heq⟩ := s.index.graph_insert A id vector
    simp only [IndexSession.step, heq] at hsize ⊢
    exact heasy.inserts hevs (h.index.graph.alive halive) hsize
  | insertBatch items =>
    -- a batch is so many inserts, or none
    obtain ⟨evs, hevs, heq⟩ : ∃ evs, Inserts evs ∧ (s.index.insertBatch A items).2.graph =
        Run.exec NswGraph.step s.index.graph evs := by
      obtain ⟨-, err, he, -⟩ | ⟨-, e, -, -, he⟩ | ⟨hdims, -, he⟩ :=
        VectorIndex.insertBatch_cases A s.index items
      · rw [he]
        exact ⟨[], fun ev hev => absurd hev List.not_mem_nil, rfl⟩
      · rw [he]
        exact ⟨[], fun ev hev => absurd hev List.not_mem_nil, rfl⟩
      · obtain ⟨y, happ, -, -, hgraph, -⟩ :=
          VectorIndex.appendItems_spec h.index h.fits_index hdims
        rw [he, happ, ← hgraph]
        exact y.graph_linkItems A items
    simp only [IndexSession.step, heq] at hsize ⊢
    exact heasy.inserts hevs (h.index.graph.alive halive) hsize
  | delete id => exact heasy.delete id
  | compact order avail =>
    -- a compaction builds a new graph by inserts
    have hgraph : (s.step A (.compact order avail)).index.graph =
        (s.index.compact A order avail).2.graph := by
      simp only [IndexSession.step]
      split <;> rename_i he <;> rw [he]
    rw [hgraph] at hsize ⊢
    obtain he | ⟨evs, hevs, he⟩ := VectorIndex.graph_compact A h.index order avail
    · rw [he]
      exact heasy
    · -- the new graph starts empty
      rw [he] at hsize ⊢
      exact NswGraph.easy_new.inserts hevs (Or.inl rfl) hsize

/-- The first `top_k` of all stored vectors, nearest first. -/
structure Nearest (metric : MetricKind) (query : List F32) (topK : Nat) (m : VecMap)
    (hits : List (NodeId × F32)) : Prop where
  exact : ∃ all : List (NodeId × F32), hits = all.take topK ∧ (all.map Prod.fst).Nodup ∧
    all.Pairwise (fun a b => F32.totalLe a.2 b.2 = true) ∧
    ∀ id d, (id, d) ∈ all ↔ ∃ v, m.visible id = some v ∧ d = Simd.distance A metric query v

/-- Over a navigable graph a search with room for all vectors finds the nearest. -/
theorem Inv.exact (h : s.Inv n dim) (hnav : s.index.graph.Navigable) {query : List F32}
    (hdim : query.length = dim) (topK : Nat)
    (hroom : s.index.len ≤ max s.index.schema.efSearch topK) :
    ∃ hits, s.index.searchKnn A query topK (fun _ => false) = .ok hits ∧
      Nearest A s.index.schema.metric query topK s.stored hits := by
  obtain ⟨-, all, hnd, hall, hlen, hown, hsorted, heq⟩ := NswGraph.searchKnn_exact s.index.graph
    (s.index.distTo A query) topK s.index.schema.efSearch
    ((NswGraph.ncard_liveFromEntry_le _).trans hroom)
  refine ⟨_, VectorIndex.searchKnn_ok A h.index (hdim.trans h.schema.symm) topK _, all, ?_, hnd,
    hsorted, fun id d => ?_⟩
  · rw [heq, ← hlen, ← List.take_eq_take_min]
  · constructor
    · intro hmem
      obtain ⟨hlive, -⟩ := (hall id).mp (List.mem_map_of_mem hmem)
      obtain ⟨v, hv, hdist⟩ := VectorIndex.distTo_live A h.index hlive query
      rw [h.cells, VecMap.visible_cell] at hv
      exact ⟨v, hv, (hown _ hmem).trans hdist⟩
    · rintro ⟨v, hv, rfl⟩
      -- every stored vector is live and can be reached
      have hlive : s.index.graph.isDeleted id = false :=
        NswGraph.isDeleted_iff.mpr (NswGraph.mem_allIds.mp ((h.mem_list id).mpr (by rw [hv]; rfl)))
      obtain ⟨w, hw, hdist⟩ := VectorIndex.distTo_live A h.index hlive query
      rw [h.cells, VecMap.visible_cell, hv] at hw
      obtain rfl := Option.some.inj hw
      obtain ⟨r, hr, rfl⟩ := List.mem_map.mp ((hall id).mpr ⟨hlive, hnav.reachable id hlive⟩)
      rw [← hdist, ← hown r hr]
      exact hr

/-- As long as an index holds at most `2 * M + 1` vectors, soft-deleted ones included, and is
    never inserted into while all of them are soft-deleted, a search without a deadline
    returns the true nearest neighbours. -/
theorem small_index_exact (schema : VectorSchema) (segSize : Nat)
    (hfits : schema.dim * 4 ≤ VecSegmentPool.sizeOf segSize)
    (hslots : VecSegmentPool.Addressable (VecSegmentPool.sizeOf segSize) (schema.dim * 4))
    {x : VectorIndex} (hopen : (VectorIndex.open .empty schema segSize).1 = .ok x)
    (calls : List VectorCall) (hfine : ∀ c ∈ calls, c.Fine schema.dim)
    (hroomy : Run.Guarded (step A) (Roomy A) (start x) calls) (query : List F32)
    (hdim : query.length = schema.dim) (topK : Nat)
    (hef : (Run.exec (step A) (start x) calls).index.len ≤ max schema.efSearch topK) :
    ∃ hits,
      (Run.exec (step A) (start x) calls).index.searchKnn A query topK (fun _ => false) =
        .ok hits ∧
      Nearest A schema.metric query topK (Run.exec (step A) (start x) calls).stored hits := by
  obtain ⟨hinv, hschema, hcell⟩ := VectorIndex.open_empty hslots hopen
  have hstart : (start x).Inv (VecSegmentPool.sizeOf segSize) schema.dim ∧
      (start x).index.schema = schema ∧ (start x).index.graph.Easy := by
    refine ⟨⟨hinv, congrArg VectorSchema.dim hschema, hfits, hcell⟩, hschema, ?_⟩
    obtain rfl := Except.ok.inj hopen
    exact NswGraph.easy_new
  obtain ⟨h, hs, heasy⟩ := (hroomy.and_forall hfine).invariant
    (fun s : IndexSession => s.Inv _ _ ∧ s.index.schema = schema ∧ s.index.graph.Easy)
    (fun s c hs hc => ⟨hs.1.step A hc.2, (hs.1.schema_step A c).trans hs.2.1,
      hs.1.easy_step A hs.2.2 hc.2 hc.1⟩) hstart
  obtain ⟨hits, hhits, hnearest⟩ := h.exact A heasy.navigable hdim topK (by rwa [hs])
  rw [hs] at hnearest
  exact ⟨hits, hhits, hnearest⟩

/-- Soft-deleted vectors count until a compaction drops them. -/
theorem small_index_exact_compacted : ∃ x,
    (VectorIndex.open .empty flatSchema 8).1 = .ok x ∧
    ∃ hits, (Run.exec (step zeroArith) (start x) [.insert 1 [0], .insertBatch [(2, [0]), (3, [0])],
        .delete 2, .insert 4 [0], .compact .id none]).index.searchKnn zeroArith [0] 2
          (fun _ => false) = .ok hits ∧
      Nearest zeroArith .l2 [0] 2 (Run.exec (step zeroArith) (start x) [.insert 1 [0],
        .insertBatch [(2, [0]), (3, [0])], .delete 2, .insert 4 [0], .compact .id none]).stored
          hits := by
  refine ⟨_, rfl, ?_⟩
  exact small_index_exact zeroArith flatSchema 8 (by decide)
    (VecSegmentPool.addressable_of_le (by decide) _) rfl [.insert 1 [0],
      .insertBatch [(2, [0]), (3, [0])], .delete 2, .insert 4 [0], .compact .id none] (by decide)
    (by decide +kernel) [0] rfl 2 (by decide +kernel)

end IndexSession

end FusionStore
