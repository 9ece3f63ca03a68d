import FusionStore.ForStd.AList
import FusionStore.Native.Snapshot

/-!
# Nodes and edges of the graph

Searching and linking decide which edges a graph has, but not which nodes: this
module follows the node set with its soft-delete flags (`flag`) through `insert`,
`delete` and the snapshot file, and keeps the structural facts a snapshot is checked
for when it is loaded (`Inv`).

## Key results

- `insert_cases`, `delete_spec`: what a call does to the flags
- `load_serialize`: when a snapshot loads, and as what
-/

namespace FusionStore

namespace NswGraph

/-- The soft-delete flag of a node, `none` if the id is not in the graph. -/
def flag (g : NswGraph) (id : NodeId) : Option Bool := (g.nodes.lookup id).map Node.deleted

/-- No dangling edge, and an entry point inside the graph unless it is empty. -/
structure Inv (g : NswGraph) : Prop where
  edges : ∀ id n, g.nodes.lookup id = some n → ∀ nb ∈ n.neighbors, (g.nodes.lookup nb).isSome
  entry : ∀ ep, g.entryPoint = some ep → (g.nodes.lookup ep).isSome
  noEntry : g.entryPoint = none → ∀ id, g.nodes.lookup id = none

/-- Every node has a flag. -/
theorem flag_ne_none {g : NswGraph} {id : NodeId} :
    g.flag id ≠ none ↔ (g.nodes.lookup id).isSome := by
  simp [flag, Option.isSome_iff_ne_none]

/-- The empty graph. -/
theorem inv_new : NswGraph.new.Inv where
  edges := by
    intro id n h
    exact nomatch h
  entry := by
    intro ep h
    exact nomatch h
  noEntry := fun _ _ => rfl

/-- It has no flags. -/
@[simp] theorem flag_new (id : NodeId) : NswGraph.new.flag id = none := rfl

/-- Live are the nodes whose flag is not set. -/
theorem isDeleted_iff {g : NswGraph} {id : NodeId} :
    g.isDeleted id = false ↔ g.flag id = some false := by
  unfold isDeleted flag
  cases g.nodes.lookup id with
  | none => simp
  | some n => simp

/-- The ids of the nodes with a property. -/
private theorem mem_idsOf {g : NswGraph} (p : Node → Bool) {id : NodeId} :
    id ∈ (g.nodes.entries.filter fun e => p e.2).map Sigma.fst ↔
      ∃ n, g.nodes.lookup id = some n ∧ p n = true := by
  rw [List.mem_map]
  constructor
  · rintro ⟨⟨id', n⟩, hmem, rfl⟩
    rw [List.mem_filter] at hmem
    exact ⟨n, AList.mem_lookup_iff.mpr hmem.1, hmem.2⟩
  · rintro ⟨n, hl, hp⟩
    exact ⟨⟨id, n⟩, List.mem_filter.mpr ⟨AList.mem_lookup_iff.mp hl, hp⟩, rfl⟩

/-- `list_vector_ids` lists the live nodes. -/
theorem mem_allIds {g : NswGraph} {id : NodeId} : id ∈ g.allIds ↔ g.flag id = some false := by
  have hlive : id ∈ g.allIds ↔ ∃ n, g.nodes.lookup id = some n ∧ (!n.deleted) = true :=
    mem_idsOf fun n => !n.deleted
  rw [hlive, flag, Option.map_eq_some_iff]
  simp only [Bool.not_eq_eq_eq_not, Bool.not_true]

/-- Every id is listed once. -/
theorem nodup_allIds (g : NswGraph) : g.allIds.Nodup := by
  unfold allIds
  exact (List.filter_sublist.map _).nodup g.nodes.keys_nodup

/-- `len` counts the live nodes. -/
theorem length_allIds (g : NswGraph) : g.allIds.length = g.len := by
  unfold allIds len
  exact List.length_map _

/-- The soft-deleted nodes. -/
theorem mem_allDeletedIds {g : NswGraph} {id : NodeId} :
    id ∈ g.allDeletedIds ↔ g.flag id = some true := by
  have hdead : id ∈ g.allDeletedIds ↔ ∃ n, g.nodes.lookup id = some n ∧ n.deleted = true :=
    mem_idsOf Node.deleted
  rw [hdead, flag, Option.map_eq_some_iff]

/-! ### The search returns live nodes -/

/-- Every result so far is a live node. -/
def LiveResults (g : NswGraph) (s : Search) : Prop :=
  ∀ r ∈ s.results.data, g.isDeleted r.2 = false

/-- A neighbor becomes a result only if it is live. -/
theorem liveResults_visitNeighbor {g : NswGraph} {queryDist : NodeId → F32} {ef : Nat}
    {s : Search} {nb : NodeId} (h : g.LiveResults s) :
    g.LiveResults (g.visitNeighbor queryDist ef s nb) := by
  unfold visitNeighbor
  split
  · exact h
  · intro r hr
    simp only at hr
    split at hr
    · exact h r hr
    · rename_i hdel
      have hlive : g.isDeleted nb = false := by simpa using hdel
      split at hr
      · -- there is room
        rcases BinaryHeap.mem_push.mp hr with rfl | hr
        · exact hlive
        · exact h r hr
      · split at hr
        · rename_i hp
          split at hr
          · -- the farthest result is replaced
            rcases BinaryHeap.mem_push.mp hr with rfl | hr
            · exact hlive
            · exact h r (BinaryHeap.mem_of_pop hp hr)
          · exact h r hr
        · exact h r hr

/-- So all results of the loop are live. -/
theorem liveResults_searchLoop {g : NswGraph} {queryDist : NodeId → F32} {ef : Nat}
    {expired : Nat → Bool} {fuel n : Nat} {s : Search} (h : g.LiveResults s) :
    g.LiveResults (g.searchLoop queryDist ef expired fuel n s) := by
  -- by induction on the fuel: each round visits the neighbours of one candidate
  induction fuel generalizing n s with
  | zero => exact h
  | succ fuel ih =>
    unfold searchLoop
    split
    · exact h
    · -- popping a candidate leaves the results alone
      rename_i cid candidates _
      have h' : g.LiveResults { s with candidates } := h
      simp only
      split
      · exact h'
      · split
        · exact h'
        · split
          · exact ih h'
          · apply ih
            rename_i node _
            generalize ({ s with candidates } : Search) = t at h'
            -- and each neighbour is added only if it is live
            induction node.neighbors generalizing t with
            | nil => exact h'
            | cons nb nbs ihn => exact ihn _ (liveResults_visitNeighbor h')

/-- A search returns live nodes only. -/
theorem mem_searchLayer {g : NswGraph} {queryDist : NodeId → F32} {ef : Nat} {entry : NodeId}
    {expired : Nat → Bool} {r : NodeId × F32}
    (h : r ∈ g.searchLayer queryDist ef entry expired) : g.isDeleted r.1 = false := by
  unfold searchLayer at h
  rw [List.mem_insertionSort, List.mem_map] at h
  obtain ⟨q, hq, rfl⟩ := h
  refine liveResults_searchLoop ?_ q hq
  intro r hr
  simp only at hr
  split at hr
  · cases hr
  · rename_i hdel
    rw [BinaryHeap.mem_singleton] at hr
    subst hr
    simpa using hdel

/-! ### Insert and delete -/

/-- Back-links only append the new id to lists of existing nodes. -/
theorem backLink_spec (id nb : NodeId) (nodes : AList fun _ : NodeId => Node) (j : NodeId) :
    ((backLink id nodes nb).lookup j).map Node.deleted = (nodes.lookup j).map Node.deleted ∧
      ∀ n, (backLink id nodes nb).lookup j = some n → ∃ m, nodes.lookup j = some m ∧
        ∀ x ∈ n.neighbors, x ∈ m.neighbors ∨ x = id := by
  unfold backLink
  cases hl : nodes.lookup nb with
  | none => exact ⟨rfl, fun n hn => ⟨n, hn, fun x hx => Or.inl hx⟩⟩
  | some m =>
    by_cases hj : j = nb
    · subst hj
      simp only [AList.lookup_insert, hl, Option.map_some, true_and]
      intro n hn
      rw [Option.some.injEq] at hn
      subst hn
      refine ⟨m, rfl, fun x hx => ?_⟩
      have hx' := List.mem_of_mem_take hx
      rw [List.mem_append, List.mem_singleton] at hx'
      exact hx'
    · simp only [AList.lookup_insert_ne hj, true_and]
      exact fun n hn => ⟨n, hn, fun x hx => Or.inl hx⟩

/-- The same for the links of all selected neighbors. -/
theorem backLinks_spec (id : NodeId) (nbs : List NodeId) (nodes : AList fun _ : NodeId => Node)
    (j : NodeId) :
    ((nbs.foldl (backLink id) nodes).lookup j).map Node.deleted =
        (nodes.lookup j).map Node.deleted ∧
      ∀ n, (nbs.foldl (backLink id) nodes).lookup j = some n → ∃ m, nodes.lookup j = some m ∧
        ∀ x ∈ n.neighbors, x ∈ m.neighbors ∨ x = id := by
  induction nbs generalizing nodes with
  | nil => exact ⟨rfl, fun n hn => ⟨n, hn, fun x hx => Or.inl hx⟩⟩
  | cons nb nbs ih =>
    obtain ⟨hf, hn⟩ := ih (backLink id nodes nb)
    obtain ⟨hf', hn'⟩ := backLink_spec id nb nodes j
    refine ⟨hf.trans hf', fun n hl => ?_⟩
    obtain ⟨m, hm, hsub⟩ := hn n hl
    obtain ⟨m', hm', hsub'⟩ := hn' m hm
    refine ⟨m', hm', fun x hx => ?_⟩
    rcases hsub x hx with hx | hx
    · exact hsub' x hx
    · exact Or.inr hx

/-- A flag belongs to a node. -/
theorem isSome_of_flag {g : NswGraph} {id : NodeId} {b : Bool} (h : g.flag id = some b) :
    (g.nodes.lookup id).isSome := by
  unfold flag at h
  cases hl : g.nodes.lookup id with
  | none =>
    rw [hl] at h
    exact nomatch h
  | some n => rfl

/-- Writing a node takes no other node away. -/
theorem isSome_lookup_insert {nodes : AList fun _ : NodeId => Node} {id : NodeId} (n : Node)
    {x : NodeId} (hx : (nodes.lookup x).isSome ∨ x = id) :
    ((nodes.insert id n).lookup x).isSome := by
  by_cases hxi : x = id
  · subst hxi
    simp only [AList.lookup_insert, Option.isSome_some]
  · rw [AList.lookup_insert_ne hxi]
    exact hx.resolve_right hxi

/-- The first node of an empty graph. -/
private theorem Inv.first {g : NswGraph} (h : g.Inv) (hep : g.entryPoint = none)
    (id : NodeId) : (⟨g.nodes.insert id ⟨false, []⟩, some id⟩ : NswGraph).Inv where
  edges := by
    intro j n hj nb hnb
    by_cases hji : j = id
    · subst hji
      rw [AList.lookup_insert, Option.some.injEq] at hj
      subst hj
      cases hnb
    · rw [AList.lookup_insert_ne hji, h.noEntry hep] at hj
      cases hj
  entry := by
    intro ep he
    rw [Option.some.injEq] at he
    subst he
    simp only [AList.lookup_insert, Option.isSome_some]
  noEntry := by
    intro hn
    cases hn

/-- A new node with its neighbors and their back-links. -/
private theorem Inv.linked {g : NswGraph} (h : g.Inv) {entry : NodeId}
    (hep : g.entryPoint = some entry) (id : NodeId) {nbs : List NodeId}
    (hnbs : ∀ nb ∈ nbs, (g.nodes.lookup nb).isSome) :
    (⟨(nbs.foldl (backLink id) g.nodes).insert id ⟨false, nbs⟩, g.entryPoint⟩ : NswGraph).Inv := by
  -- the back-links are written over nodes of the graph
  have htarget : ∀ x, (g.nodes.lookup x).isSome ∨ x = id →
      (((nbs.foldl (backLink id) g.nodes).insert id ⟨false, nbs⟩).lookup x).isSome := by
    intro x hx
    refine isSome_lookup_insert _ (hx.imp_left fun hsome => ?_)
    have hflag := congrArg Option.isSome (backLinks_spec id nbs g.nodes x).1
    rw [Option.isSome_map, Option.isSome_map] at hflag
    exact hflag.trans hsome
  refine ⟨?_, ?_, ?_⟩
  · -- an edge of the new graph is one of the new node, or an old or a back-link
    intro j n hj nb hnb
    apply htarget
    by_cases hji : j = id
    · subst hji
      rw [AList.lookup_insert, Option.some.injEq] at hj
      subst hj
      exact Or.inl (hnbs nb hnb)
    · rw [AList.lookup_insert_ne hji] at hj
      obtain ⟨m, hm, hsub⟩ := (backLinks_spec id nbs g.nodes j).2 n hj
      exact (hsub nb hnb).imp_left fun hx => h.edges j m hm nb hx
  · intro ep he
    exact htarget ep (Or.inl (h.entry ep he))
  · intro hn
    cases hep.symm.trans hn

/-- Everything `insert` can do: a known id is refused, a new one becomes a live node and
    no other flag changes. -/
theorem insert_cases {g : NswGraph} (h : g.Inv) (id : NodeId) (dist : NodeId → F32) :
    (g.flag id ≠ none ∧ g.insert id dist = .error (.duplicateVector id)) ∨
    (g.flag id = none ∧ ∃ g', g.insert id dist = .ok g' ∧ g'.Inv ∧ g'.flag id = some false ∧
      ∀ j, j ≠ id → g'.flag j = g.flag j) := by
  unfold insert
  cases hl : g.nodes.lookup id with
  -- the id is a node already
  | some n =>
    refine Or.inl ⟨?_, rfl⟩
    unfold flag
    rw [hl]
    exact Option.some_ne_none _
  | none =>
    have hflag : g.flag id = none := by
      unfold flag
      rw [hl]
      rfl
    refine Or.inr ⟨hflag, ?_⟩
    cases hep : g.entryPoint with
    -- the first node becomes the entry point
    | none =>
      refine ⟨_, rfl, h.first hep id, ?_, fun j hj => ?_⟩
      · simp only [flag, AList.lookup_insert, Option.map_some]
      · simp only [flag, AList.lookup_insert_ne hj]
    | some entry =>
      simp only
      -- the nearest results are linked both ways
      generalize hnbs : ((g.searchLayer dist efConstruction entry fun _ => false).take nswM).map
        Prod.fst = nbs
      -- the search only finds live nodes
      have hlive : ∀ nb ∈ nbs, (g.nodes.lookup nb).isSome := by
        intro nb hnb
        rw [← hnbs, List.mem_map] at hnb
        obtain ⟨r, hr, rfl⟩ := hnb
        exact isSome_of_flag (isDeleted_iff.mp (mem_searchLayer (List.mem_of_mem_take hr)))
      refine ⟨_, rfl, hep ▸ h.linked hep id hlive, ?_, fun j hj => ?_⟩
      · simp only [flag, AList.lookup_insert, Option.map_some]
      · unfold flag
        rw [AList.lookup_insert_ne hj]
        exact (backLinks_spec id nbs g.nodes j).1

/-- The invariant through an insert. -/
theorem Inv.insert {g g' : NswGraph} (h : g.Inv) {id : NodeId} {dist : NodeId → F32}
    (hins : g.insert id dist = .ok g') : g'.Inv := by
  obtain ⟨-, he⟩ | ⟨-, g'', he, hg'', -⟩ := insert_cases h id dist
  · rw [he] at hins
    cases hins
  · rw [he] at hins
    exact Except.ok.inj hins ▸ hg''

/-- `delete` raises the flag of a node and changes nothing else. -/
theorem delete_spec {g : NswGraph} (h : g.Inv) (id : NodeId) :
    (g.delete id).2.Inv ∧ (g.delete id).2.flag id = (g.flag id).map (fun _ => true) ∧
      (∀ j, j ≠ id → (g.delete id).2.flag j = g.flag j) ∧
      ((g.delete id).1 = true ↔ g.flag id = some false) := by
  unfold delete
  cases hl : g.nodes.lookup id with
  -- no such node, nothing to do
  | none =>
    refine ⟨h, ?_, fun _ _ => rfl, ?_⟩
    · simp only [flag, hl, Option.map_none]
    · simp only [flag, hl, Option.map_none, reduceCtorEq]
  | some n =>
    -- a flag is written over the node, so no id disappears
    have hsome : ∀ x, (g.nodes.lookup x).isSome →
        ((g.nodes.insert id { n with deleted := true }).lookup x).isSome :=
      fun x hx => isSome_lookup_insert _ (Or.inl hx)
    refine ⟨⟨?_, ?_, ?_⟩, ?_, ?_, ?_⟩
    · -- the edges are the old ones
      intro j m hj nb hnb
      apply hsome
      by_cases hji : j = id
      · subst hji
        simp only [AList.lookup_insert, Option.some.injEq] at hj
        subst hj
        exact h.edges j n hl nb hnb
      · rw [AList.lookup_insert_ne hji] at hj
        exact h.edges j m hj nb hnb
    · intro ep he
      exact hsome ep (h.entry ep he)
    · intro hn
      rw [h.noEntry hn] at hl
      cases hl
    · simp only [flag, AList.lookup_insert, hl, Option.map_some]
    · intro j hj
      simp only [flag, AList.lookup_insert_ne hj]
    · simp only [flag, hl, Option.map_some, Option.some.injEq, Bool.not_eq_true']

/-- The step lemma of a graph. -/
theorem Inv.step {g : NswGraph} (h : g.Inv) (ev : GraphEvent) : (g.step ev).Inv := by
  cases ev with
  | delete id => exact (delete_spec h id).1
  | insert id dist =>
    obtain ⟨-, he⟩ | ⟨-, g', he, hg', -⟩ := insert_cases h id dist
    · simp only [NswGraph.step, he]
      exact h
    · simp only [NswGraph.step, he]
      exact hg'

end NswGraph

/-! ### Snapshots -/

namespace Snapshot

/-- `g'` is `g` up to the order of its node map. -/
structure SameGraph (g g' : NswGraph) : Prop where
  nodes : ∀ id, g'.nodes.lookup id = g.nodes.lookup id
  entry : g'.entryPoint = g.entryPoint

/-- The same nodes have the same flags. -/
theorem SameGraph.flag {g g' : NswGraph} (h : SameGraph g g') (id : NodeId) :
    g'.flag id = g.flag id := by
  unfold NswGraph.flag
  rw [h.nodes]

/-- And are as well formed. -/
theorem SameGraph.inv {g g' : NswGraph} (h : SameGraph g g') (hg : g.Inv) : g'.Inv where
  edges := by
    intro id n hl nb hnb
    rw [h.nodes] at hl ⊢
    exact hg.edges id n hl nb hnb
  entry := by
    intro ep he
    rw [h.entry] at he
    rw [h.nodes]
    exact hg.entry ep he
  noEntry := by
    intro hn id
    rw [h.entry] at hn
    rw [h.nodes]
    exact hg.noEntry hn id

/-- The loop of `load` is one insertion of all nodes. -/
theorem restore_nodes (nodes : List (NodeId × List NodeId × Bool)) (g : NswGraph) :
    (nodes.foldl (fun g n => g.restoreNode n.1 n.2.1 n.2.2) g) =
      { g with nodes :=
          AList.insertAll (fun n => n.1) (fun n => ⟨n.2.2, n.2.1⟩) g.nodes nodes } := by
  induction nodes generalizing g with
  | nil => rfl
  | cons n nodes ih =>
    rw [List.foldl_cons, ih, AList.insertAll_cons]
    rfl

/-- A snapshot lists the nodes of a graph, in any order, and its entry point. -/
structure Lists (s : Snapshot) (g : NswGraph) : Prop where
  nodes : s.nodes.Perm (serialize g).nodes
  entryPoint : s.entryPoint = (serialize g).entryPoint

/-- A snapshot lists the nodes in the order of the map. -/
theorem lists_serialize (g : NswGraph) : (serialize g).Lists g := ⟨.refl _, rfl⟩

/-- Writing a graph and restoring it gives the same graph. -/
theorem Lists.restore {s : Snapshot} {g : NswGraph} (hs : s.Lists g) (h : g.Inv) :
    SameGraph g s.restore := by
  -- the snapshot lists the nodes of the graph in some order
  have hkeys : (s.nodes.map fun n => n.1).Perm g.nodes.keys := by
    refine (hs.nodes.map _).trans ?_
    simp only [serialize, List.map_map]
    exact .refl _
  -- reading them back, in whatever order, rebuilds the node map
  have hnodes : ∀ id, (AList.insertAll (fun n : NodeId × List NodeId × Bool => n.1)
      (fun n => (⟨n.2.2, n.2.1⟩ : Node)) ∅ s.nodes).lookup id = g.nodes.lookup id := by
    intro id
    cases hl : g.nodes.lookup id with
    | none =>
      rw [AList.lookup_insertAll_of_notMem, AList.lookup_empty]
      rw [hkeys.mem_iff, ← AList.mem_keys]
      exact AList.lookup_eq_none.mp hl
    | some n =>
      have hmem : (id, n.neighbors, n.deleted) ∈ s.nodes :=
        hs.nodes.mem_iff.mpr (List.mem_map.mpr ⟨⟨id, n⟩, AList.mem_lookup_iff.mp hl, rfl⟩)
      exact AList.lookup_insertAll_of_mem (hkeys.nodup_iff.mpr g.nodes.keys_nodup) hmem
  unfold Snapshot.restore
  rw [restore_nodes]
  unfold NswGraph.restoreEntryPoint
  simp only [NswGraph.new, hnodes]
  cases hep : g.entryPoint with
  | none =>
    -- without an entry point there are no nodes, so id 0 is not one either
    rw [h.noEntry hep]
    exact ⟨hnodes, hep.symm⟩
  -- the entry point is among the nodes
  | some ep =>
    have hsome := h.entry ep hep
    have hser : s.entryPoint = ep := by
      simp only [hs.entryPoint, serialize, hep, Option.getD_some]
    rw [hser]
    cases hl : g.nodes.lookup ep with
    | none =>
      rw [hl] at hsome
      exact nomatch hsome
    | some n => exact ⟨hnodes, hep.symm⟩

/-- A well-formed graph passes, unless its entry point is soft-deleted. -/
theorem validateEdges_of_inv {g : NswGraph} (h : g.Inv) (hne : g.nodes.entries ≠ []) :
    (g.validateEdges = .ok () ∧ ∃ ep, g.entryPoint = some ep ∧ g.flag ep = some false) ∨
    (∃ ep, g.entryPoint = some ep ∧ g.flag ep = some true ∧ g.validateEdges =
      .error (.corrupt s!"entry point {ep} is soft-deleted, no valid search start")) := by
  -- no edge of a sound graph dangles, so the first check passes
  have hdangling : (g.nodes.entries.findSome? fun n =>
      (n.2.neighbors.find? fun nb => (g.nodes.lookup nb).isNone).map fun nb => (n.1, nb)) =
        none := by
    rw [List.findSome?_eq_none_iff]
    intro e he
    rw [Option.map_eq_none_iff, List.find?_eq_none]
    intro nb hnb
    have hsome := h.edges e.1 e.2 (AList.mem_lookup_iff.mpr he) nb hnb
    cases hl : g.nodes.lookup nb with
    | none =>
      rw [hl] at hsome
      exact nomatch hsome
    | some n => exact Bool.false_ne_true
  cases hep : g.entryPoint with
  | none =>
    -- an entry of the node map contradicts the missing entry point
    obtain ⟨e, es, he⟩ := List.exists_cons_of_ne_nil hne
    have hl : g.nodes.lookup e.1 = some e.2 :=
      AList.mem_lookup_iff.mpr (by rw [he]; exact List.mem_cons_self)
    rw [h.noEntry hep] at hl
    exact nomatch hl
  | some ep =>
    have hempty : g.nodes.entries.isEmpty = false := by
      rw [List.isEmpty_eq_false_iff]
      exact hne
    have hvalid : g.validateEdges = if g.isDeleted ep then
        .error (.corrupt s!"entry point {ep} is soft-deleted, no valid search start")
        else .ok () := by
      unfold NswGraph.validateEdges
      simp only [hdangling, hempty, hep, Bool.false_eq_true, ↓reduceIte]
    -- what decides is whether the entry point is live
    cases hdel : g.isDeleted ep with
    | false =>
      rw [hdel] at hvalid
      exact Or.inl ⟨hvalid, ep, rfl, NswGraph.isDeleted_iff.mp hdel⟩
    | true =>
      rw [hdel] at hvalid
      refine Or.inr ⟨ep, rfl, ?_, hvalid⟩
      have hsome := h.entry ep hep
      unfold NswGraph.isDeleted at hdel
      unfold NswGraph.flag
      cases hl : g.nodes.lookup ep with
      | none =>
        rw [hl] at hsome
        exact nomatch hsome
      | some n =>
        rw [hl] at hdel
        exact congrArg some hdel

/-- A snapshot loads, as the same graph, unless its entry point is soft-deleted. -/
theorem Lists.load {s : Snapshot} {g : NswGraph} (hs : s.Lists g) (h : g.Inv) :
    ((∃ g', Snapshot.load (some s) = .ok (some g') ∧ SameGraph g g') ∧
      ∀ ep, g.entryPoint = some ep → g.flag ep = some false) ∨
    (∃ ep, g.entryPoint = some ep ∧ g.flag ep = some true ∧ Snapshot.load (some s) =
      .error (.corrupt s!"entry point {ep} is soft-deleted, no valid search start")) := by
  have hsame := hs.restore h
  -- the two paths of `load`: an empty file, or a restored graph that is checked
  have hload : Snapshot.load (some s) =
      if s.nodes.isEmpty then .ok (some NswGraph.new)
      else s.restore.validateEdges.bind fun _ => .ok (some s.restore) := rfl
  by_cases hempty : s.nodes.isEmpty = true
  · -- without nodes there is no entry point
    have hnil : g.nodes.entries = [] := by
      have hperm := hs.nodes
      rw [List.isEmpty_iff.mp hempty] at hperm
      simpa [serialize] using hperm.symm.eq_nil
    have hl : ∀ id, g.nodes.lookup id = none := by
      intro id
      rw [AList.lookup_eq_none, AList.mem_keys, AList.keys, hnil]
      exact List.not_mem_nil
    have hep : g.entryPoint = none := by
      cases hep : g.entryPoint with
      | none => rfl
      | some ep =>
        have hsome := h.entry ep hep
        rw [hl] at hsome
        exact nomatch hsome
    rw [hload, if_pos hempty]
    refine Or.inl ⟨⟨NswGraph.new, rfl, fun id => (hl id).symm, hep.symm⟩, fun ep he => ?_⟩
    rw [hep] at he
    exact nomatch he
  · rw [hload, if_neg hempty]
    -- a snapshot with nodes restores to a graph with nodes
    have hne : s.restore.nodes.entries ≠ [] := by
      intro hnil
      have hall : ∀ id, g.nodes.lookup id = none := by
        intro id
        rw [← hsame.nodes, AList.lookup_eq_none, AList.mem_keys, AList.keys, hnil]
        exact List.not_mem_nil
      have hent : g.nodes.entries = [] := by
        cases hent : g.nodes.entries with
        | nil => rfl
        | cons e es =>
          have hl : g.nodes.lookup e.1 = some e.2 :=
            AList.mem_lookup_iff.mpr (by rw [hent]; exact List.mem_cons_self)
          rw [hall] at hl
          exact nomatch hl
      have hperm := hs.nodes
      rw [serialize, hent, List.map_nil] at hperm
      exact hempty (List.isEmpty_iff.mpr hperm.eq_nil)
    -- what remains is the check of the entry point
    obtain ⟨hok, ep, hep, hlive⟩ | ⟨ep, hep, hdel, herr⟩ := validateEdges_of_inv (hsame.inv h) hne
    · rw [hsame.entry] at hep
      refine Or.inl ⟨⟨s.restore, ?_, hsame⟩, fun ep' hep' => ?_⟩
      · rw [hok]
        rfl
      · rw [hep] at hep'
        rw [← Option.some.inj hep', ← hsame.flag]
        exact hlive
    · refine Or.inr ⟨ep, hsame.entry ▸ hep, hsame.flag ep ▸ hdel, ?_⟩
      rw [herr]
      rfl

/-- So a snapshot loads, unless its entry point is soft-deleted. -/
theorem load_serialize {g : NswGraph} (h : g.Inv) :
    (∃ g', Snapshot.load (some (serialize g)) = .ok (some g') ∧ g'.Inv ∧
      ∀ id, g'.flag id = g.flag id) ∨
    ((∃ err, Snapshot.load (some (serialize g)) = .error err) ∧
      ∃ ep, g.entryPoint = some ep ∧ g.flag ep = some true) := by
  obtain ⟨⟨g', hload, hsame⟩, -⟩ | ⟨ep, hep, hdel, herr⟩ := (lists_serialize g).load h
  · exact Or.inl ⟨g', hload, hsame.inv h, hsame.flag⟩
  · exact Or.inr ⟨⟨_, herr⟩, ep, hep, hdel⟩

end Snapshot

end FusionStore
