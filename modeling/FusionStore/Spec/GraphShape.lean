import FusionStore.Spec.Reachability

/-!
# The shape of the graph

`insert` links a node to what a search returned, in both directions, and cuts the lists it
appends to.  A search returns each live node once and the new id is not in the graph yet, so
a list never names its own node, nor another node twice.
-/

namespace FusionStore

namespace NswGraph

variable {g g' : NswGraph} {id entry : NodeId} {dist : NodeId → F32}

/-- With each neighbour once, a neighbour gets one link back and no other node changes. -/
theorem lookup_backLinks {nbs : List NodeId} (hnd : nbs.Nodup)
    (nodes : AList fun _ : NodeId => Node) (j : NodeId) :
    (nbs.foldl (backLink id) nodes).lookup j =
      if j ∈ nbs then (nodes.lookup j).map fun n =>
        { n with neighbors := (n.neighbors ++ [id]).take (nswM * 2) }
      else nodes.lookup j := by
  induction nbs generalizing nodes with
  | nil => simp
  | cons nb nbs ih =>
    obtain ⟨hnb, hnd⟩ := List.nodup_cons.mp hnd
    rw [List.foldl_cons, ih hnd]
    by_cases hj : j = nb
    · subst hj
      rw [if_neg hnb, if_pos List.mem_cons_self]
      cases hl : nodes.lookup j with
      | none => simp [backLink, hl]
      | some n => simp [lookup_backLink_self hl]
    · rw [lookup_backLink_ne hj]
      simp [hj]

/-- What the calls keep of the neighbour lists. -/
structure Shape (g : NswGraph) : Prop extends Grown g where
  noSelf : ∀ id n, g.nodes.lookup id = some n → id ∉ n.neighbors
  nodup : ∀ id n, g.nodes.lookup id = some n → n.neighbors.Nodup

theorem shape_new : NswGraph.new.Shape where
  inv := inv_new
  bounded := by
    intro id n h
    cases h
  noSelf := by
    intro id n h
    cases h
  nodup := by
    intro id n h
    cases h

/-- The nodes an insert selects: each once, and all of them in the graph. -/
theorem nodup_selected (g : NswGraph) (dist : NodeId → F32) (entry : NodeId) :
    (((g.searchLayer dist efConstruction entry fun _ => false).take nswM).map Prod.fst).Nodup := by
  rw [List.map_take]
  exact (nodup_searchLayer g dist efConstruction entry).sublist (List.take_sublist _ _)

theorem isSome_of_mem_selected {nb : NodeId}
    (h : nb ∈ ((g.searchLayer dist efConstruction entry fun _ => false).take nswM).map Prod.fst) :
    (g.nodes.lookup nb).isSome := by
  obtain ⟨c, hc, rfl⟩ := List.mem_map.mp h
  exact (selected hc).1

/-- A list that gets a link back: the new id is in no list yet, and is not the node itself. -/
theorem Shape.append (h : g.Shape) (hnew : g.nodes.lookup id = none) {j : NodeId} {n : Node}
    (hn : g.nodes.lookup j = some n) :
    j ∉ (n.neighbors ++ [id]).take (nswM * 2) ∧ ((n.neighbors ++ [id]).take (nswM * 2)).Nodup := by
  have hid : id ∉ n.neighbors := by
    intro hmem
    have hsome := h.inv.edges j n hn id hmem
    simp [hnew] at hsome
  have hj : j ≠ id := by
    rintro rfl
    simp [hnew] at hn
  constructor
  · intro hmem
    obtain hmem | hmem := List.mem_append.mp (List.mem_of_mem_take hmem)
    · exact h.noSelf j n hn hmem
    · exact hj (List.mem_singleton.mp hmem)
  · have hnd : (n.neighbors ++ [id]).Nodup :=
      (h.nodup j n hn).append (List.nodup_singleton id) (by simpa using hid)
    exact hnd.sublist (List.take_sublist _ _)

/-- The lists after one call. -/
theorem Shape.lists_step (h : g.Shape) (ev : GraphEvent) {j : NodeId} {n : Node}
    (hn : (g.step ev).nodes.lookup j = some n) : j ∉ n.neighbors ∧ n.neighbors.Nodup := by
  cases ev with
  | delete id =>
    -- a delete keeps all lists
    have hsame := (lookup_delete g id j).1
    rw [show (g.delete id).2.nodes.lookup j = some n from hn] at hsame
    obtain ⟨m, hm, hmn⟩ := Option.map_eq_some_iff.mp hsame.symm
    rw [← hmn]
    exact ⟨h.noSelf j m hm, h.nodup j m hm⟩
  | insert id dist =>
    unfold NswGraph.step NswGraph.insert at hn
    cases hl : g.nodes.lookup id with
    | some old =>
      simp only [hl] at hn
      exact ⟨h.noSelf j n hn, h.nodup j n hn⟩
    | none =>
      cases hep : g.entryPoint with
      | none =>
        simp only [hl, hep] at hn
        by_cases hj : j = id
        · -- the first node has no neighbors
          subst hj
          rw [AList.lookup_insert] at hn
          obtain rfl := Option.some.inj hn
          simp
        · rw [AList.lookup_insert_ne hj] at hn
          exact ⟨h.noSelf j n hn, h.nodup j n hn⟩
      | some entry =>
        simp only [hl, hep] at hn
        by_cases hj : j = id
        · -- the new node is not among what it was linked to
          subst hj
          rw [AList.lookup_insert] at hn
          obtain rfl := Option.some.inj hn
          refine ⟨fun hmem => ?_, nodup_selected g dist entry⟩
          have hsome := isSome_of_mem_selected hmem
          simp [hl] at hsome
        · rw [AList.lookup_insert_ne hj, lookup_backLinks (nodup_selected g dist entry)] at hn
          split at hn
          · -- its neighbors get it once more, and they did not have it
            obtain ⟨m, hm, rfl⟩ := Option.map_eq_some_iff.mp hn
            exact h.append hl hm
          · exact ⟨h.noSelf j n hn, h.nodup j n hn⟩

theorem Shape.step (h : g.Shape) (ev : GraphEvent) : (g.step ev).Shape :=
  ⟨h.toGrown.step ev, fun _ _ hn => (h.lists_step ev hn).1, fun _ _ hn => (h.lists_step ev hn).2⟩

/-- A known id is refused and changes nothing. -/
theorem insert_duplicate (h : (g.nodes.lookup id).isSome) :
    g.insert id dist = .error (.duplicateVector id) ∧ g.step (.insert id dist) = g := by
  obtain ⟨n, hn⟩ := Option.isSome_iff_exists.mp h
  have hins : g.insert id dist = .error (.duplicateVector id) := by
    simp only [NswGraph.insert, hn]
  exact ⟨hins, by simp only [NswGraph.step, hins]⟩

/-- After any inserts and deletes: every edge leads to a node, no list names its node or a
    node twice, or is longer than `2 * M`; a non-empty graph has its entry point; and an id
    is refused exactly if it is in the graph, which then stays as it is. -/
theorem shape_of_calls (es : List GraphEvent) :
    let g := Run.exec step .new es
    (∀ id n, g.nodes.lookup id = some n → (∀ nb ∈ n.neighbors, (g.nodes.lookup nb).isSome) ∧
      id ∉ n.neighbors ∧ n.neighbors.Nodup ∧ n.neighbors.length ≤ 2 * nswM) ∧
    (g.nodes.entries ≠ [] → ∃ ep, g.entryPoint = some ep ∧ (g.nodes.lookup ep).isSome) ∧
    ∀ id dist e, g.insert id dist = .error e →
      (g.nodes.lookup id).isSome ∧ e = .duplicateVector id ∧ g.step (.insert id dist) = g := by
  have hshape : (Run.exec step .new es).Shape :=
    Run.exec_invariant Shape (fun g ev h => h.step ev) es shape_new
  generalize Run.exec step .new es = g at hshape
  refine ⟨fun id n hn => ?_, fun hne => ?_, fun id dist e he => ?_⟩
  · have hlen := hshape.bounded id n hn
    exact ⟨hshape.inv.edges id n hn, hshape.noSelf id n hn, hshape.nodup id n hn, by omega⟩
  · cases hep : g.entryPoint with
    | some ep => exact ⟨ep, rfl, hshape.inv.entry ep hep⟩
    | none =>
      obtain ⟨x, hx⟩ := List.exists_mem_of_ne_nil _ hne
      have hl : g.nodes.lookup x.1 = some x.2 := AList.mem_lookup_iff.mpr hx
      simp [hshape.inv.noEntry hep] at hl
  · obtain ⟨hflag, hdup⟩ | ⟨-, g', hok, -⟩ := insert_cases hshape.inv id dist
    · have hsome := flag_ne_none.mp hflag
      have herr : e = .duplicateVector id := Except.error.inj (he.symm.trans hdup)
      exact ⟨hsome, herr, (insert_duplicate hsome).2⟩
    · simp [hok] at he

end NswGraph

end FusionStore
