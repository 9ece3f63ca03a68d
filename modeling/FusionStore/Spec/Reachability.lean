import FusionStore.ForStd.Run
import FusionStore.Spec.SearchCorrect

/-!
# Reachability in the NSW graph

No call removes an edge, so a node that was reachable from the entry point stays so, and a
node that was not is never found and never linked to.  Whether a node can be reached is
decided when it is inserted: one of the nodes it selects must have room for the link back.
Without such a node (every node found is full, or every node is soft-deleted and none is
found) the new node is live and no search returns it.
-/

namespace FusionStore

namespace NswGraph

variable {g g' : NswGraph} {id entry : NodeId} {dist : NodeId → F32}

/-! ### Back-links -/

/-- No neighbour list is longer than `2 * M`. -/
def Bounded (nodes : AList fun _ : NodeId => Node) : Prop :=
  ∀ id n, nodes.lookup id = some n → n.neighbors.length ≤ nswM * 2

section BackLink

variable {nodes : AList fun _ : NodeId => Node} {j nb x : NodeId} {n : Node}

/-- The link back is put last and the list cut at `2 * M`. -/
theorem lookup_backLink_self (h : nodes.lookup nb = some n) :
    (backLink id nodes nb).lookup nb =
      some { n with neighbors := (n.neighbors ++ [id]).take (nswM * 2) } := by
  simp [backLink, h]

/-- The other nodes keep their neighbors. -/
theorem lookup_backLink_ne (h : j ≠ nb) : (backLink id nodes nb).lookup j = nodes.lookup j := by
  unfold backLink
  split
  · exact AList.lookup_insert_ne h
  · rfl

/-- A back-link keeps the list of its node and cuts it to `2 * M`. -/
theorem lookup_backLink (id nb : NodeId) (h : nodes.lookup j = some n) : ∃ m,
    (backLink id nodes nb).lookup j = some m ∧ m.deleted = n.deleted ∧
      (m.neighbors = n.neighbors ∨
        j = nb ∧ m.neighbors = (n.neighbors ++ [id]).take (nswM * 2)) := by
  by_cases hj : j = nb
  · subst hj
    exact ⟨_, lookup_backLink_self h, rfl, .inr ⟨rfl, rfl⟩⟩
  · exact ⟨n, (lookup_backLink_ne hj).trans h, rfl, .inl rfl⟩

/-- The cut keeps the bound. -/
theorem bounded_backLink (h : Bounded nodes) : Bounded (backLink id nodes nb) := by
  intro j m hm
  by_cases hj : j = nb
  · subst hj
    cases hn : nodes.lookup j with
    | none =>
      simp only [backLink, hn, reduceCtorEq] at hm
    | some n =>
      rw [lookup_backLink_self hn] at hm
      obtain rfl := Option.some.inj hm
      simp
  · rw [lookup_backLink_ne hj] at hm
    exact h j m hm

/-- So do all links of an insert. -/
theorem bounded_backLinks {nbs : List NodeId} (h : Bounded nodes) :
    Bounded (nbs.foldl (backLink id) nodes) := by
  induction nbs generalizing nodes with
  | nil => exact h
  | cons nb nbs ih => exact ih (bounded_backLink h)

/-- The cut never reaches what was in the list before. -/
theorem mem_backLinks_of_mem (id : NodeId) (nbs : List NodeId) (h : Bounded nodes)
    (hl : nodes.lookup j = some n) (hx : x ∈ n.neighbors) :
    ∃ m, (nbs.foldl (backLink id) nodes).lookup j = some m ∧ x ∈ m.neighbors := by
  induction nbs generalizing nodes n with
  | nil => exact ⟨n, hl, hx⟩
  | cons nb nbs ih =>
    obtain ⟨m, hm, -, heq | ⟨-, heq⟩⟩ := lookup_backLink id nb hl
    · exact ih (bounded_backLink h) hm (heq ▸ hx)
    · refine ih (bounded_backLink h) hm ?_
      rw [heq, List.take_append, List.take_of_length_le (h j n hl)]
      exact List.mem_append_left _ hx

/-- A selected node with room gets the link. -/
theorem mem_backLinks_of_room {nbs : List NodeId} (h : Bounded nodes) (hnb : nb ∈ nbs)
    (hl : nodes.lookup nb = some n) (hroom : n.neighbors.length < nswM * 2) :
    ∃ m, (nbs.foldl (backLink id) nodes).lookup nb = some m ∧ id ∈ m.neighbors := by
  induction nbs generalizing nodes with
  | nil => exact nomatch hnb
  | cons y nbs ih =>
    by_cases hy : nb = y
    · subst hy
      rw [List.foldl_cons]
      refine mem_backLinks_of_mem id nbs (bounded_backLink h) (lookup_backLink_self hl) ?_
      rw [List.take_of_length_le (by simp; omega)]
      simp
    · refine ih (bounded_backLink h) ((List.mem_cons.mp hnb).resolve_left hy) ?_
      rw [lookup_backLink_ne hy, hl]

/-- Only selected nodes with room get the link. -/
theorem room_of_mem_backLinks {nbs : List NodeId} {m : Node}
    (hm : (nbs.foldl (backLink id) nodes).lookup j = some m) (hid : id ∈ m.neighbors) :
    ∃ n, nodes.lookup j = some n ∧
      (id ∈ n.neighbors ∨ j ∈ nbs ∧ n.neighbors.length < nswM * 2) := by
  induction nbs generalizing nodes with
  | nil => exact ⟨m, hm, .inl hid⟩
  | cons nb nbs ih =>
    obtain ⟨n', hn', hcase⟩ := ih hm
    by_cases hj : j = nb
    · subst hj
      cases hn : nodes.lookup j with
      | none => simp [backLink, hn] at hn'
      | some n =>
        rw [lookup_backLink_self hn] at hn'
        obtain rfl := Option.some.inj hn'
        refine ⟨n, rfl, ?_⟩
        by_cases hroom : n.neighbors.length < nswM * 2
        · exact .inr ⟨List.mem_cons_self, hroom⟩
        · -- a full list is cut back to what it was
          have hcut : (n.neighbors ++ [id]).take (nswM * 2) = n.neighbors.take (nswM * 2) :=
            List.take_append_of_le_length (Nat.not_lt.mp hroom)
          simp only [hcut, List.length_take] at hcase
          obtain hmem | ⟨-, hlt⟩ := hcase
          · exact .inl (List.mem_of_mem_take hmem)
          · omega
    · rw [lookup_backLink_ne hj] at hn'
      obtain hmem | ⟨hmem, hroom⟩ := hcase
      · exact ⟨n', hn', .inl hmem⟩
      · exact ⟨n', hn', .inr ⟨List.mem_cons_of_mem _ hmem, hroom⟩⟩

end BackLink

/-! ### One insert -/

/-- A node that the search for a new vector selects has room for the link back. -/
def HasRoom (g : NswGraph) (dist : NodeId → F32) : Prop :=
  match g.entryPoint with
  | none => True
  | some entry => ∃ c ∈ (g.searchLayer dist efConstruction entry fun _ => false).take nswM,
    ∃ n ∈ g.nodes.lookup c.1, n.neighbors.length < nswM * 2

instance (g : NswGraph) (dist : NodeId → F32) : Decidable (g.HasRoom dist) := by
  unfold HasRoom
  cases g.entryPoint with
  | none => exact .isTrue trivial
  | some entry => exact List.decidableBEx _ _

/-- Everything an insert into a graph with an entry point does. -/
structure Linked (g : NswGraph) (id : NodeId) (dist : NodeId → F32) (entry : NodeId)
    (g' : NswGraph) : Prop where
  entryPoint : g'.entryPoint = some entry
  live : ∀ j, g'.isDeleted j = false ↔ j = id ∨ g.isDeleted j = false
  bounded : Bounded g'.nodes
  keeps : ∀ a b, g.Edge a b → g'.Edge a b
  linked : g.HasRoom dist → ∃ a, g.Reaches entry a ∧ g'.Edge a id
  room : ∀ a, g'.Edge a id → g.HasRoom dist

/-- What an insert selects is a node, reached from the entry point. -/
theorem selected {c : NodeId × F32}
    (h : c ∈ (g.searchLayer dist efConstruction entry fun _ => false).take nswM) :
    (g.nodes.lookup c.1).isSome ∧ g.Reaches entry c.1 :=
  have hmem := List.mem_of_mem_take h
  ⟨isSome_of_flag (isDeleted_iff.mp (mem_searchLayer hmem)), reaches_of_mem_searchLayer hmem⟩

/-- What an insert of a new id does to the edges. -/
theorem insert_linked (dist : NodeId → F32) (h : g.Inv) (hb : Bounded g.nodes)
    (hentry : g.entryPoint = some entry) (hnew : g.nodes.lookup id = none) :
    ∃ g', g.insert id dist = .ok g' ∧ g.Linked id dist entry g' := by
  obtain ⟨hf, -⟩ | ⟨-, g', hg', -, hflag, hother⟩ := insert_cases h id dist
  · rw [flag_ne_none, hnew] at hf
    exact nomatch hf
  refine ⟨g', hg', ?_⟩
  simp only [NswGraph.insert, hnew, hentry, Except.ok.injEq] at hg'
  generalize hsel : (g.searchLayer dist efConstruction entry fun _ => false).take nswM = sel
    at hg'
  have hin : ∀ c ∈ sel, (g.nodes.lookup c.1).isSome ∧ g.Reaches entry c.1 := by
    intro c hc
    rw [← hsel] at hc
    exact selected hc
  have hnode : g'.nodes.lookup id = some ⟨false, sel.map Prod.fst⟩ := by
    rw [← hg']
    exact AList.lookup_insert _
  have hlookup : ∀ j, j ≠ id →
      g'.nodes.lookup j = ((sel.map Prod.fst).foldl (backLink id) g.nodes).lookup j := by
    intro j hj
    rw [← hg']
    exact AList.lookup_insert_ne hj
  have hroom_iff : g.HasRoom dist ↔ ∃ c ∈ sel, ∃ n ∈ g.nodes.lookup c.1,
      n.neighbors.length < nswM * 2 := by
    simp only [HasRoom, hentry, hsel]
  refine ⟨?_, ?_, ?_, ?_, ?_, ?_⟩
  · rw [← hg']
  · -- the live nodes are those from before and the new one
    intro j
    rw [isDeleted_iff, isDeleted_iff]
    by_cases hj : j = id
    · subst hj
      simp [hflag]
    · simp [hother j hj, hj]
  · -- the new list has one batch of neighbors, the old ones are cut
    intro j n hn
    by_cases hj : j = id
    · subst hj
      rw [hnode] at hn
      obtain rfl := Option.some.inj hn
      rw [List.length_map, ← hsel, List.length_take]
      have : nswM ≤ nswM * 2 := by decide
      omega
    · rw [hlookup j hj] at hn
      exact bounded_backLinks hb j n hn
  · -- back-links are appended behind the old edges
    rintro a b ⟨n, hn, hmem⟩
    have ha : a ≠ id := by
      rintro rfl
      rw [hnew] at hn
      exact nomatch hn
    obtain ⟨m, hm, hmem'⟩ := mem_backLinks_of_mem id (sel.map Prod.fst) hb hn hmem
    exact ⟨m, (hlookup a ha).trans hm, hmem'⟩
  · -- a selected node with room links back
    intro hroom
    obtain ⟨c, hc, n, hn, hlt⟩ := hroom_iff.mp hroom
    have hne : c.1 ≠ id := by
      intro heq
      rw [heq, hnew] at hn
      exact nomatch hn
    obtain ⟨m, hm, hmem⟩ := mem_backLinks_of_room hb (List.mem_map_of_mem hc) hn hlt
    exact ⟨c.1, (hin c hc).2, m, (hlookup c.1 hne).trans hm, hmem⟩
  · rintro a ⟨m, hm, hmem⟩
    -- the new node does not select itself, and nothing pointed at it before
    have ha : a ≠ id := by
      rintro rfl
      rw [hnode] at hm
      obtain rfl := Option.some.inj hm
      obtain ⟨c, hc, heq⟩ := List.mem_map.mp hmem
      have hsome := (hin c hc).1
      rw [heq, hnew] at hsome
      exact nomatch hsome
    rw [hlookup a ha] at hm
    obtain ⟨n, hn, hold | ⟨hsel', hlt⟩⟩ := room_of_mem_backLinks hm hmem
    · have hsome := h.edges a n hn id hold
      rw [hnew] at hsome
      exact nomatch hsome
    · obtain ⟨c, hc, rfl⟩ := List.mem_map.mp hsel'
      exact hroom_iff.mpr ⟨c, hc, n, hn, hlt⟩

/-! ### Every run -/

/-- Every live node can be reached, and is returned by a search that asks for as many nodes
    as there are live ones. -/
structure Navigable (g : NswGraph) : Prop where
  reachable : ∀ id, g.isDeleted id = false →
    ∃ entry, g.entryPoint = some entry ∧ g.Reaches entry id
  searchKnn : ∀ queryDist topK efSearch, g.len ≤ topK → ∀ id, g.isDeleted id = false →
    id ∈ (g.searchKnn queryDist topK efSearch fun _ => false).map Prod.fst

/-- Navigable is what has a path to every live node. -/
theorem navigable_of_reachable (h : ∀ id, g.isDeleted id = false →
    ∃ entry, g.entryPoint = some entry ∧ g.Reaches entry id) : g.Navigable := by
  refine ⟨h, fun queryDist topK efSearch hk id hid => ?_⟩
  obtain ⟨entry, hentry, hr⟩ := h id hid
  exact mem_searchKnn_of_reaches hk hentry hr hid

/-- A new id is inserted while some selected node has room for it. -/
def LinkStep (g : NswGraph) : GraphEvent → Prop
  | .insert id dist => (g.nodes.lookup id).isSome ∨ g.HasRoom dist
  | .delete _ => True

instance (g : NswGraph) (ev : GraphEvent) : Decidable (g.LinkStep ev) :=
  match ev with
  | .insert _ _ => inferInstanceAs (Decidable (_ ∨ _))
  | .delete _ => .isTrue trivial

/-- More edges, more paths. -/
theorem Reaches.mono (hkeeps : ∀ a b, g.Edge a b → g'.Edge a b) {a b : NodeId}
    (h : g.Reaches a b) : g'.Reaches a b := Relation.ReflTransGen.mono hkeeps _ _ h

/-- A node nobody points at cannot be reached from another one. -/
theorem not_reaches_of_no_edge (hne : entry ≠ id) (hno : ∀ a, ¬g.Edge a id) :
    ¬g.Reaches entry id := by
  intro hr
  obtain heq | ⟨a, -, hedge⟩ := Relation.ReflTransGen.cases_tail hr
  · exact hne heq.symm
  · exact hno a hedge

/-- What every call keeps. -/
structure Grown (g : NswGraph) : Prop where
  inv : g.Inv
  bounded : Bounded g.nodes

/-- A soft delete changes a flag and nothing else. -/
theorem lookup_delete (g : NswGraph) (id j : NodeId) :
    ((g.delete id).2.nodes.lookup j).map Node.neighbors =
      (g.nodes.lookup j).map Node.neighbors ∧ (g.delete id).2.entryPoint = g.entryPoint := by
  unfold delete
  cases hl : g.nodes.lookup id with
  | none => exact ⟨rfl, rfl⟩
  | some n =>
    refine ⟨?_, rfl⟩
    by_cases hj : j = id
    · subst hj
      simp [hl]
    · simp [AList.lookup_insert_ne hj]

/-- A delete removes no edge. -/
theorem edge_delete {a b : NodeId} : (g.delete id).2.Edge a b ↔ g.Edge a b := by
  have hedge : ∀ (g : NswGraph), g.Edge a b ↔
      ∃ l ∈ (g.nodes.lookup a).map Node.neighbors, b ∈ l := by
    intro g
    simp [Edge]
  rw [hedge, hedge, (lookup_delete g id a).1]

/-- What is live after a delete was before. -/
theorem isDeleted_delete {j : NodeId} (h : (g.delete id).2.isDeleted j = false) :
    g.isDeleted j = false := by
  unfold delete at h
  cases hl : g.nodes.lookup id with
  | none =>
    rw [hl] at h
    exact h
  | some n =>
    rw [hl] at h
    by_cases hj : j = id
    · subst hj
      simp [isDeleted] at h
    · simpa [isDeleted, AList.lookup_insert_ne hj] using h

/-- Everything a call can do to a graph: nothing, make it a single node, link a new node, or
    set a flag. -/
theorem Grown.step_cases (h : Grown g) (ev : GraphEvent) :
    (∃ id dist, ev = .insert id dist ∧ (g.nodes.lookup id).isSome ∧ g.step ev = g) ∨
    (∃ id dist, ev = .insert id dist ∧ g.nodes.lookup id = none ∧ g.entryPoint = none ∧
      g.step ev = ⟨g.nodes.insert id ⟨false, []⟩, some id⟩) ∨
    (∃ id dist entry, ev = .insert id dist ∧ g.nodes.lookup id = none ∧
      g.entryPoint = some entry ∧ g.Linked id dist entry (g.step ev)) ∨
    (∃ id, ev = .delete id ∧ g.step ev = (g.delete id).2) := by
  cases ev with
  | delete id => exact .inr (.inr (.inr ⟨id, rfl, rfl⟩))
  | insert id dist =>
    cases hl : g.nodes.lookup id with
    | some n =>
      refine .inl ⟨id, dist, rfl, by rw [hl]; rfl, ?_⟩
      simp only [NswGraph.step, NswGraph.insert, hl]
    | none =>
      cases hep : g.entryPoint with
      | none =>
        refine .inr (.inl ⟨id, dist, rfl, hl, rfl, ?_⟩)
        simp only [NswGraph.step, NswGraph.insert, hl, hep]
      | some entry =>
        obtain ⟨g', hg', hlinked⟩ := insert_linked dist h.inv h.bounded hep hl
        refine .inr (.inr (.inl ⟨id, dist, entry, rfl, hl, rfl, ?_⟩))
        simp only [NswGraph.step, hg']
        exact hlinked

/-- The invariant of a graph that grew from the empty one. -/
theorem Grown.step (h : Grown g) (ev : GraphEvent) : Grown (g.step ev) := by
  refine ⟨h.inv.step ev, ?_⟩
  obtain ⟨id, dist, rfl, -, heq⟩ | ⟨id, dist, rfl, -, hep, heq⟩ |
    ⟨id, dist, entry, rfl, -, -, hlinked⟩ | ⟨id, rfl, heq⟩ := h.step_cases ev
  · rw [heq]
    exact h.bounded
  · rw [heq]
    intro j n hn
    by_cases hj : j = id
    · subst hj
      rw [AList.lookup_insert] at hn
      obtain rfl := Option.some.inj hn
      exact Nat.zero_le _
    · rw [AList.lookup_insert_ne hj] at hn
      exact h.bounded j n hn
  · exact hlinked.bounded
  · rw [heq]
    intro j n hn
    have hsame := (lookup_delete g id j).1
    rw [hn] at hsame
    obtain ⟨m, hm, hmn⟩ := Option.map_eq_some_iff.mp hsame.symm
    rw [← hmn]
    exact h.bounded j m hm

/-- The step lemma: navigable graphs stay so exactly through such steps. -/
theorem Grown.navigable_step (h : Grown g) (hnav : g.Navigable) (ev : GraphEvent) :
    (g.step ev).Navigable ↔ g.LinkStep ev := by
  obtain ⟨id, dist, rfl, hsome, heq⟩ | ⟨id, dist, rfl, hnew, hep, heq⟩ |
    ⟨id, dist, entry, rfl, hnew, hep, hlinked⟩ | ⟨id, rfl, heq⟩ := h.step_cases ev
  · -- an id that exists is refused
    rw [heq]
    exact iff_of_true hnav (.inl hsome)
  · -- the first node is the entry point
    refine iff_of_true ?_ (.inr (by simp only [HasRoom, hep]))
    rw [heq]
    refine navigable_of_reachable fun j hj => ⟨id, rfl, ?_⟩
    by_cases hji : j = id
    · rw [hji]
      exact .refl
    · rw [isDeleted, AList.lookup_insert_ne hji, h.inv.noEntry hep j] at hj
      exact nomatch hj
  · -- a node is linked if one of its candidates has room for a back link
    have hstep : g.LinkStep (.insert id dist) ↔ g.HasRoom dist := by
      simp only [LinkStep, hnew, Option.isSome_none, Bool.false_eq_true, false_or]
    rw [hstep]
    constructor
    · -- no path ends at a node without an incoming edge
      intro hnav'
      obtain ⟨entry', hentry', hr⟩ := hnav'.reachable id ((hlinked.live id).mpr (.inl rfl))
      obtain rfl := Option.some.inj (hlinked.entryPoint.symm.trans hentry')
      by_contra hroom
      refine not_reaches_of_no_edge ?_ (fun a ha => hroom (hlinked.room a ha)) hr
      rintro rfl
      have hsome := h.inv.entry _ hep
      rw [hnew] at hsome
      exact nomatch hsome
    · -- the new node hangs on a reachable one, and old paths stay
      intro hroom
      refine navigable_of_reachable fun j hj => ⟨entry, hlinked.entryPoint, ?_⟩
      obtain rfl | hj := (hlinked.live j).mp hj
      · obtain ⟨a, hra, hedge⟩ := hlinked.linked hroom
        exact (hra.mono hlinked.keeps).tail hedge
      · obtain ⟨entry', hentry', hr⟩ := hnav.reachable j hj
        obtain rfl := Option.some.inj (hep.symm.trans hentry')
        exact hr.mono hlinked.keeps
  · -- a deleted node stays on the paths
    refine iff_of_true ?_ trivial
    rw [heq]
    refine navigable_of_reachable fun j hj => ?_
    obtain ⟨entry, hentry, hr⟩ := hnav.reachable j (isDeleted_delete hj)
    exact ⟨entry, (lookup_delete g id j).2.trans hentry,
      hr.mono fun a b hedge => edge_delete.mpr hedge⟩

/-- Along a run from the empty graph every state is navigable exactly if every insert of a
    new id finds a node with room. -/
theorem navigable_iff_guarded (es : List GraphEvent) :
    (∀ pre, pre <+: es → (Run.exec step .new pre).Navigable) ↔
      Run.Guarded step LinkStep .new es := by
  refine (Run.guarded_iff (fun (g : NswGraph) ev (h : Grown g) => h.step ev)
    (fun g ev h (hnav : g.Navigable) => h.navigable_step hnav ev) ⟨inv_new, ?_⟩ ?_).symm
  · exact fun id n hn => nomatch hn
  · exact navigable_of_reachable fun id hid => nomatch hid

example : Run.Guarded step LinkStep .new [.insert 1 fun _ => 0, .insert 2 fun _ => 0,
    .delete 1, .insert 3 fun _ => 0, .delete 2, .delete 2] := by decide +kernel

/-- The only node is soft-deleted when the next one arrives: that one is live, no edge leads
    to it, and a search for all live nodes returns nothing. -/
theorem unreachable_after_deletes :
    let g := Run.exec step .new [.insert 1 fun _ => 0, .delete 1, .insert 2 fun _ => 0]
    g.entryPoint = some 1 ∧ g.isDeleted 2 = false ∧ ¬g.Reaches 1 2 ∧ g.len = 1 ∧
      g.searchKnn (fun _ => 0) 1 defaultEfSearch (fun _ => false) = [] := by
  refine ⟨rfl, rfl, not_reaches_of_no_edge (by decide) ?_, by decide +kernel, by decide +kernel⟩
  rintro a ⟨n, hn, hmem⟩
  have hnone : ∀ x ∈ (Run.exec step .new [.insert 1 fun _ => 0, .delete 1,
      .insert 2 fun _ => 0]).nodes.entries, (2 : NodeId) ∉ x.2.neighbors := by decide +kernel
  exact hnone ⟨a, n⟩ (AList.mem_lookup_iff.mp hn) hmem

end NswGraph

end FusionStore
