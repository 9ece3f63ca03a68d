import Mathlib.Data.Set.Card
import Mathlib.Logic.Relation
import FusionStore.ForStd.Run
import FusionStore.Spec.FloatOrder
import FusionStore.Spec.GraphCorrect

/-!
# What the greedy search finds

`search_layer` explores the graph from its entry point.  It visits only nodes that are
reachable from there (`Exploring`), and of the live nodes it visited it keeps the `ef`
nearest (`Holding`).  The loop ends with nothing left to pop, or with `ef` results that are
all nearer than what is left (`searchLoop_ended`).

## Key results

- `searchLayer_local_optimum`: the search stops only where no neighbour is nearer
- `searchKnn_exact`: with room for all live nodes in reach, it finds all of them
-/

namespace FusionStore

/-! ### Heaps -/

/-- The result heap pops a farthest result. -/
theorem farthest_of_pop {results rest : BinaryHeap resultLe} {m : F32 × NodeId}
    (h : results.pop = some (m, rest)) :
    ∀ x ∈ results.data, F32.ieeeKey x.1 ≤ F32.ieeeKey m.1 := by
  intro x hx
  obtain rfl | hx := List.mem_cons.mp ((BinaryHeap.pop_perm h).mem_iff.mp hx)
  · exact le_refl _
  · refine F32.ieeeKey_mono ?_
    have hle := resultLe_iff.mp (BinaryHeap.pop_max h x hx)
    omega

/-- The candidate heap pops a nearest candidate. -/
theorem nearest_of_pop {candidates rest : BinaryHeap candidateLe} {m : F32 × NodeId}
    (h : candidates.pop = some (m, rest)) :
    ∀ x ∈ candidates.data, F32.ieeeKey m.1 ≤ F32.ieeeKey x.1 := by
  intro x hx
  obtain rfl | hx := List.mem_cons.mp ((BinaryHeap.pop_perm h).mem_iff.mp hx)
  · exact le_refl _
  · refine F32.ieeeKey_mono ?_
    have hle := candidateLe_iff.mp (BinaryHeap.pop_max h x hx)
    omega

namespace NswGraph

variable {g : NswGraph} {queryDist : NodeId → F32} {ef : Nat} {entry : NodeId}

/-- `b` is in the neighbour list of `a`. -/
def Edge (g : NswGraph) (a b : NodeId) : Prop := ∃ n, g.nodes.lookup a = some n ∧ b ∈ n.neighbors

/-- `b` is reachable from `a` along neighbour edges. -/
def Reaches (g : NswGraph) (a b : NodeId) : Prop := Relation.ReflTransGen g.Edge a b

/-- Edges lead to nodes, so does a path. -/
theorem Inv.isSome_of_reaches (h : g.Inv) {a b : NodeId} (ha : (g.nodes.lookup a).isSome)
    (hr : g.Reaches a b) : (g.nodes.lookup b).isSome := by
  induction hr with
  | refl => exact ha
  | tail _ hedge _ =>
    obtain ⟨n, hl, hmem⟩ := hedge
    exact h.edges _ n hl _ hmem

/-! ### Only reachable nodes are visited -/

/-- What the search has seen so far can be reached. -/
structure Exploring (g : NswGraph) (entry : NodeId) (s : Search) : Prop where
  start : entry ∈ s.visited
  reached : ∀ v ∈ s.visited, g.Reaches entry v
  known : ∀ c ∈ s.candidates.data, c.2 ∈ s.visited
  results : ∀ r ∈ s.results.data, r.2 ∈ s.visited

/-- A node is looked at once. -/
theorem visitNeighbor_of_mem {s : Search} {nb : NodeId} (h : nb ∈ s.visited) :
    g.visitNeighbor queryDist ef s nb = s := if_pos h

/-- A new node is marked. -/
theorem visited_visitNeighbor {s : Search} {nb : NodeId} (h : nb ∉ s.visited) :
    (g.visitNeighbor queryDist ef s nb).visited = nb :: s.visited := by
  simp only [visitNeighbor, h, if_false]

/-- It becomes a candidate whatever its distance. -/
theorem candidates_visitNeighbor {s : Search} {nb : NodeId} (h : nb ∉ s.visited) :
    (g.visitNeighbor queryDist ef s nb).candidates = s.candidates.push (queryDist nb, nb) := by
  simp only [visitNeighbor, h, if_false]

/-- Nothing but it becomes a result. -/
theorem mem_results_visitNeighbor {s : Search} {nb : NodeId} {r : F32 × NodeId}
    (h : r ∈ (g.visitNeighbor queryDist ef s nb).results.data) :
    r ∈ s.results.data ∨ r.2 = nb := by
  unfold visitNeighbor at h
  split at h
  · exact .inl h
  · simp only at h
    split at h
    · exact .inl h
    · split at h
      · obtain rfl | h := BinaryHeap.mem_push.mp h
        · exact .inr rfl
        · exact .inl h
      · split at h
        · rename_i hp
          split at h
          · obtain rfl | h := BinaryHeap.mem_push.mp h
            · exact .inr rfl
            · exact .inl (BinaryHeap.mem_of_pop hp h)
          · exact .inl h
        · exact .inl h

/-- A neighbor of a reached node is reached. -/
theorem Exploring.visitNeighbor {s : Search} (h : g.Exploring entry s) {nb : NodeId}
    (hnb : g.Reaches entry nb) : g.Exploring entry (g.visitNeighbor queryDist ef s nb) := by
  by_cases hv : nb ∈ s.visited
  · rw [visitNeighbor_of_mem hv]
    exact h
  · refine ⟨?_, ?_, ?_, ?_⟩
    · simp [visited_visitNeighbor hv, h.start]
    · intro v hmem
      rw [visited_visitNeighbor hv, List.mem_cons] at hmem
      obtain rfl | hmem := hmem
      · exact hnb
      · exact h.reached v hmem
    · intro c hc
      rw [candidates_visitNeighbor hv, BinaryHeap.mem_push] at hc
      rw [visited_visitNeighbor hv, List.mem_cons]
      obtain rfl | hc := hc
      · exact .inl rfl
      · exact .inr (h.known c hc)
    · intro r hr
      rw [visited_visitNeighbor hv, List.mem_cons]
      obtain hr | hr := mem_results_visitNeighbor hr
      · exact .inr (h.results r hr)
      · exact .inl hr

/-- So are all of them. -/
theorem Exploring.foldl_visitNeighbor {s : Search} (h : g.Exploring entry s) {nbs : List NodeId}
    (hnbs : ∀ nb ∈ nbs, g.Reaches entry nb) :
    g.Exploring entry (nbs.foldl (g.visitNeighbor queryDist ef) s) := by
  induction nbs generalizing s with
  | nil => exact h
  | cons nb nbs ih =>
    exact ih (h.visitNeighbor (hnbs nb List.mem_cons_self))
      fun b hb => hnbs b (List.mem_cons_of_mem _ hb)

/-- Popping a candidate keeps the invariant, and its neighbours are reachable. -/
theorem Exploring.pop {s : Search} (h : g.Exploring entry s) {c : F32 × NodeId}
    {rest : BinaryHeap candidateLe} (hp : s.candidates.pop = some (c, rest)) :
    g.Exploring entry { s with candidates := rest } ∧
      ∀ node, g.nodes.lookup c.2 = some node → ∀ nb ∈ node.neighbors, g.Reaches entry nb := by
  have hperm := BinaryHeap.pop_perm hp
  refine ⟨⟨h.start, h.reached, ?_, h.results⟩, ?_⟩
  · exact fun d hd => h.known d (hperm.mem_iff.mpr (List.mem_cons_of_mem _ hd))
  · intro node hl nb hnb
    have hc := h.known c (hperm.mem_iff.mpr List.mem_cons_self)
    exact (h.reached c.2 hc).tail ⟨node, hl, hnb⟩

/-- The loop looks only at what can be reached, however it ends. -/
theorem Exploring.searchLoop {expired : Nat → Bool} {fuel k : Nat} {s : Search}
    (h : g.Exploring entry s) :
    g.Exploring entry (g.searchLoop queryDist ef expired fuel k s) := by
  induction fuel generalizing k s with
  | zero => exact h
  | succ fuel ih =>
    unfold NswGraph.searchLoop
    split
    · exact h
    · rename_i cd cid rest hp
      obtain ⟨hpop, hnbs⟩ := h.pop hp
      simp only
      split
      · exact hpop
      · split
        · exact hpop
        · split
          · exact ih hpop
          · rename_i node hl
            exact ih (hpop.foldl_visitNeighbor (hnbs node hl))

/-- It starts with the entry point alone. -/
theorem exploring_start (g : NswGraph) (entry : NodeId) (d : F32) :
    g.Exploring entry ⟨[entry], BinaryHeap.empty.push (d, entry),
      if g.isDeleted entry then .empty else BinaryHeap.empty.push (d, entry)⟩ := by
  refine ⟨List.mem_cons_self, ?_, ?_, ?_⟩
  · intro v hv
    rw [List.mem_singleton.mp hv]
    exact .refl
  · intro c hc
    rw [BinaryHeap.mem_singleton.mp hc]
    exact List.mem_cons_self
  · intro r hr
    split at hr
    · cases hr
    · rw [BinaryHeap.mem_singleton.mp hr]
      exact List.mem_cons_self

/-- What a search has seen it has reached. -/
theorem exploring_searchState (g : NswGraph) (queryDist : NodeId → F32) (ef : Nat)
    (entry : NodeId) (expired : Nat → Bool) :
    g.Exploring entry (g.searchState queryDist ef entry expired) :=
  (exploring_start g entry _).searchLoop

/-- In particular what it has marked. -/
theorem reaches_of_visited {expired : Nat → Bool} {v : NodeId}
    (h : v ∈ (g.searchState queryDist ef entry expired).visited) : g.Reaches entry v :=
  (exploring_searchState g queryDist ef entry expired).reached v h

/-- And what it returns. -/
theorem reaches_of_mem_searchLayer {expired : Nat → Bool} {r : NodeId × F32}
    (h : r ∈ g.searchLayer queryDist ef entry expired) : g.Reaches entry r.1 := by
  unfold searchLayer at h
  rw [List.mem_insertionSort, List.mem_map] at h
  obtain ⟨q, hq, rfl⟩ := h
  exact reaches_of_visited ((exploring_searchState g queryDist ef entry expired).results q hq)

/-! ### Only nodes are asked for their distance -/

section Congr

variable {d d' : NodeId → F32} {expired : Nat → Bool}

/-- Only the distance of the node itself is asked for. -/
theorem visitNeighbor_congr {nb : NodeId} (h : d nb = d' nb) (s : Search) :
    g.visitNeighbor d ef s nb = g.visitNeighbor d' ef s nb := by
  simp only [NswGraph.visitNeighbor, h]

/-- The same for a list of neighbors. -/
theorem foldl_visitNeighbor_congr {nbs : List NodeId} (h : ∀ nb ∈ nbs, d nb = d' nb)
    (s : Search) : nbs.foldl (g.visitNeighbor d ef) s = nbs.foldl (g.visitNeighbor d' ef) s := by
  induction nbs generalizing s with
  | nil => rfl
  | cons nb nbs ih =>
    rw [List.foldl_cons, List.foldl_cons, visitNeighbor_congr (h nb List.mem_cons_self)]
    exact ih (fun b hb => h b (List.mem_cons_of_mem _ hb)) _

/-- The loop asks for distances of neighbours only, and edges do not dangle. -/
theorem Inv.searchLoop_congr (hg : g.Inv) (h : ∀ j, (g.nodes.lookup j).isSome → d j = d' j)
    (fuel k : Nat) (s : Search) :
    g.searchLoop d ef expired fuel k s = g.searchLoop d' ef expired fuel k s := by
  induction fuel generalizing k s with
  | zero => rfl
  | succ fuel ih =>
    simp only [NswGraph.searchLoop]
    split
    · rfl
    · rename_i cd cid rest hp
      cases hl : g.nodes.lookup cid with
      | none => simp only [ih]
      | some node =>
        have hnbs : ∀ nb ∈ node.neighbors, d nb = d' nb :=
          fun nb hnb => h nb (hg.edges cid node hl nb hnb)
        simp only [foldl_visitNeighbor_congr hnbs, ih]

/-- A search asks for distances of nodes of the graph only. -/
theorem Inv.searchLayer_congr (hg : g.Inv) (h : ∀ j, (g.nodes.lookup j).isSome → d j = d' j)
    (hentry : g.entryPoint = some entry) :
    g.searchLayer d ef entry expired = g.searchLayer d' ef entry expired := by
  have he : d entry = d' entry := h entry (hg.entry entry hentry)
  simp only [searchLayer, searchState, he, hg.searchLoop_congr h]

/-- A new node is linked by its distances to the nodes of the graph; what the closure says of
    other ids does not matter. -/
theorem Inv.insert_congr (hg : g.Inv) (h : ∀ j, (g.nodes.lookup j).isSome → d j = d' j)
    (id : NodeId) : g.insert id d = g.insert id d' := by
  unfold NswGraph.insert
  cases hl : g.nodes.lookup id with
  | some n => rfl
  | none =>
    cases hentry : g.entryPoint with
    | none => rfl
    | some entry => simp only [hg.searchLayer_congr h hentry]

end Congr

/-! ### What the result heap holds -/

/-- No distance the search compares is NaN. -/
def Comparable (g : NswGraph) (queryDist : NodeId → F32) (entry : NodeId) : Prop :=
  ∀ v, g.Reaches entry v → F32.isNaN (queryDist v) = false

/-- The result heap after `nb` was visited for the first time. -/
def pushResult (g : NswGraph) (queryDist : NodeId → F32) (ef : Nat)
    (results : BinaryHeap resultLe) (nb : NodeId) : BinaryHeap resultLe :=
  if g.isDeleted nb then results
  else if results.len < ef then results.push (queryDist nb, nb)
  else
    match results.pop with
    | some ((farthest, _), rest) =>
      if F32.lt (queryDist nb) farthest then rest.push (queryDist nb, nb) else results
    | none => results

/-- The results after a new node. -/
theorem results_visitNeighbor {s : Search} {nb : NodeId} (h : nb ∉ s.visited) :
    (g.visitNeighbor queryDist ef s nb).results = g.pushResult queryDist ef s.results nb := by
  simp only [visitNeighbor, h, if_false]
  rfl

/-- The results are live nodes, each once and with its distance.  A live node that was
    visited is one of them, or there are `ef` results and none of them is farther. -/
structure Holding (g : NswGraph) (queryDist : NodeId → F32) (ef : Nat) (entry : NodeId)
    (visited : List NodeId) (results : List (F32 × NodeId)) : Prop where
  nodup : (results.map Prod.snd).Nodup
  live : ∀ r ∈ results, g.isDeleted r.2 = false
  seen : ∀ r ∈ results, r.2 ∈ visited
  own : ∀ r ∈ results, r.1 = queryDist r.2
  room : results.length ≤ max ef 1
  kept : ∀ v ∈ visited, g.isDeleted v = false → v ∈ results.map Prod.snd ∨
    ef ≤ results.length ∧ (g.Comparable queryDist entry →
      ∀ r ∈ results, F32.ieeeKey r.1 ≤ F32.ieeeKey (queryDist v))

section Holding

variable {visited : List NodeId} {results rest : List (F32 × NodeId)} {nb : NodeId}

/-- A new live node joins what is left of the results. -/
theorem Holding.add (h : g.Holding queryDist ef entry visited results) (hv : nb ∉ visited)
    (hlive : g.isDeleted nb = false) (hsub : ∀ r ∈ rest, r ∈ results)
    (hnd : (rest.map Prod.snd).Nodup) (hroom : rest.length + 1 ≤ max ef 1)
    (hkept : ∀ v ∈ visited, g.isDeleted v = false → v ∈ rest.map Prod.snd ∨
      ef ≤ rest.length + 1 ∧ (g.Comparable queryDist entry →
        ∀ r ∈ (queryDist nb, nb) :: rest, F32.ieeeKey r.1 ≤ F32.ieeeKey (queryDist v))) :
    g.Holding queryDist ef entry (nb :: visited) ((queryDist nb, nb) :: rest) := by
  have hnew : nb ∉ rest.map Prod.snd := by
    intro hmem
    obtain ⟨r, hr, rfl⟩ := List.mem_map.mp hmem
    exact hv (h.seen r (hsub r hr))
  refine ⟨List.nodup_cons.mpr ⟨hnew, hnd⟩, ?_, ?_, ?_, hroom, ?_⟩
  · intro r hr
    obtain rfl | hr := List.mem_cons.mp hr
    · exact hlive
    · exact h.live r (hsub r hr)
  · intro r hr
    obtain rfl | hr := List.mem_cons.mp hr
    · exact List.mem_cons_self
    · exact List.mem_cons_of_mem _ (h.seen r (hsub r hr))
  · intro r hr
    obtain rfl | hr := List.mem_cons.mp hr
    · rfl
    · exact h.own r (hsub r hr)
  · intro v hmem hl
    obtain rfl | hmem := List.mem_cons.mp hmem
    · exact Or.inl List.mem_cons_self
    · exact (hkept v hmem hl).imp_left (List.mem_cons_of_mem _)

/-- The results stay as they are if the new node is no better than any of them. -/
theorem Holding.skip (h : g.Holding queryDist ef entry visited results)
    (hnb : g.isDeleted nb = false → ef ≤ results.length ∧ (g.Comparable queryDist entry →
      ∀ r ∈ results, F32.ieeeKey r.1 ≤ F32.ieeeKey (queryDist nb))) :
    g.Holding queryDist ef entry (nb :: visited) results := by
  refine ⟨h.nodup, h.live, fun r hr => List.mem_cons_of_mem _ (h.seen r hr), h.own, h.room, ?_⟩
  intro v hmem hl
  obtain rfl | hmem := List.mem_cons.mp hmem
  · exact Or.inr (hnb hl)
  · exact h.kept v hmem hl

/-- The order of the results does not matter here. -/
theorem Holding.perm (h : g.Holding queryDist ef entry visited results)
    (hperm : rest.Perm results) : g.Holding queryDist ef entry visited rest where
  nodup := (hperm.map Prod.snd).nodup_iff.mpr h.nodup
  live r hr := h.live r (hperm.mem_iff.mp hr)
  seen r hr := h.seen r (hperm.mem_iff.mp hr)
  own r hr := h.own r (hperm.mem_iff.mp hr)
  room := hperm.length_eq ▸ h.room
  kept v hv hl := by
    rw [(hperm.map Prod.snd).mem_iff, hperm.length_eq]
    exact (h.kept v hv hl).imp_right fun hfull =>
      ⟨hfull.1, fun hcmp r hr => hfull.2 hcmp r (hperm.mem_iff.mp hr)⟩

/-- Whether the new node is kept, pushes another one out or is left out, the results stay the
    nearest of what was seen. -/
theorem Holding.pushResult {results : BinaryHeap resultLe}
    (h : g.Holding queryDist ef entry visited results.data)
    (hv : nb ∉ visited) (hreach : ∀ v ∈ nb :: visited, g.Reaches entry v) :
    g.Holding queryDist ef entry (nb :: visited) (g.pushResult queryDist ef results nb).data := by
  unfold NswGraph.pushResult
  split
  · -- a deleted node is no result
    rename_i hdel
    exact h.skip fun hl => by simp [hdel] at hl
  rename_i hdel
  have hlive : g.isDeleted nb = false := Bool.eq_false_iff.mpr hdel
  split
  · -- there is room
    rename_i hlt
    have hlt : results.data.length < ef := hlt
    refine (h.add hv hlive (fun r hr => hr) h.nodup (by omega) fun v hmem hl => ?_).perm
      (results.push_perm _)
    refine (h.kept v hmem hl).imp_right fun hfull => ?_
    omega
  rename_i hfull
  have hfull : ¬results.data.length < ef := hfull
  split
  · rename_i farthest id rest hp
    have hperm := BinaryHeap.pop_perm hp
    have hlen := hperm.length_eq
    have hfar := farthest_of_pop hp
    rw [List.length_cons] at hlen
    split
    · -- the farthest result makes room for a nearer one
      rename_i hlt
      have hnear := F32.ieeeKey_lt_of_lt hlt
      have hsub : ∀ r ∈ rest.data, r ∈ results.data := fun r hr => BinaryHeap.mem_of_pop hp hr
      have hnd : (((farthest, id) :: rest.data).map Prod.snd).Nodup :=
        (hperm.map Prod.snd).nodup_iff.mp h.nodup
      have hroom := h.room
      refine (h.add hv hlive hsub (List.nodup_cons.mp hnd).2 (by omega) fun v hmem hl => ?_).perm
        (rest.push_perm _)
      obtain hin | ⟨-, hold⟩ := h.kept v hmem hl
      · obtain ⟨r, hr, rfl⟩ := List.mem_map.mp hin
        obtain rfl | hr := List.mem_cons.mp (hperm.mem_iff.mp hr)
        · -- this is the one that leaves
          refine Or.inr ⟨by omega, fun _ r hr => ?_⟩
          rw [← h.own _ (hperm.mem_iff.mpr List.mem_cons_self)]
          obtain rfl | hr := List.mem_cons.mp hr
          · exact hnear.le
          · exact hfar r (hsub r hr)
        · exact Or.inl (List.mem_map_of_mem hr)
      · -- what was kept out before is farther than the new one too
        refine Or.inr ⟨by omega, fun hcmp r hr => ?_⟩
        obtain rfl | hr := List.mem_cons.mp hr
        · exact hnear.le.trans (hold hcmp _ (hperm.mem_iff.mpr List.mem_cons_self))
        · exact hold hcmp r (hsub r hr)
    · -- the new node is as far as all results
      rename_i hlt
      refine h.skip fun _ => ⟨by omega, fun hcmp r hr => (hfar r hr).trans ?_⟩
      have hmem : (farthest, id) ∈ results.data := hperm.mem_iff.mpr List.mem_cons_self
      have hown : farthest = queryDist id := h.own _ hmem
      have hnan : F32.isNaN farthest = false := by
        rw [hown]
        exact hcmp _ (hreach _ (List.mem_cons_of_mem _ (h.seen _ hmem)))
      exact F32.ieeeKey_le_of_not_lt (hcmp nb (hreach nb List.mem_cons_self)) hnan
        (Bool.eq_false_iff.mpr hlt)
  · -- no result at all is as many as were asked for
    rename_i hp
    have hnil := BinaryHeap.pop_eq_none hp
    refine h.skip fun _ => ⟨Nat.not_lt.mp hfull, fun _ r hr => ?_⟩
    rw [hnil] at hr
    cases hr

end Holding

/-! ### The loop -/

/-- Where the search has been, what it holds and what is left to do: `todo` are the
    neighbours of the popped candidate that were not looked at yet. -/
structure Keeping (g : NswGraph) (queryDist : NodeId → F32) (ef : Nat) (entry : NodeId)
    (todo : List NodeId) (s : Search) : Prop where
  closed : ∀ v ∈ s.visited, (∃ d, (d, v) ∈ s.candidates.data) ∨
    ∀ b, g.Edge v b → b ∈ s.visited ∨ b ∈ todo
  own : ∀ c ∈ s.candidates.data, c.1 = queryDist c.2
  holding : g.Holding queryDist ef entry s.visited s.results.data

/-- The neighbors still to do get fewer by one. -/
theorem Keeping.visitNeighbor {nb : NodeId} {todo : List NodeId} {s : Search}
    (h : g.Keeping queryDist ef entry (nb :: todo) s) (he : g.Exploring entry s)
    (hnb : g.Reaches entry nb) :
    g.Keeping queryDist ef entry todo (g.visitNeighbor queryDist ef s nb) := by
  by_cases hv : nb ∈ s.visited
  · -- a node that was seen before is skipped
    rw [visitNeighbor_of_mem hv]
    refine ⟨fun v hmem => ?_, h.own, h.holding⟩
    refine (h.closed v hmem).imp_right fun hc b hb => ?_
    obtain hb | hb := hc b hb
    · exact .inl hb
    · obtain rfl | hb := List.mem_cons.mp hb
      · exact .inl hv
      · exact .inr hb
  · -- a new node is seen, is a candidate and may be a result
    refine ⟨?_, ?_, ?_⟩
    · rw [visited_visitNeighbor hv, candidates_visitNeighbor hv]
      intro v hmem
      obtain rfl | hmem := List.mem_cons.mp hmem
      · exact .inl ⟨_, BinaryHeap.mem_push.mpr (.inl rfl)⟩
      · -- an old node is still a candidate, or its neighbors are seen or to do
        obtain ⟨d, hc⟩ | hc := h.closed v hmem
        · exact .inl ⟨d, BinaryHeap.mem_push.mpr (.inr hc)⟩
        · refine .inr fun b hb => ?_
          obtain hb | hb := hc b hb
          · exact .inl (List.mem_cons_of_mem _ hb)
          · obtain rfl | hb := List.mem_cons.mp hb
            · exact .inl List.mem_cons_self
            · exact .inr hb
    · rw [candidates_visitNeighbor hv]
      intro c hc
      obtain rfl | hc := BinaryHeap.mem_push.mp hc
      · rfl
      · exact h.own c hc
    · rw [visited_visitNeighbor hv, results_visitNeighbor hv]
      refine h.holding.pushResult hv fun v hmem => ?_
      obtain rfl | hmem := List.mem_cons.mp hmem
      · exact hnb
      · exact he.reached v hmem

/-- After all of them the popped node is done. -/
theorem Keeping.foldl_visitNeighbor {todo : List NodeId} {s : Search}
    (h : g.Keeping queryDist ef entry todo s) (he : g.Exploring entry s)
    (htodo : ∀ nb ∈ todo, g.Reaches entry nb) :
    g.Keeping queryDist ef entry [] (todo.foldl (g.visitNeighbor queryDist ef) s) := by
  induction todo generalizing s with
  | nil => exact h
  | cons nb todo ih =>
    have hnb := htodo nb List.mem_cons_self
    exact ih (h.visitNeighbor he hnb) (he.visitNeighbor hnb)
      fun b hb => htodo b (List.mem_cons_of_mem _ hb)

/-- The popped candidate leaves its neighbours to do. -/
theorem Keeping.pop {s : Search} (h : g.Keeping queryDist ef entry [] s) {c : F32 × NodeId}
    {rest : BinaryHeap candidateLe} (hp : s.candidates.pop = some (c, rest))
    {todo : List NodeId} (htodo : ∀ b, g.Edge c.2 b → b ∈ todo) :
    g.Keeping queryDist ef entry todo { s with candidates := rest } := by
  have hperm := BinaryHeap.pop_perm hp
  refine ⟨fun v hv => ?_, fun d hd => ?_, h.holding⟩
  · obtain ⟨d, hd⟩ | hc := h.closed v hv
    · obtain rfl | hd := List.mem_cons.mp (hperm.mem_iff.mp hd)
      · exact .inr fun b hb => .inr (htodo b hb)
      · exact .inl ⟨d, hd⟩
    · refine .inr fun b hb => (hc b hb).imp_right fun hb => ?_
      cases hb
  · exact h.own d (hperm.mem_iff.mpr (List.mem_cons_of_mem _ hd))

/-- The state before the first pop. -/
def searchStart (g : NswGraph) (queryDist : NodeId → F32) (entry : NodeId) : Search :=
  ⟨[entry], BinaryHeap.empty.push (queryDist entry, entry),
    if g.isDeleted entry then .empty else BinaryHeap.empty.push (queryDist entry, entry)⟩

/-- Nothing is done at the start. -/
theorem keeping_start (g : NswGraph) (queryDist : NodeId → F32) (ef : Nat) (entry : NodeId) :
    g.Keeping queryDist ef entry [] (g.searchStart queryDist entry) := by
  refine ⟨?_, ?_, ?_⟩
  · intro v hv
    obtain rfl := List.mem_singleton.mp hv
    exact .inl ⟨queryDist v, BinaryHeap.mem_singleton.mpr rfl⟩
  · intro c hc
    obtain rfl := BinaryHeap.mem_singleton.mp hc
    rfl
  · show g.Holding queryDist ef entry [entry]
      (if g.isDeleted entry then .empty
        else BinaryHeap.empty.push (queryDist entry, entry) : BinaryHeap resultLe).data
    split
    · rename_i hdel
      refine ⟨by simp, by simp, by simp, by simp, by simp, fun v hv hl => ?_⟩
      obtain rfl := List.mem_singleton.mp hv
      simp [hdel] at hl
    · rename_i hdel
      have hone : g.Holding queryDist ef entry [entry] [(queryDist entry, entry)] := by
        refine ⟨by simp, ?_, by simp, by simp, by simp, by simp⟩
        intro r hr
        obtain rfl := List.mem_singleton.mp hr
        exact Bool.eq_false_iff.mpr hdel
      exact hone.perm (BinaryHeap.push_perm _ _)

/-- How the loop ends: with nothing left to pop, or with `ef` results that are all nearer
    than what is left. -/
def Ended (g : NswGraph) (queryDist : NodeId → F32) (ef : Nat) (entry : NodeId)
    (s : Search) : Prop :=
  ∃ left, g.Keeping queryDist ef entry [] { s with candidates := left } ∧
    (left.data = [] ∨ ef ≤ s.results.len ∧
      ∀ c ∈ left.data, ∀ r ∈ s.results.data, F32.ieeeKey r.1 < F32.ieeeKey c.1)

/-! ### The fuel -/

/-- The ids that occur in neighbour lists. -/
def targets (g : NswGraph) : Finset NodeId :=
  (g.nodes.entries.flatMap fun n => n.2.neighbors).toFinset

/-- What an edge leads to. -/
theorem mem_targets {a b : NodeId} (h : g.Edge a b) : b ∈ g.targets := by
  obtain ⟨n, hl, hmem⟩ := h
  rw [targets, List.mem_toFinset, List.mem_flatMap]
  exact ⟨⟨a, n⟩, AList.mem_lookup_iff.mp hl, hmem⟩

/-- The fuel covers a pop for each target and for the entry point, and the last look. -/
theorem card_targets_add_two_le (g : NswGraph) : g.targets.card + 2 ≤ g.searchFuel := by
  have hle := List.toFinset_card_le (g.nodes.entries.flatMap fun n => n.2.neighbors)
  rw [List.length_flatMap] at hle
  simpa [searchFuel, targets] using hle

/-- How many pops are still to come at most. -/
def popsLeft (g : NswGraph) (s : Search) : Nat :=
  s.candidates.len + (g.targets \ s.visited.toFinset).card

/-- A new candidate is one target less that can still come. -/
theorem popsLeft_visitNeighbor {s : Search} {nb : NodeId} (hnb : nb ∈ g.targets) :
    g.popsLeft (g.visitNeighbor queryDist ef s nb) = g.popsLeft s := by
  by_cases hv : nb ∈ s.visited
  · rw [visitNeighbor_of_mem hv]
  · have hmem : nb ∈ g.targets \ s.visited.toFinset := by simp [hnb, hv]
    have hcard := Finset.card_erase_add_one hmem
    unfold popsLeft
    rw [candidates_visitNeighbor hv, visited_visitNeighbor hv, BinaryHeap.len_push,
      List.toFinset_cons, Finset.sdiff_insert]
    omega

/-- The same for a list of neighbors. -/
theorem popsLeft_foldl {s : Search} {nbs : List NodeId} (hnbs : ∀ nb ∈ nbs, nb ∈ g.targets) :
    g.popsLeft (nbs.foldl (g.visitNeighbor queryDist ef) s) = g.popsLeft s := by
  induction nbs generalizing s with
  | nil => rfl
  | cons nb nbs ih =>
    rw [List.foldl_cons, ih fun b hb => hnbs b (List.mem_cons_of_mem _ hb)]
    exact popsLeft_visitNeighbor (hnbs nb List.mem_cons_self)

/-- The measure of the loop: a pop makes it smaller. -/
theorem popsLeft_pop {s : Search} {c : F32 × NodeId} {rest : BinaryHeap candidateLe}
    (hp : s.candidates.pop = some (c, rest)) :
    g.popsLeft { s with candidates := rest } + 1 = g.popsLeft s := by
  have hlen := BinaryHeap.len_pop hp
  simp only [popsLeft]
  omega

/-! ### How the loop ends -/

/-- The stop test compares the popped candidate with the farthest result. -/
theorem stop_iff {results : BinaryHeap resultLe} {cd : F32} :
    (match results.peek with
      | some (farthest, _) => decide (ef ≤ results.len) && F32.lt farthest cd
      | none => false) = true ↔
    ∃ far rest, results.pop = some (far, rest) ∧ ef ≤ results.len ∧
      F32.lt far.1 cd = true := by
  rw [BinaryHeap.peek_eq]
  cases hp : results.pop with
  | none => simp
  | some q =>
    obtain ⟨far, rest⟩ := q
    simp

/-- With fuel for all pops the loop ends by itself, and then nothing near is missing. -/
theorem searchLoop_ended {fuel k : Nat} {s : Search} (hfuel : g.popsLeft s ≤ fuel)
    (he : g.Exploring entry s) (h : g.Keeping queryDist ef entry [] s) :
    g.Ended queryDist ef entry (g.searchLoop queryDist ef (fun _ => false) fuel k s) := by
  induction fuel generalizing k s with
  | zero =>
    -- no fuel is left because no candidate is
    have hlen : s.candidates.len = 0 := by
      unfold popsLeft at hfuel
      omega
    exact ⟨s.candidates, h, Or.inl (List.length_eq_zero_iff.mp hlen)⟩
  | succ fuel ih =>
    unfold NswGraph.searchLoop
    split
    · -- all candidates are used up
      rename_i hp
      exact ⟨s.candidates, h, Or.inl (BinaryHeap.pop_eq_none hp)⟩
    · rename_i cd cid rest hp
      have hleft := popsLeft_pop (g := g) hp
      obtain ⟨hpop, hnbs⟩ := he.pop hp
      simp only [Bool.and_false, Bool.false_eq_true, if_false]
      split
      · -- the early stop: the popped candidate is the nearest one left
        rename_i hstop
        obtain ⟨far, others, hfar, hfull, hlt⟩ := stop_iff.mp hstop
        have hkey := F32.ieeeKey_lt_of_lt hlt
        refine ⟨s.candidates, h, Or.inr ⟨hfull, fun c hc r hr => ?_⟩⟩
        have hr := farthest_of_pop hfar r hr
        have hc : F32.ieeeKey cd ≤ F32.ieeeKey c.1 := nearest_of_pop hp c hc
        omega
      · -- the popped node is expanded, or it has left the graph
        split
        · -- a node that has left the graph has no edges
          rename_i hl
          refine ih (by omega) hpop (h.pop hp ?_)
          rintro b ⟨n, hn, -⟩
          rw [hl] at hn
          cases hn
        · rename_i node hl
          have htodo : ∀ b, g.Edge cid b → b ∈ node.neighbors := by
            rintro b ⟨n, hn, hb⟩
            rw [hl] at hn
            exact Option.some.inj hn ▸ hb
          refine ih ?_ (hpop.foldl_visitNeighbor (hnbs node hl))
            ((h.pop hp htodo).foldl_visitNeighbor hpop (hnbs node hl))
          rw [popsLeft_foldl fun nb hnb => mem_targets ⟨node, hl, hnb⟩]
          omega

/-- More fuel than there are pops left changes nothing. -/
theorem searchLoop_fuel {expired : Nat → Bool} {fuel fuel' k : Nat} {s : Search}
    (hfuel : g.popsLeft s ≤ fuel) (hfuel' : g.popsLeft s ≤ fuel') :
    g.searchLoop queryDist ef expired fuel k s = g.searchLoop queryDist ef expired fuel' k s := by
  induction fuel generalizing fuel' k s with
  | zero =>
    -- both loops stop at once
    have hlen : s.candidates.len = 0 := by
      unfold popsLeft at hfuel
      omega
    have hnil := BinaryHeap.pop_of_nil (List.length_eq_zero_iff.mp hlen)
    cases fuel' with
    | zero => rfl
    | succ fuel' => simp only [NswGraph.searchLoop, hnil]
  | succ fuel ih =>
    cases fuel' with
    | zero =>
      have hlen : s.candidates.len = 0 := by
        unfold popsLeft at hfuel'
        omega
      have hnil := BinaryHeap.pop_of_nil (List.length_eq_zero_iff.mp hlen)
      simp only [NswGraph.searchLoop, hnil]
    | succ fuel' =>
      unfold NswGraph.searchLoop
      split
      · rfl
      · rename_i cd cid rest hp
        -- a round pops one, and what it adds was counted before
        have hleft := popsLeft_pop (g := g) hp
        have hsame : ∀ node, g.nodes.lookup cid = some node →
            g.popsLeft (node.neighbors.foldl (g.visitNeighbor queryDist ef)
              { s with candidates := rest }) = g.popsLeft { s with candidates := rest } :=
          fun node hl => popsLeft_foldl fun nb hnb => mem_targets ⟨node, hl, hnb⟩
        simp only
        split
        · rfl
        · split
          · rfl
          · split
            · exact ih (by omega) (by omega)
            · rename_i node hl
              have hpops := hsame node hl
              exact ih (by omega) (by omega)

/-- The fuel of `searchState` is enough. -/
theorem popsLeft_searchStart (g : NswGraph) (queryDist : NodeId → F32) (entry : NodeId) :
    g.popsLeft (g.searchStart queryDist entry) ≤ g.searchFuel := by
  have hfuel := g.card_targets_add_two_le
  have hle : (g.targets \ [entry].toFinset).card ≤ g.targets.card :=
    Finset.card_le_card Finset.sdiff_subset
  simp only [popsLeft, searchStart, BinaryHeap.len_push, BinaryHeap.len_empty]
  omega

/-- The loop of `search_layer` ends: with any more turns it stops in the same state. -/
theorem searchLoop_eq_searchState {expired : Nat → Bool} {fuel : Nat} (h : g.searchFuel ≤ fuel) :
    g.searchLoop queryDist ef expired fuel 0 (g.searchStart queryDist entry) =
      g.searchState queryDist ef entry expired := by
  have hstart := popsLeft_searchStart g queryDist entry
  exact searchLoop_fuel (hstart.trans h) hstart

/-- So a search without a deadline ends by itself. -/
theorem searchState_ended (g : NswGraph) (queryDist : NodeId → F32) (ef : Nat) (entry : NodeId) :
    g.Ended queryDist ef entry (g.searchState queryDist ef entry fun _ => false) :=
  searchLoop_ended (popsLeft_searchStart g queryDist entry) (exploring_start g entry _)
    (keeping_start g queryDist ef entry)

namespace Ended

variable {s : Search}

/-- The results of a search that has ended. -/
theorem holding (h : g.Ended queryDist ef entry s) :
    g.Holding queryDist ef entry s.visited s.results.data := by
  obtain ⟨left, hk, -⟩ := h
  exact hk.holding

/-- With nothing left to do, everything reachable was visited. -/
theorem visited_of_reaches {left : BinaryHeap candidateLe} (hleft : left.data = [])
    (h : g.Keeping queryDist ef entry [] { s with candidates := left })
    {a b : NodeId} (ha : a ∈ s.visited) (hr : g.Reaches a b) : b ∈ s.visited := by
  induction hr with
  | refl => exact ha
  | tail _ hedge ih =>
    obtain ⟨d, hd⟩ | hc := h.closed _ ih
    · have hd : (d, _) ∈ left.data := hd
      rw [hleft] at hd
      cases hd
    · obtain hb | hb := hc _ hedge
      · exact hb
      · cases hb

/-- With room to spare, every live node in reach is a result. -/
theorem found_of_room (h : g.Ended queryDist ef entry s) (hstart : entry ∈ s.visited)
    (hroom : s.results.len < ef) {v : NodeId} (hr : g.Reaches entry v)
    (hv : g.isDeleted v = false) : v ∈ s.results.data.map Prod.snd := by
  obtain ⟨left, hk, hleft | ⟨hfull, -⟩⟩ := h
  · have hvis := visited_of_reaches hleft hk hstart hr
    obtain hin | ⟨hfull, -⟩ := hk.holding.kept v hvis hv
    · exact hin
    · have hfull : ef ≤ s.results.len := hfull
      omega
  · omega

/-- A full result list leaves no nearer neighbour out. -/
theorem neighbor_of_mem (h : g.Ended queryDist ef entry s)
    (hcmp : g.Comparable queryDist entry) {r : F32 × NodeId} (hr : r ∈ s.results.data)
    {nb : NodeId} (hedge : g.Edge r.2 nb) (hv : g.isDeleted nb = false) :
    nb ∈ s.results.data.map Prod.snd ∨
      ∀ q ∈ s.results.data, F32.ieeeKey q.1 ≤ F32.ieeeKey (queryDist nb) := by
  have hh := h.holding
  obtain ⟨left, hk, hend⟩ := h
  obtain ⟨d, hd⟩ | hc := hk.closed r.2 (hh.seen r hr)
  · -- a result is never farther than itself
    obtain hleft | ⟨-, hfar⟩ := hend
    · have hd : (d, r.2) ∈ left.data := hd
      rw [hleft] at hd
      cases hd
    · have hlt : F32.ieeeKey r.1 < F32.ieeeKey d := hfar _ hd r hr
      have hown : d = queryDist r.2 := hk.own _ hd
      rw [hown, ← hh.own r hr] at hlt
      omega
  · obtain hb | hb := hc nb hedge
    · exact (hh.kept nb hb hv).imp_right fun hfull => hfull.2 hcmp
    · cases hb

end Ended

/-! ### The results of `search_layer` -/

/-- The final sort is by a total order. -/
theorem pairwise_sorted (rs : List (NodeId × F32)) :
    (rs.insertionSort fun a b => F32.totalLe a.2 b.2).Pairwise
      fun a b => F32.totalLe a.2 b.2 = true := by
  have htotal : Std.Total fun a b : NodeId × F32 => F32.totalLe a.2 b.2 = true := by
    refine ⟨fun a b => ?_⟩
    simp only [F32.totalLe, decide_eq_true_eq]
    omega
  have htrans : IsTrans (NodeId × F32) fun a b => F32.totalLe a.2 b.2 = true := by
    refine ⟨fun a b c => ?_⟩
    simp only [F32.totalLe, decide_eq_true_eq]
    omega
  exact List.pairwise_insertionSort _ rs

/-- It only reorders what the heap held. -/
theorem perm_searchLayer (g : NswGraph) (queryDist : NodeId → F32) (ef : Nat) (entry : NodeId)
    (expired : Nat → Bool) :
    (g.searchLayer queryDist ef entry expired).Perm
      ((g.searchState queryDist ef entry expired).results.data.map fun r => (r.2, r.1)) :=
  List.perm_insertionSort _ _

/-- The ids that are returned. -/
theorem map_fst_searchLayer (g : NswGraph) (queryDist : NodeId → F32) (ef : Nat)
    (entry : NodeId) (expired : Nat → Bool) :
    ((g.searchLayer queryDist ef entry expired).map Prod.fst).Perm
      ((g.searchState queryDist ef entry expired).results.data.map Prod.snd) := by
  have hperm := (perm_searchLayer g queryDist ef entry expired).map Prod.fst
  rwa [List.map_map] at hperm

/-- Membership does not depend on the order. -/
theorem mem_searchLayer_iff {expired : Nat → Bool} {r : NodeId × F32} :
    r ∈ g.searchLayer queryDist ef entry expired ↔
      (r.2, r.1) ∈ (g.searchState queryDist ef entry expired).results.data := by
  rw [(perm_searchLayer g queryDist ef entry expired).mem_iff, List.mem_map]
  constructor
  · rintro ⟨q, hq, rfl⟩
    exact hq
  · intro hq
    exact ⟨_, hq, rfl⟩

/-- Nor does the number of results. -/
theorem length_searchLayer (g : NswGraph) (queryDist : NodeId → F32) (ef : Nat)
    (entry : NodeId) (expired : Nat → Bool) :
    (g.searchLayer queryDist ef entry expired).length =
      (g.searchState queryDist ef entry expired).results.len := by
  rw [(perm_searchLayer g queryDist ef entry expired).length_eq, List.length_map]
  rfl

/-- Every node is returned once. -/
theorem nodup_searchLayer (g : NswGraph) (queryDist : NodeId → F32) (ef : Nat)
    (entry : NodeId) :
    ((g.searchLayer queryDist ef entry fun _ => false).map Prod.fst).Nodup :=
  (map_fst_searchLayer g queryDist ef entry _).nodup_iff.mpr
    (searchState_ended g queryDist ef entry).holding.nodup

/-- The search terminates and stops only at a local optimum: it returns at most `ef` live
    nodes, sorted; all that can be reached if there are fewer, and otherwise no neighbour of
    a returned node is left out that is nearer than a returned one. -/
theorem searchLayer_local_optimum (g : NswGraph) (queryDist : NodeId → F32) (ef : Nat)
    (entry : NodeId) (hef : 1 ≤ ef) (hcmp : g.Comparable queryDist entry) :
    (∀ fuel, g.searchFuel ≤ fuel →
      g.searchLoop queryDist ef (fun _ => false) fuel 0 (g.searchStart queryDist entry) =
        g.searchState queryDist ef entry fun _ => false) ∧
    let out := g.searchLayer queryDist ef entry fun _ => false
    out.Pairwise (fun a b => F32.totalLe a.2 b.2 = true) ∧
    (out.map Prod.fst).Nodup ∧
    (∀ r ∈ out, g.isDeleted r.1 = false ∧ r.2 = queryDist r.1) ∧
    out.length ≤ ef ∧
    (out.length < ef →
      ∀ v, g.Reaches entry v → g.isDeleted v = false → v ∈ out.map Prod.fst) ∧
    (¬ out.length < ef → ∀ r ∈ out, ∀ nb, g.Edge r.1 nb → g.isDeleted nb = false →
      nb ∈ out.map Prod.fst ∨ ∀ q ∈ out, F32.lt (queryDist nb) q.2 = false) := by
  -- all parts are read off the state in which the loop ends
  have hended := searchState_ended g queryDist ef entry
  have hh := hended.holding
  have hids := map_fst_searchLayer g queryDist ef entry fun _ => false
  have hlen := length_searchLayer g queryDist ef entry fun _ => false
  refine ⟨fun fuel hfuel => searchLoop_eq_searchState hfuel, pairwise_sorted _,
    nodup_searchLayer g queryDist ef entry, ?_, ?_, ?_, ?_⟩
  · intro r hr
    have hr := mem_searchLayer_iff.mp hr
    exact ⟨hh.live _ hr, hh.own _ hr⟩
  · have hroom : (g.searchState queryDist ef entry fun _ => false).results.len ≤ max ef 1 := hh.room
    rw [hlen]
    omega
  · -- with room left nothing is ever kept out, and the search goes everywhere
    intro hroom v hreach hv
    rw [hlen] at hroom
    have hstart := (exploring_searchState g queryDist ef entry fun _ => false).start
    exact hids.mem_iff.mpr (hended.found_of_room hstart hroom hreach hv)
  · -- a result was expanded or stopped the search, so its neighbors were compared
    intro _ r hr nb hedge hv
    obtain hin | hfar := hended.neighbor_of_mem hcmp (mem_searchLayer_iff.mp hr) hedge hv
    · exact Or.inl (hids.mem_iff.mpr hin)
    · refine Or.inr fun q hq => F32.lt_eq_false_of_ieeeKey_le ?_
      exact hfar _ (mem_searchLayer_iff.mp hq)

/-- Three nodes around the first one, of which the search keeps the two nearest. -/
theorem searchLayer_local_optimum_three :
    let g := Run.exec step .new [.insert 1 fun _ => 0, .insert 2 fun _ => 0, .insert 3 fun _ => 0]
    let queryDist := fun id : NodeId =>
      if id = 2 then F32.infinity else if id = 3 then 0 else F32.one
    let out := g.searchLayer queryDist 2 1 fun _ => false
    out = [(3, 0), (1, F32.one)] ∧ ∀ r ∈ out, ∀ nb, g.Edge r.1 nb → g.isDeleted nb = false →
      nb ∈ out.map Prod.fst ∨ ∀ q ∈ out, F32.lt (queryDist nb) q.2 = false := by
  have hnan : ∀ v : NodeId, F32.isNaN
      (if v = 2 then F32.infinity else if v = 3 then 0 else F32.one) = false := by
    intro v
    split
    · decide
    · split <;> decide
  exact ⟨by decide +kernel,
    (searchLayer_local_optimum _ _ 2 1 (by decide) fun v _ => hnan v).2.2.2.2.2.2
    (by decide +kernel)⟩

/-! ### The results of `search_knn` -/

/-- The live nodes that can be reached from the entry point. -/
def liveFromEntry (g : NswGraph) : Set NodeId :=
  { v | g.isDeleted v = false ∧ ∃ entry, g.entryPoint = some entry ∧ g.Reaches entry v }

/-- Only live nodes of the graph count. -/
theorem liveFromEntry_subset (g : NswGraph) : g.liveFromEntry ⊆ ↑g.allIds.toFinset := by
  intro v hv
  have hlive : v ∈ g.allIds := mem_allIds.mpr (isDeleted_iff.mp hv.1)
  simpa using hlive

/-- So there are finitely many. -/
theorem finite_liveFromEntry (g : NswGraph) : g.liveFromEntry.Finite :=
  g.allIds.toFinset.finite_toSet.subset g.liveFromEntry_subset

/-- At most as many as `len` says. -/
theorem ncard_liveFromEntry_le (g : NswGraph) : g.liveFromEntry.ncard ≤ g.len := by
  have hle := Set.ncard_le_ncard g.liveFromEntry_subset g.allIds.toFinset.finite_toSet
  rw [Set.ncard_coe_finset] at hle
  have hcard := List.toFinset_card_le g.allIds
  rw [length_allIds] at hcard
  omega

/-- With room for all live nodes in reach, the search returns exactly these. -/
theorem mem_searchLayer_exact (queryDist : NodeId → F32) {entry : NodeId}
    (hentry : g.entryPoint = some entry)
    (hef : g.liveFromEntry.ncard ≤ ef) {v : NodeId} :
    v ∈ (g.searchLayer queryDist ef entry fun _ => false).map Prod.fst ↔
      v ∈ g.liveFromEntry := by
  have hended := searchState_ended g queryDist ef entry
  have hex := exploring_searchState g queryDist ef entry fun _ => false
  have hh := hended.holding
  rw [(map_fst_searchLayer g queryDist ef entry fun _ => false).mem_iff]
  generalize g.searchState queryDist ef entry (fun _ => false) = s at hended hex hh ⊢
  -- whatever is found is live and in reach
  have hsub : (↑(s.results.data.map Prod.snd).toFinset : Set NodeId) ⊆ g.liveFromEntry := by
    intro w hw
    obtain ⟨r, hr, rfl⟩ := List.mem_map.mp (List.mem_toFinset.mp hw)
    exact ⟨hh.live r hr, entry, hentry, hex.reached _ (hh.seen r hr)⟩
  constructor
  · intro hv
    exact hsub (List.mem_toFinset.mpr hv)
  · rintro ⟨hlive, e, he, hreach⟩
    obtain rfl : entry = e := Option.some.inj (hentry.symm.trans he)
    by_cases hroom : s.results.len < ef
    · exact hended.found_of_room hex.start hroom hreach hlive
    · -- `ef` results are as many as there are live nodes in reach
      have hcard : g.liveFromEntry.ncard ≤
          (↑(s.results.data.map Prod.snd).toFinset : Set NodeId).ncard := by
        rw [Set.ncard_coe_finset, List.toFinset_card_of_nodup hh.nodup, List.length_map]
        exact hef.trans (Nat.not_lt.mp hroom)
      have heq := Set.eq_of_subset_of_ncard_le hsub hcard g.finite_liveFromEntry
      have hmem : v ∈ g.liveFromEntry := ⟨hlive, entry, hentry, hreach⟩
      rw [← heq] at hmem
      exact List.mem_toFinset.mp hmem

/-- With room for all live nodes in reach of the entry point, `search_knn` terminates and
    returns the first `top_k` of them in ascending distance. -/
theorem searchKnn_exact (g : NswGraph) (queryDist : NodeId → F32) (topK efSearch : Nat)
    (hef : g.liveFromEntry.ncard ≤ max efSearch topK) :
    (∀ entry, g.entryPoint = some entry → ∀ fuel, g.searchFuel ≤ fuel →
      g.searchLoop queryDist (max efSearch topK) (fun _ => false) fuel 0
          (g.searchStart queryDist entry) =
        g.searchState queryDist (max efSearch topK) entry fun _ => false) ∧
    ∃ all : List (NodeId × F32),
      (all.map Prod.fst).Nodup ∧
      (∀ v, v ∈ all.map Prod.fst ↔ v ∈ g.liveFromEntry) ∧
      all.length = g.liveFromEntry.ncard ∧
      (∀ r ∈ all, r.2 = queryDist r.1) ∧
      all.Pairwise (fun a b => F32.totalLe a.2 b.2 = true) ∧
      (g.searchKnn queryDist topK efSearch fun _ => false) =
        all.take (min topK g.liveFromEntry.ncard) := by
  refine ⟨fun entry _ fuel hfuel => searchLoop_eq_searchState hfuel, ?_⟩
  -- a list of the right ids has the right length
  have hlength : ∀ all : List (NodeId × F32), (all.map Prod.fst).Nodup →
      (∀ v, v ∈ all.map Prod.fst ↔ v ∈ g.liveFromEntry) →
      all.length = g.liveFromEntry.ncard := by
    intro all hnd hmem
    have heq : g.liveFromEntry = ↑(all.map Prod.fst).toFinset := by
      ext v
      rw [← hmem v]
      simp
    rw [heq, Set.ncard_coe_finset, List.toFinset_card_of_nodup hnd, List.length_map]
  cases hentry : g.entryPoint with
  | none =>
    -- an empty graph
    have hmem : ∀ v, v ∈ ([] : List (NodeId × F32)).map Prod.fst ↔ v ∈ g.liveFromEntry := by
      intro v
      simp [liveFromEntry, hentry]
    refine ⟨[], by simp, hmem, hlength [] (by simp) hmem, by simp, by simp, ?_⟩
    simp [searchKnn, hentry]
  | some entry =>
    have hnd := nodup_searchLayer g queryDist (max efSearch topK) entry
    have hmem := fun v => mem_searchLayer_exact queryDist (v := v) hentry hef
    have hlen := hlength _ hnd hmem
    -- the whole layer is the list, and `searchKnn` takes its front
    refine ⟨_, hnd, hmem, hlen, fun r hr => ?_, pairwise_sorted _, ?_⟩
    · exact (searchState_ended g queryDist _ entry).holding.own _ (mem_searchLayer_iff.mp hr)
    · simp only [searchKnn, hentry]
      rw [← hlen, List.take_eq_take_min]

/-- The soft-deleted node on the way is walked through and not returned. -/
theorem searchKnn_exact_deleted :
    let g := Run.exec step .new [.insert 1 fun _ => 0, .insert 2 fun _ => 0, .delete 1]
    g.searchKnn (fun _ => F32.one) 1 1 (fun _ => false) = [(2, F32.one)] ∧
      ∃ all : List (NodeId × F32), (∀ v, v ∈ all.map Prod.fst ↔ v ∈ g.liveFromEntry) ∧
        [(2, F32.one)] = all.take (min 1 g.liveFromEntry.ncard) := by
  have hknn : (Run.exec step .new [.insert 1 fun _ => 0, .insert 2 fun _ => 0,
      .delete 1]).searchKnn (fun _ => F32.one) 1 1 (fun _ => false) = [(2, F32.one)] := by
    decide +kernel
  obtain ⟨-, all, -, hmem, -, -, -, heq⟩ := searchKnn_exact
    (Run.exec step .new [.insert 1 fun _ => 0, .insert 2 fun _ => 0, .delete 1])
    (fun _ => F32.one) 1 1 ((ncard_liveFromEntry_le _).trans (by decide +kernel))
  exact ⟨hknn, all, hmem, hknn.symm.trans heq⟩

/-- `search_knn` returns every live node that is reachable from the entry point, once
    `top_k` is at least the number of live nodes. -/
theorem mem_searchKnn_of_reaches {topK efSearch : Nat} (hk : g.len ≤ topK)
    (hentry : g.entryPoint = some entry) {v : NodeId} (hr : g.Reaches entry v)
    (hv : g.isDeleted v = false) :
    v ∈ (g.searchKnn queryDist topK efSearch fun _ => false).map Prod.fst := by
  have hcard := g.ncard_liveFromEntry_le
  have hef : g.liveFromEntry.ncard ≤ max efSearch topK := by omega
  have hmem := (mem_searchLayer_exact queryDist hentry hef).mpr ⟨hv, entry, hentry, hr⟩
  have hlen : (g.searchLayer queryDist (max efSearch topK) entry fun _ => false).length ≤ topK := by
    have hlive : (g.searchLayer queryDist (max efSearch topK) entry fun _ => false).map Prod.fst ⊆
        g.allIds := fun w hw => mem_allIds.mpr (isDeleted_iff.mp
          ((mem_searchLayer_exact queryDist hentry hef).mp hw).1)
    have hsub := List.subperm_of_subset (nodup_searchLayer g queryDist _ entry) hlive
    have hle := hsub.length_le
    rw [List.length_map, length_allIds] at hle
    omega
  simp only [searchKnn, hentry]
  rwa [List.take_of_length_le hlen]

end NswGraph

end FusionStore
